import VersionedIndex.Proofs.Index.Searches
import VersionedIndex.Proofs.Order.SearchKeys

namespace VersionedIndex

/-- The cursor stands on a readable item of the walk and yields it and what can be read behind it, or it
stands nowhere and yields nothing. -/
def Cursor.Yields (c : Cursor) (see : Option Visibility) (t : Tree) : Prop :=
  (c.next = none ∧ c.drain see t = []) ∨
  ∃ before e after, (if c.reversed then t.inorder.reverse else t.inorder) = before ++ e :: after ∧
    c.next = some e.id ∧
    c.drain see t = ((e :: after).map (·.version)).filter (Visibility.admits see .read)

namespace Tree.Holds

variable {t : Tree} {s : Shape} {see : Option Visibility} {c : Cursor}

theorem walk_eq (h : t.Holds s) (c : Cursor) :
    (if c.reversed then t.inorder.reverse else t.inorder) = s.itemsToward c.heading := by
  rw [h.inorder, Cursor.heading]
  cases c.reversed <;> rfl

/-- A cursor on an item that can be read yields it and what can be read behind it. -/
theorem drain_on_item (h : t.Holds s) {xs ys : List Item} {e : Item}
    (hsplit : s.itemsToward c.heading = xs ++ e :: ys)
    (hread : Visibility.admits see .read e.version = true) (hnext : c.next = some e.id)
    (hsingle : c.single = false) :
    c.drain see t = ((e :: ys).map (·.version)).filter (Visibility.admits see .read) := by
  have hfind : c.next =
      ((e :: ys).find? fun e => Visibility.admits see .read e.version).map (·.id) := by
    rw [hnext, List.find?_cons, hread]
    rfl
  exact h.drain_cursor hsplit hfind rfl hsingle

/-- A cursor on an item that can be read, or on none, yields what it should. -/
theorem yields (h : t.Holds s) (hsingle : c.single = false)
    (hnext : ∀ id ∈ c.next, ∃ e ∈ s.items, e.id = id ∧ Visibility.admits see .read e.version = true) :
    c.Yields see t := by
  rw [Cursor.Yields, h.walk_eq]
  cases hstart : c.next with
  | none => exact Or.inl ⟨rfl, Cursor.take_of_ended hstart _⟩
  | some id =>
    obtain ⟨e, he, rfl, hread⟩ := hnext id hstart
    obtain ⟨before, after, hsplit⟩ :=
      List.append_of_mem ((Shape.mem_items_toward c.heading).mpr he)
    exact Or.inr ⟨before, e, after, hsplit, rfl, h.drain_on_item hsplit hread hstart hsingle⟩

end Tree.Holds

namespace Index

variable {ix : Index} {see : Option Visibility} {t : Tree} {mode : ReadMode}

/-- A search goes by the first values of its key, one for each key column. -/
theorem find_node_take (key : List Value) (m : KeyMatch) (reversed : Bool) :
    ix.findNode see t (key.take ix.order.size) m mode reversed =
      ix.findNode see t key m mode reversed := by
  simp only [findNode, KeyOrder.compareNatural_take, funext (ix.order.compareKey_take key)]

/-- The general search for a whole key. -/
theorem find_whole_key (key : List Value) (m : KeyMatch) (reversed : Bool) :
    ix.find see t key key.length (.byKey m) reversed =
      ix.findNode see t key m .read reversed >>= fun next => .ok { next, reversed } := by
  rw [← find_node_take, ← KeyOrder.pick_range]
  rfl

theorem find_value_node_eq (v : Value) (m : KeyMatch) :
    ix.findValueNode see t v m = ix.findNode see t [v] m .read false := by
  have hcompare : ix.order.compareKey [v] =
      fun row => ix.order.leading.compare v (ix.order.leading.value row) :=
    funext fun row => ix.order.compareKey_value v row
  have hequal : (fun row => ix.order.compareNatural row [v] == .eq) =
      fun row => ix.order.leading.compare v (ix.order.leading.value row) == .eq := by
    funext row
    rw [Bool.eq_iff_iff, beq_iff_eq, beq_iff_eq, KeyOrder.compareNatural_value,
      KeyOrder.compareKey_value]
  rw [findNode, hcompare, hequal]
  rfl

theorem find_value_eq (v : Value) (m : Match) :
    ix.findValue see t v m = ix.find see t [v] 1 m false := by
  cases m with
  | maximum => rfl
  | byKey m =>
    change (ix.findValueNode see t v m >>= fun next => .ok ({ next } : Cursor)) = _
    rw [find_value_node_eq]
    exact (find_whole_key [v] m false).symm

theorem find_mapped_eq (row : Row) (map : List Nat) :
    ix.findMapped see t row map =
      ix.find see t (map.map row.column) map.length (.byKey .equal) false := by
  have hpick : KeyOrder.pick row map map.length = map.map row.column := by
    rw [KeyOrder.pick, List.take_length]
  have hwhole : ix.find see t (map.map row.column) (map.map row.column).length (.byKey .equal) false =
      _ := find_whole_key (map.map row.column) .equal false
  rw [List.length_map] at hwhole
  rw [hwhole, findMapped, hpick]
  rfl

theorem find_for_row_eq (row : Row) :
    ix.findForRow see t row =
      ix.find see t (ix.order.columns.map (·.value row)) ix.order.size (.byKey .equal) false := by
  have hmapped : ix.findMapped see t row ix.order.positions = _ :=
    find_mapped_eq row ix.order.positions
  have hsize : ix.order.positions.length = ix.order.size := List.length_map _
  have hvalues : ix.order.positions.map row.column = ix.order.columns.map (·.value row) :=
    List.map_map
  rw [hsize, hvalues] at hmapped
  rw [← hmapped, findForRow, findMapped, hsize]
  rfl

/-- A search finds an item that can be read, or nothing. -/
theorem find_node_admits {s : Shape} (h : t.Holds s) (key : List Value) (m : KeyMatch)
    (reversed : Bool) : ∃ found, ix.findNode see t key m mode reversed = .ok found ∧
      ∀ id ∈ found, ∃ e ∈ s.items, e.id = id ∧ Visibility.admits see mode e.version = true := by
  obtain ⟨found, hdescend, hfound⟩ := h.descend ix m reversed (ix.order.compareKey key)
  cases found with
  | none => exact ⟨none, Tree.Holds.search_of_none see hdescend, nofun⟩
  | some id =>
    obtain ⟨e, he, rfl⟩ := hfound id rfl
    obtain ⟨xs, ys, hsplit⟩ := List.append_of_mem
      ((Shape.mem_items_toward (if reversed then .left else .right)).mpr he)
    refine ⟨_, h.search_from see hdescend hsplit, fun id hid => ?_⟩
    obtain ⟨x, hx, hid, -, hread⟩ := exists_of_landing hid
    refine ⟨x, Tree.Holds.mem_of_split hsplit ?_, hid, hread⟩
    exact (List.Sublist.cons_cons e (List.takeWhile_sublist _)).subset hx

/-- Every general search of a tree opens a cursor that yields what can be read from there on. -/
theorem find_yields {s : Shape} (h : t.Holds s) (see : Option Visibility) (key : Row) (count : Nat)
    (m : Match) (reversed : Bool) :
    ∃ c, ix.find see t key count m reversed = .ok c ∧ c.Yields see t := by
  cases m with
  | maximum =>
    refine ⟨_, h.last_opens see, h.yields rfl fun id hid => ?_⟩
    obtain ⟨e, hfind, rfl⟩ := Option.map_eq_some_iff.mp hid
    have hmem := (Shape.mem_items_toward .left).mp (List.mem_of_find?_eq_some hfind)
    have hread := List.find?_some hfind
    exact ⟨e, hmem, rfl, hread⟩
  | byKey m =>
    let picked := KeyOrder.pick key ix.defaultMap count
    obtain ⟨found, hnode, hfound⟩ : ∃ found, ix.findNode see t picked m .read reversed = .ok found ∧ _ :=
      find_node_admits h picked m reversed
    have hopens : ix.find see t key count (.byKey m) reversed = .ok { next := found, reversed } := by
      simp only [find, picked] at hnode ⊢
      rw [hnode]
      rfl
    exact ⟨_, hopens, h.yields rfl hfound⟩

/-- Lookups are general searches, whatever the rows, the values and the tree are: by one value for the
leading column, for the key of a row, and for the values that a column map picks, of which the index
uses as many as it has key columns. In a tree that inserts and deletes have built every search opens a
cursor, on an item that can be read or at the end, and this yields what can be read from there on. -/
theorem lookups_agree (ix : Index) (see : Option Visibility) (t : Tree) :
    (∀ (v : Value) (m : Match), ix.findValue see t v m = ix.find see t [v] 1 m false) ∧
    (∀ row : Row, ix.findForRow see t row =
      ix.find see t (ix.order.columns.map (·.value row)) ix.order.size (.byKey .equal) false) ∧
    (∀ (row : Row) (map : List Nat), ix.findMapped see t row map =
      ix.find see t (map.map row.column) map.length (.byKey .equal) false) ∧
    (ix.Reaches t → ∀ (key : Row) (count : Nat) (m : Match),
      ∃ c, ix.find see t key count m false = .ok c ∧ c.Yields see t) := by
  refine ⟨find_value_eq, find_for_row_eq, find_mapped_eq, fun h key count m => ?_⟩
  obtain ⟨s, hs⟩ := h.holds
  exact find_yields hs see key count m false

/-- In a column of integers `1.5` ties with every integer, so these rows are in no order. Of those that
`1.5` selects the first one cannot be read. -/
theorem unordered_lookups_agree :
    let ix : Index := { sample with unique := false }
    let insert (v : Version) (t : Tree) : Tree := ((ix.insert none v).outcome t).2
    let half : Value := .double ⟨0x3ff8000000000000⟩
    let t := insert ⟨2, 3, [.bigint 4], 0⟩ (insert ⟨1, 2, [half], 0⟩
      (insert ⟨0, 1, [.bigint 5], 0⟩ {}))
    let see := some (Visibility.ofRowIds [1, 2] [] [])
    ix.Reaches t ∧ t.inorder.map (·.id) = [2, 0, 1] ∧
    ix.findValue see t half (.byKey .equal) = .ok { next := some 0 } ∧
    ix.findForRow see t [half, .null] = .ok { next := some 0 } ∧
    ix.findMapped see t [.bigint 5, half] [1, 7] = .ok { next := some 0 } ∧
    ∃ c, ix.find see t [half] 1 (.byKey .equal) false = .ok c ∧ c.Yields see t := by
  intro ix insert half t see
  have h₁ : ix.Reaches _ :=
    Reaches.empty.insert none ⟨0, 1, [.bigint 5], 0⟩ (Or.inr (by decide +kernel))
  have h₂ := h₁.insert none ⟨1, 2, [half], 0⟩ (Or.inr (by decide +kernel))
  have h₃ : ix.Reaches t := h₂.insert none ⟨2, 3, [.bigint 4], 0⟩ (Or.inr (by decide +kernel))
  obtain ⟨hvalue, hrow, hmapped, hopens⟩ := lookups_agree ix see t
  refine ⟨h₃, by decide +kernel, ?_, ?_, ?_, hopens h₃ [half] 1 (.byKey .equal)⟩
  · exact (hvalue half (.byKey .equal)).trans (by decide +kernel)
  · exact (hrow [half, .null]).trans (by decide +kernel)
  · exact (hmapped [.bigint 5, half] [1, 7]).trans (by decide +kernel)

end Index

end VersionedIndex
