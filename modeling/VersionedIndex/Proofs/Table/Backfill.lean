import VersionedIndex.Proofs.Table.Runs

namespace VersionedIndex

namespace Index

variable {ix : Index} {t t' : Tree} {stored : Multiset Version}

def KeysDiffer (ix : Index) (l : List Version) : Prop :=
  ∀ u ∈ l, ∀ v ∈ l, u ≠ v → ix.order.hasNull u.data = false →
    ix.order.compareRows u.data v.data ≠ .eq

instance (ix : Index) : DecidablePred ix.KeysDiffer :=
  fun l => inferInstanceAs (Decidable (∀ u ∈ l, ∀ v ∈ l, _))

namespace Contains

theorem distinct_iff (h : ix.Contains t stored) :
    ix.Distinct stored ↔ (ix.unique = true → ix.KeysDiffer t.versions) := by
  constructor
  · intro hdistinct hunique u hu v hv hne hnull hkey
    rw [h.mem_versions] at hu hv
    rw [KeyOrder.compareRows_eq_keyOrder (h.accepted hu) (h.accepted hv)] at hkey
    have hnull' := (KeyOrder.hasNull_eq_of_keyOrder hkey).symm.trans hnull
    exact hdistinct hunique u hu v hv hne hnull hnull' hkey
  · intro hdiffer hunique u hu v hv hne hnull _ hkey
    rw [← KeyOrder.compareRows_eq_keyOrder (h.accepted hu) (h.accepted hv)] at hkey
    exact hdiffer hunique u (h.mem_versions.mpr hu) v (h.mem_versions.mpr hv) hne hnull hkey

/-- Two trees of an index that contain the same versions list them in the same order. -/
theorem versions_eq (h : ix.Contains t stored) (h' : ix.Contains t' stored) :
    t.versions = t'.versions := by
  refine KeyOrder.eq_of_before h.sorted h'.sorted (fun v hv => ?_) fun v => ?_
  · exact h.accepted (h.mem_versions.mp hv)
  · rw [h.mem_versions, h'.mem_versions]

end Contains

end Index

namespace TableAction

open Table

variable {w w' x : Workspace} {ix ix' : Index} {n : Nat} {txn : Transaction} {v : Version}

theorem on_tree_eq_ok {α : Type} {act : TreeAction α} {a : α} :
    onStore (Store.onTree ix act) w = .ok a w' ↔
      ∃ t t', w.table.store.trees[ix.position]? = some t ∧ act t = .ok a t' ∧
        w' = w.withTrees (w.table.store.trees.set ix.position t') := by
  cases ht : w.table.store.trees[ix.position]? with
  | none =>
    have hmissing : w.table.store.tree ix = .error (.indexNotFound (.named ix.name)) := by
      simp only [Store.tree, ht]
    have hrun : Store.onTree ix act w.table.store = .error _ w.table.store :=
      Action.bind_of_error (Action.examine_of_error hmissing)
    simp only [onStore, Action.zoom, hrun]
    constructor
    · intro hok
      cases hok
    · rintro ⟨t, t', ht', -⟩
      cases ht'
  | some t =>
    have hfound : w.table.store.tree ix = .ok t := by simp only [Store.tree, ht]
    have hrun : Store.onTree ix act w.table.store = Action.zoom (fun _ => t)
        (fun s t => { s with trees := s.trees.set ix.position t }) act w.table.store :=
      Action.bind_of_ok (Action.examine_of_ok hfound)
    simp only [onStore, Action.zoom, hrun]
    cases hact : act t with
    | ok b t' =>
      constructor
      · intro hok
        cases hok
        exact ⟨t, t', rfl, hact, rfl⟩
      · rintro ⟨t₁, t₂, ht₁, hok, rfl⟩
        obtain rfl := Option.some.inj ht₁
        cases hact.symm.trans hok
        rfl
    | error e t' =>
      constructor
      · intro hok
        cases hok
      · rintro ⟨t₁, t₂, ht₁, hok, -⟩
        obtain rfl := Option.some.inj ht₁
        cases hact.symm.trans hok

/-- Where an insert goes through, the first index has taken the version and then the others have. -/
theorem insert_into_eq_ok {done rest : List Index}
    (hok : insertInto txn v done (ix :: rest) w = .ok () w') :
    ∃ mid, onStore (Store.onTree ix
        (ix.insert (some (txn.visibility w.manager w.headers)) v)) w = .ok () mid ∧
      insertInto txn v (done ++ [ix]) rest mid = .ok () w' := by
  have hsee : visibility txn w = .ok (txn.visibility w.manager w.headers) w := rfl
  simp only [insertInto] at hok
  rw [Action.bind_of_ok hsee] at hok
  obtain ⟨⟨⟩, mid, htry, hrest⟩ := Action.bind_eq_ok.mp hok
  refine ⟨mid, ?_, hrest⟩
  cases hrun : onStore (Store.onTree ix
      (ix.insert (some (txn.visibility w.manager w.headers)) v)) w with
  | ok _ _ => exact (Action.try_of_ok hrun).symm.trans htry
  | error e failed =>
    rw [Action.try_of_error hrun] at htry
    obtain ⟨_, _, -, hthrow⟩ := Action.bind_eq_ok.mp htry
    cases hthrow

/-- A delete that goes through has marked the version for a running transaction. -/
theorem delete_eq_ok {u : Unit} (hok : delete txn v w = .ok u w') :
    ∃ headers, w' = { w with headers } ∧ w.manager.isActive txn.xid = true ∧
      w.headers.markDeleted v txn.xid w.manager.isAborted = .ok headers := by
  rcases delete_outcome txn v w with ⟨err, hfail⟩ | ⟨headers, hdelete, hactive, hmark⟩
  · cases hfail.symm.trans hok
  · cases hdelete.symm.trans hok
    exact ⟨headers, rfl, hactive, hmark⟩

end TableAction

namespace Table

/-- The workspace `x` is `w` with only the first `n` indexes of the table and their trees. What the
indexes remember of scans may differ. -/
structure Workspace.Heads (n : Nat) (w x : Workspace) : Prop where
  name : x.table.name = w.table.name
  columns : x.table.columns = w.table.columns
  definitions : x.table.definitions = w.table.definitions.take n
  trees : x.table.store.trees = w.table.store.trees.take n
  nextRowId : x.table.nextRowId = w.table.nextRowId
  headers : x.headers = w.headers
  manager : x.manager = w.manager

namespace Workspace.Heads

open TableAction

variable {w w' x : Workspace} {ix ix' : Index} {n : Nat} {txn : Transaction} {v : Version}

theorem with_trees (h : Heads n w x) {ts ts' : List Tree} (htrees : ts' = ts.take n) :
    Heads n (w.withTrees ts) (x.withTrees ts') :=
  ⟨h.name, h.columns, h.definitions, htrees, h.nextRowId, h.headers, h.manager⟩

/-- One of the first indexes takes a version in both workspaces alike. -/
theorem on_tree_of_lt (h : Heads n w x) (hpos : ix.position < n)
    (hdef : ix'.definition = ix.definition) {see : Option Visibility}
    (hok : onStore (Store.onTree ix (ix.insert see v)) w = .ok () w') :
    ∃ x', onStore (Store.onTree ix' (ix'.insert see v)) x = .ok () x' ∧ Heads n w' x' := by
  obtain ⟨t, t', ht, hrun, rfl⟩ := on_tree_eq_ok.mp hok
  have hposition : ix'.definition.position = ix.definition.position := congrArg Index.position hdef
  change ix'.position = ix.position at hposition
  have hinsert : ix'.insert see v = ix.insert see v := by
    rw [← Index.insert_definition ix', hdef, Index.insert_definition]
  refine ⟨_, on_tree_eq_ok.mpr ⟨t, t', ?_, hinsert ▸ hrun, rfl⟩, h.with_trees ?_⟩
  · rw [h.trees, hposition, List.getElem?_take_of_lt hpos, ht]
  · rw [h.trees, hposition, List.take_set]

/-- What one of the other indexes takes does not show. -/
theorem on_tree_of_le (h : Heads n w x) (hpos : n ≤ ix.position) {act : TreeAction Unit}
    (hok : onStore (Store.onTree ix act) w = .ok () w') : Heads n w' x := by
  obtain ⟨t, t', -, -, rfl⟩ := on_tree_eq_ok.mp hok
  have htrees : x.table.store.trees = (w.table.store.trees.set ix.position t').take n := by
    rw [h.trees, List.take_set_of_le hpos]
  exact h.with_trees htrees

theorem insert_into_behind (h : Heads n w x) {done rest : List Index}
    (hpos : ∀ ix ∈ rest, n ≤ ix.position) (hok : insertInto txn v done rest w = .ok () w') :
    Heads n w' x := by
  induction rest generalizing done w with
  | nil =>
    cases hok
    exact h
  | cons ix rest ih =>
    rw [List.forall_mem_cons] at hpos
    obtain ⟨mid, htree, hrest⟩ := insert_into_eq_ok hok
    exact ih (h.on_tree_of_le hpos.1 htree) hpos.2 hrest

/-- A version that goes into all indexes goes into the first ones. -/
theorem insert_into (h : Heads n w x) {done done' ixs ixs' rest : List Index}
    (hdefs : ixs'.map Index.definition = ixs.map Index.definition)
    (hlt : ∀ ix ∈ ixs, ix.position < n) (hle : ∀ ix ∈ rest, n ≤ ix.position)
    (hok : insertInto txn v done (ixs ++ rest) w = .ok () w') :
    ∃ x', insertInto txn v done' ixs' x = .ok () x' ∧ Heads n w' x' := by
  induction ixs generalizing done done' ixs' w x with
  | nil =>
    rw [List.map_nil, List.map_eq_nil_iff] at hdefs
    rw [hdefs]
    exact ⟨x, rfl, h.insert_into_behind hle hok⟩
  | cons ix ixs ih =>
    obtain ⟨ix', ixs', rfl, hdef, hdefs⟩ := List.map_eq_cons_iff.mp hdefs
    rw [List.forall_mem_cons] at hlt
    obtain ⟨mid, htree, hrest⟩ := insert_into_eq_ok hok
    obtain ⟨mid', htree', hmid⟩ := h.on_tree_of_lt hlt.1 hdef htree
    obtain ⟨x', hrest', hx'⟩ : ∃ x', insertInto txn v (done' ++ [ix']) ixs' mid' = .ok () x' ∧
        Heads n w' x' := ih hmid hdefs hlt.2 hrest
    refine ⟨x', ?_, hx'⟩
    have hsee : visibility txn x = .ok (txn.visibility w.manager w.headers) x := by
      rw [← h.manager, ← h.headers]
      rfl
    simp only [insertInto]
    exact (Action.bind_of_ok hsee).trans ((Action.bind_of_ok (Action.try_of_ok htree')).trans hrest')

theorem insert (h : Heads n w x) (hn : 0 < n)
    (hplaced : ∀ {i : Nat} {ix : Index}, w.table.indexes[i]? = some ix → ix.position = i)
    {row : Row} (hok : TableAction.insert txn row w = .ok v w') :
    ∃ x', TableAction.insert txn row x = .ok v x' ∧ Heads n w' x' := by
  rcases insert_cases txn row w with ⟨err, hfail, -⟩ | ⟨hactive, hvalid, hindexed, hrun⟩
  · cases hfail.symm.trans hok
  rw [hrun] at hok
  obtain ⟨⟨⟩, mid, hinto, hpure⟩ := Action.bind_eq_ok.mp hok
  cases hpure
  have hissue : issue txn row x = issue txn row w := by
    rw [issue, issue, h.headers, h.nextRowId]
  have hissued : Heads n (issued txn row w) (issued txn row x) := by
    refine ⟨h.name, h.columns, h.definitions, h.trees, ?_, ?_, h.manager⟩
    · simp only [issued, h.nextRowId]
    · simp only [issued, h.headers, h.nextRowId]
  have hfirst : ∀ ix ∈ w.table.indexes.take n, ix.position < n := by
    intro ix hix
    obtain ⟨i, hi⟩ := List.mem_iff_getElem?.mp hix
    rw [List.getElem?_take] at hi
    split_ifs at hi with hlt
    rw [hplaced hi]
    exact hlt
  have hothers : ∀ ix ∈ w.table.indexes.drop n, n ≤ ix.position := by
    intro ix hix
    obtain ⟨i, hi⟩ := List.mem_iff_getElem?.mp hix
    rw [List.getElem?_drop] at hi
    rw [hplaced hi]
    exact Nat.le_add_right n i
  have hdefs : x.table.indexes.map Index.definition =
      (w.table.indexes.take n).map Index.definition := by
    rw [List.map_take]
    exact h.definitions
  rw [← List.take_append_drop n w.table.indexes] at hinto
  obtain ⟨x', hinto', hx'⟩ : ∃ x', insertInto txn (issue txn row w) [] x.table.indexes
      (issued txn row x) = .ok () x' ∧ Heads n w' x' :=
    hissued.insert_into hdefs hfirst hothers hinto
  have hactive' : x.manager.isActive txn.xid = true := by
    rw [h.manager]
    exact hactive
  have hvalid' : x.table.validate row = .ok () := by
    rw [Table.validate, h.columns]
    exact hvalid
  -- A table without indexes refuses to insert, so at least one index must be among the first.
  have hindexed' : x.table.indexes ≠ [] := by
    intro hempty
    have hlength := congrArg List.length hdefs
    rw [hempty, List.map_nil, List.length_map, List.length_take] at hlength
    have hpos := List.length_pos_iff.mpr hindexed
    simp only [List.length_nil] at hlength
    omega
  refine ⟨x', ?_, hx'⟩
  rw [insert_of_valid hactive' hvalid' hindexed', hissue]
  exact (Action.bind_of_ok hinto').trans rfl

theorem with_headers (h : Heads n w x) (headers : Headers) :
    Heads n { w with headers } { x with headers } :=
  ⟨h.name, h.columns, h.definitions, h.trees, h.nextRowId, rfl, h.manager⟩

theorem with_manager (h : Heads n w x) (manager : Manager) :
    Heads n { w with manager } { x with manager } :=
  ⟨h.name, h.columns, h.definitions, h.trees, h.nextRowId, h.headers, rfl⟩

theorem delete (h : Heads n w x) {u : Unit} (hok : TableAction.delete txn v w = .ok u w') :
    ∃ x', TableAction.delete txn v x = .ok u x' ∧ Heads n w' x' := by
  obtain ⟨headers, rfl, hactive, hmark⟩ := delete_eq_ok hok
  rw [← h.manager] at hactive
  rw [← h.headers, ← h.manager] at hmark
  exact ⟨{ x with headers }, delete_of_mark hactive hmark, h.with_headers headers⟩

theorem update (h : Heads n w x) (hn : 0 < n)
    (hplaced : ∀ {i : Nat} {ix : Index}, w.table.indexes[i]? = some ix → ix.position = i)
    {row : Row} {new : Version} (hok : TableAction.update txn v row w = .ok new w') :
    ∃ x', TableAction.update txn v row x = .ok new x' ∧ Heads n w' x' := by
  rcases update_cases txn v row w with ⟨err, hfail⟩ | ⟨headers, hactive, hmark, -, hundone⟩
  · cases hfail.symm.trans hok
  cases hinsert : TableAction.insert txn row { w with headers } with
  | error err mid => cases (hundone err mid hinsert).symm.trans hok
  | ok made mid =>
    have hsame := (update_of_mark row hactive hmark).1 made mid hinsert
    cases hsame.symm.trans hok
    obtain ⟨x', hinsert', hx'⟩ := (h.with_headers headers).insert hn hplaced hinsert
    rw [← h.manager] at hactive
    rw [← h.headers, ← h.manager] at hmark
    exact ⟨x', (update_of_mark row hactive hmark).1 new x' hinsert', hx'⟩

end Workspace.Heads

end Table

namespace Call

open Table

def writes : Call → Bool
  | begin | commit _ | abort _ | insert _ _ | delete _ _ | update _ _ _ => true
  | _ => false

def performAll : List Call → TableAction Unit
  | [] => pure ()
  | c :: calls => do
    discard c.perform
    performAll calls

variable {w w' x : Workspace} {c : Call} {calls : List Call} {n : Nat}

theorem perform_all_cons : performAll (c :: calls) w = .ok () w' ↔
    ∃ happened mid, c.perform w = .ok happened mid ∧ performAll calls mid = .ok () w' := by
  simp only [performAll]
  rw [Action.bind_eq_ok]
  constructor
  · rintro ⟨⟨⟩, mid, hdiscard, hrest⟩
    obtain ⟨happened, _, hperform, hpure⟩ := Action.bind_eq_ok.mp hdiscard
    cases hpure
    exact ⟨happened, mid, hperform, hrest⟩
  · rintro ⟨happened, mid, hperform, hrest⟩
    exact ⟨(), mid, Action.discard_of_ok hperform, hrest⟩

theorem on_manager_eq_ok {act : Manager → Except Error Manager} {u : Unit}
    (hok : onManager act w = .ok u w') :
    ∃ manager, act w.manager = .ok manager ∧ w' = { w with manager } := by
  cases hact : act w.manager with
  | error err => cases (on_manager_of_error hact).symm.trans hok
  | ok manager =>
    cases (on_manager_of_ok hact).symm.trans hok
    exact ⟨manager, rfl, rfl⟩

theorem on_manager_heads (h : w.Heads n x) {act : Manager → Except Error Manager} {u : Unit}
    (hok : onManager act w = .ok u w') : ∃ x', onManager act x = .ok u x' ∧ w'.Heads n x' := by
  obtain ⟨manager, hact, rfl⟩ := on_manager_eq_ok hok
  rw [← h.manager] at hact
  exact ⟨_, on_manager_of_ok hact, h.with_manager manager⟩

/-- A call that writes succeeds on the first indexes of a table where it succeeds on all of them, and
leaves the same of these. -/
theorem perform_heads (h : w.Heads n x) (hn : 0 < n)
    (hplaced : ∀ {i : Nat} {ix : Index}, w.table.indexes[i]? = some ix → ix.position = i)
    (hwrites : c.writes = true) {happened : History} (hok : c.perform w = .ok happened w') :
    ∃ x', c.perform x = .ok happened x' ∧ w'.Heads n x' := by
  have hthen {α : Type} {act : TableAction α} (told : α → History)
      (hact : ∀ {a : α} {mid : Workspace}, act w = .ok a mid →
        ∃ x', act x = .ok a x' ∧ mid.Heads n x')
      (hok : (do return told (← act) : TableAction History) w = .ok happened w') :
      ∃ x', (do return told (← act) : TableAction History) x = .ok happened x' ∧ w'.Heads n x' := by
    obtain ⟨a, mid, hrun, hpure⟩ := Action.bind_eq_ok.mp hok
    cases hpure
    obtain ⟨x', hrun', hx'⟩ := hact hrun
    exact ⟨x', Action.bind_of_ok hrun', hx'⟩
  cases c with
  | begin =>
    cases hok
    rw [← h.manager]
    exact ⟨_, rfl, h.with_manager _⟩
  | commit txn => exact hthen (fun _ => [.committed txn.xid]) (on_manager_heads h) hok
  | abort txn => exact hthen (fun _ => [.aborted txn.xid]) (on_manager_heads h) hok
  | insert txn row => exact hthen _ (fun hrun => h.insert hn hplaced hrun) hok
  | delete txn v => exact hthen (fun _ => [.deleted v txn.xid]) h.delete hok
  | update txn v row =>
    exact hthen (fun new => [.created new, .deleted v txn.xid])
      (fun hrun => h.update hn hplaced hrun) hok
  | _ => cases hwrites

end Call

namespace Table

/-- A table that has only grown: it holds `stored`, no slot of a tree has been released, and row ids have
been handed out to what is stored alone. -/
structure Workspace.Grown (w : Workspace) (stored : Multiset Version) : Prop where
  holds : w.table.Holds stored
  unmarked : w.headers.Unmarked
  slots : ∀ t ∈ w.table.store.trees, t.retired = #[] ∧ t.free = #[]
  next : w.table.nextRowId.toNat = stored.card + 1

namespace Workspace.Grown

open TableAction

variable {w w' x : Workspace} {stored : Multiset Version} {txn : Transaction} {v : Version}

theorem placed (h : w.Grown stored) {i : Nat} {ix : Index} (hix : w.table.indexes[i]? = some ix) :
    ix.position = i := by
  obtain ⟨_, -, hpos, -⟩ := h.holds.in_step.get hix
  exact hpos.trans (Nat.zero_add i)

/-- A table that has only grown has room as long as it holds less than there are node ids. -/
theorem has_room (h : w.Grown stored) (hfew : stored.card < 2 ^ 32) : w.table.HasRoom where
  trees := by
    intro t ht
    obtain ⟨_, ix, hcontains⟩ := h.holds.in_step.of_mem_trees ht
    obtain ⟨hretired, hfree⟩ := h.slots t ht
    exact hcontains.has_room hretired hfree hfew
  rows := by
    rw [h.next]
    omega

theorem with_headers (h : w.Grown stored) {headers : Headers} (hmarks : headers.Unmarked) :
    Grown { w with headers } stored :=
  ⟨h.holds, hmarks, h.slots, h.next⟩

theorem with_manager (h : w.Grown stored) (manager : Manager) : Grown { w with manager } stored :=
  ⟨h.holds, h.unmarked, h.slots, h.next⟩

theorem of_inserts (h : w.Grown stored) (hfew : stored.card < 2 ^ 32) {row : Row}
    (hinserts : Inserts txn row v w w' stored) : w'.Grown (v ::ₘ stored) := by
  obtain ⟨ts, hshape, hslots⟩ := hinserts.shape
  refine ⟨hinserts.holds, ?_, ?_, ?_⟩
  · rw [hshape]
    intro u
    rw [withTrees, deleter_issued txn row w u]
    exact h.unmarked u
  · rw [hshape]
    intro t' ht'
    obtain ⟨t, ht, hretired, hfree⟩ := hslots t' ht'
    obtain ⟨hnone, hempty⟩ := h.slots t ht
    refine ⟨hretired.trans hnone, ?_⟩
    rw [hfree, Tree.allocate, hempty]
    rfl
  · have hnext : (w.table.nextRowId + 1).toNat = stored.card + 2 := by
      rw [UInt64.toNat_add, h.next, UInt64.toNat_one, Nat.mod_eq_of_lt (by omega)]
    rw [hshape, Multiset.card_cons]
    exact hnext

/-- A call that writes and succeeds stores one version more or none, and the indexes stay. -/
theorem step (h : w.Grown stored) {c : Call} (hwrites : c.writes = true)
    (hfew : c.stores = true → stored.card < 2 ^ 32) {happened : History}
    (hok : c.perform w = .ok happened w') :
    ∃ stored', w'.Grown stored' ∧ stored'.card = stored.card + (if c.stores then 1 else 0) ∧
      w'.table.definitions = w.table.definitions := by
  have hfinish {act : Manager → Except Error Manager} {told : History}
      (hok : (do Call.onManager act; return told : TableAction History) w = .ok happened w') :
      w'.Grown stored ∧ w'.table.definitions = w.table.definitions := by
    obtain ⟨⟨⟩, mid, hrun, hpure⟩ := Action.bind_eq_ok.mp hok
    cases hpure
    obtain ⟨manager, -, rfl⟩ := Call.on_manager_eq_ok hrun
    exact ⟨h.with_manager manager, rfl⟩
  cases c with
  | begin =>
    cases hok
    exact ⟨stored, h.with_manager _, rfl, rfl⟩
  | commit txn =>
    obtain ⟨hgrown, hdefs⟩ := hfinish hok
    exact ⟨stored, hgrown, rfl, hdefs⟩
  | abort txn =>
    obtain ⟨hgrown, hdefs⟩ := hfinish hok
    exact ⟨stored, hgrown, rfl, hdefs⟩
  | insert txn row =>
    obtain ⟨v, mid, hrun, hpure⟩ := Action.bind_eq_ok.mp hok
    cases hpure
    rcases insert_outcome h.holds (h.has_room (hfew rfl)) txn row with
      ⟨err, failed, hfail, -⟩ | ⟨made, mid, hmade, hinserts⟩
    · cases hfail.symm.trans hrun
    · cases hmade.symm.trans hrun
      exact ⟨_, h.of_inserts (hfew rfl) hinserts, Multiset.card_cons _ _,
        congrArg (List.map Index.definition) hinserts.indexes⟩
  | delete txn v =>
    obtain ⟨⟨⟩, mid, hrun, hpure⟩ := Action.bind_eq_ok.mp hok
    cases hpure
    obtain ⟨headers, rfl, -, hmark⟩ := delete_eq_ok hrun
    exact ⟨stored, h.with_headers (h.unmarked.of_mark hmark), rfl, rfl⟩
  | update txn v row =>
    obtain ⟨new, mid, hrun, hpure⟩ := Action.bind_eq_ok.mp hok
    cases hpure
    rcases update_outcome h.holds (h.has_room (hfew rfl)) h.unmarked txn v row with
      ⟨err, failed, hfail, -⟩ | ⟨headers, made, mid, hmade, hmark, hinserts⟩
    · cases hfail.symm.trans hrun
    · cases hmade.symm.trans hrun
      have hgrown := h.with_headers (h.unmarked.of_mark hmark)
      exact ⟨_, hgrown.of_inserts (hfew rfl) hinserts, Multiset.card_cons _ _,
        congrArg (List.map Index.definition) hinserts.indexes⟩
  | _ => cases hwrites

/-- The first of several calls leaves room for what the others store. -/
theorem step_cons (h : w.Grown stored) {c : Call} {calls : List Call} (hwrites : c.writes = true)
    (hfew : stored.card + ((c :: calls).filter Call.stores).length ≤ 2 ^ 32)
    {happened : History} (hok : c.perform w = .ok happened w') :
    ∃ stored', w'.Grown stored' ∧ stored'.card + (calls.filter Call.stores).length ≤ 2 ^ 32 ∧
      w'.table.definitions = w.table.definitions := by
  have hlength : ((c :: calls).filter Call.stores).length =
      (if c.stores then 1 else 0) + (calls.filter Call.stores).length := by
    rw [← List.countP_eq_length_filter, ← List.countP_eq_length_filter, List.countP_cons,
      Nat.add_comm]
  rw [hlength] at hfew
  have hroom : c.stores = true → stored.card < 2 ^ 32 := by
    intro hstores
    rw [if_pos hstores] at hfew
    omega
  obtain ⟨stored', hgrown, hcard, hdefs⟩ := h.step hwrites hroom hok
  exact ⟨stored', hgrown, by omega, hdefs⟩

theorem perform_all (h : w.Grown stored) {calls : List Call}
    (hwrites : ∀ c ∈ calls, c.writes = true)
    (hfew : stored.card + (calls.filter Call.stores).length ≤ 2 ^ 32)
    (hok : Call.performAll calls w = .ok () w') :
    ∃ stored', w'.Grown stored' ∧ w'.table.definitions = w.table.definitions := by
  induction calls generalizing w stored with
  | nil =>
    cases hok
    exact ⟨stored, h, rfl⟩
  | cons c calls ih =>
    rw [List.forall_mem_cons] at hwrites
    obtain ⟨happened, mid, hperform, hrest⟩ := Call.perform_all_cons.mp hok
    obtain ⟨held, hmid, hfew', hdefs⟩ := h.step_cons hwrites.1 hfew hperform
    obtain ⟨stored', hgrown, hdefs'⟩ := ih hmid hwrites.2 hfew' hrest
    exact ⟨stored', hgrown, hdefs'.trans hdefs⟩

/-- Calls that write and succeed on all indexes of a table succeed on the first ones. -/
theorem perform_all_heads (h : w.Grown stored) {n : Nat} (hheads : w.Heads n x) (hn : 0 < n)
    {calls : List Call} (hwrites : ∀ c ∈ calls, c.writes = true)
    (hfew : stored.card + (calls.filter Call.stores).length ≤ 2 ^ 32)
    (hok : Call.performAll calls w = .ok () w') :
    ∃ x', Call.performAll calls x = .ok () x' ∧ w'.Heads n x' := by
  -- By induction on the calls. That indexes stand at their positions is known of a grown table.
  induction calls generalizing w x stored with
  | nil =>
    cases hok
    exact ⟨x, rfl, hheads⟩
  | cons c calls ih =>
    rw [List.forall_mem_cons] at hwrites
    obtain ⟨happened, mid, hperform, hrest⟩ := Call.perform_all_cons.mp hok
    obtain ⟨held, hmid, hfew', -⟩ := h.step_cons hwrites.1 hfew hperform
    obtain ⟨y, hperform', hy⟩ := Call.perform_heads hheads hn h.placed hwrites.1 hperform
    obtain ⟨x', hrest', hx'⟩ := ih hmid hy hwrites.2 hfew' hrest
    exact ⟨x', Call.perform_all_cons.mpr ⟨happened, y, hperform', hrest'⟩, hx'⟩

theorem start {name : String} {columns : List ColumnType} {config : StoreConfig} {table : Table}
    (hcreate : Table.create name columns config = .ok table) (manager : Manager) :
    Grown { table, headers := {}, manager } 0 := by
  refine ⟨(Run.start_holds hcreate).1, nofun, ?_, ?_⟩
  · rw [Run.start_table hcreate]
    exact List.forall_mem_nil _
  · rw [Run.start_table hcreate]
    rfl

/-- Adding an index leaves a table as grown as it was, and what was there stands first. -/
theorem of_adds (h : w.Grown stored) {ix : Index} (hadds : AddsIndex ix w w' stored) :
    w'.Grown stored ∧ w'.Heads w.table.indexes.length w := by
  obtain ⟨indexes, t, -, hretired, hfree, hshape⟩ := hadds.shape
  have hdefs : w.table.definitions.length = w.table.indexes.length := List.length_map _
  have htrees : w.table.store.trees.length = w.table.indexes.length := h.holds.in_step.length_eq
  refine ⟨⟨hadds.holds, ?_, ?_, ?_⟩, ?_, ?_, ?_, ?_, ?_, ?_, ?_⟩
  · rw [hadds.headers]
    exact h.unmarked
  · rw [hshape]
    exact List.forall_mem_append.mpr ⟨h.slots, List.forall_mem_singleton.mpr ⟨hretired, hfree⟩⟩
  · rw [hshape]
    exact h.next
  · rw [hshape]
  · rw [hshape]
  · rw [hadds.definitions, ← hdefs, List.take_left]
  · rw [hshape, ← htrees, List.take_left]
  · rw [hshape]
  · exact hadds.headers.symm
  · exact hadds.manager.symm

theorem adds_of_perform (h : w.Grown stored) {d : IndexDefinition} {config : IndexConfig}
    {happened : History} (hok : (Call.addIndex d config).perform w = .ok happened w') :
    ∃ ix, Index.create d w.table.indexes.length config = .ok ix ∧ AddsIndex ix w w' stored := by
  rcases add_index_outcome h.holds d config with
    ⟨err, failed, hfail, -⟩ | ⟨ix, made, hmade, hcreate, hadds⟩
  · have hperform : (Call.addIndex d config).perform w = .error err failed :=
      Action.bind_of_error (Action.discard_of_error hfail)
    cases hperform.symm.trans hok
  · have hperform : (Call.addIndex d config).perform w = .ok [] made :=
      Action.bind_of_ok (Action.discard_of_ok hmade)
    cases hperform.symm.trans hok
    exact ⟨ix, hcreate, hadds⟩

/-- A table with the same first indexes holds the same. -/
theorem stored_of_heads (h : w.Grown stored) {held : Multiset Version} (hx : x.Grown held) {n : Nat}
    (hheads : w.Heads n x) (hn : 0 < n) : held = stored := by
  have hfirst : x.table.versions = w.table.versions := by
    rw [Table.versions, Table.versions, hheads.trees, List.head?_take, if_neg hn.ne']
  rw [← hx.holds.coe_versions, ← h.holds.coe_versions, hfirst]

/-- An index that is among the definitions has a tree with everything that is stored, and it fits every
table with the same columns. -/
theorem of_definitions (h : w.Grown stored) {n : Nat} {ix : Index}
    (hdef : w.table.definitions[n]? = some ix.definition) :
    (∃ t, w.table.store.trees[n]? = some t ∧ ix.Contains t stored) ∧
    w.table.validateIndex ix = .ok () := by
  rw [Table.definitions, List.getElem?_map] at hdef
  obtain ⟨old, hold, hsame⟩ := Option.map_eq_some_iff.mp hdef
  obtain ⟨t, ht, -, hcontains⟩ := h.holds.in_step.get hold
  have hfits := h.holds.fits old (List.mem_of_getElem? hold)
  refine ⟨⟨t, ht, ?_⟩, ?_⟩
  · rw [← Index.Contains.definition_iff, ← hsame, Index.Contains.definition_iff]
    exact hcontains
  · change w.table.validateIndex ix.definition = .ok ()
    rw [← hsame]
    exact hfits

/-- Writing to a table with one index more and adding that index after the writing come to the same, as
long as the keys that it requires to be unique differ in all that is stored in the end. -/
theorem add_index_late (h : w.Grown stored) (hindexed : w.table.indexes ≠ [])
    {d : IndexDefinition} {config : IndexConfig} {happened : History} {mid : Workspace}
    (hadd : (Call.addIndex d config).perform w = .ok happened mid) {calls : List Call}
    (hwrites : ∀ c ∈ calls, c.writes = true)
    (hfew : stored.card + (calls.filter Call.stores).length ≤ 2 ^ 32)
    (hok : Call.performAll calls mid = .ok () w') :
    ∃ late ix t, Call.performAll calls w = .ok () late ∧
      Index.create d w.table.indexes.length config = .ok ix ∧
      w'.table.store.trees[w.table.indexes.length]? = some t ∧
      ((ix.unique = true → ix.KeysDiffer t.versions) → ∃ added t',
        addIndex d config late = .ok w.table.indexes.length added ∧
        added.table.store.trees[w.table.indexes.length]? = some t' ∧ t'.versions = t.versions) ∧
      (¬(ix.unique = true → ix.KeysDiffer t.versions) → ∃ refused,
        addIndex d config late = .error (.duplicateKey ix.name ix.constraint) refused ∧
        refused.table.definitions = late.table.definitions ∧
        refused.table.store = late.table.store) := by
  obtain ⟨ix, hcreate, hadds⟩ := h.adds_of_perform hadd
  obtain ⟨hmid, hheads⟩ := h.of_adds hadds
  have hn : 0 < w.table.indexes.length := List.length_pos_iff.mpr hindexed
  obtain ⟨late, hlate, hlast⟩ := hmid.perform_all_heads hheads hn hwrites hfew hok
  obtain ⟨all, hgrown, hdefs⟩ := hmid.perform_all hwrites hfew hok
  obtain ⟨held, hgrown', hdefs'⟩ := h.perform_all hwrites hfew hlate
  obtain rfl := hgrown.stored_of_heads hgrown' hlast hn
  -- Both tables hold the same in the end, and the index was filled with it in one of them.
  have hlength : late.table.indexes.length = w.table.indexes.length :=
    length_of_definitions hdefs'
  obtain ⟨⟨t, ht, hcontains⟩, hfits⟩ := hgrown.of_definitions (hdefs ▸ hadds.definition_last)
  have hvalid : late.table.validateIndex ix = .ok () := by
    rw [Table.validateIndex, hlast.columns, hlast.name]
    exact hfits
  have hlist := hcontains.distinct_iff
  rw [← hlength] at hcreate
  refine ⟨late, ix, t, hlate, hlength ▸ hcreate, ht, fun hdiffer => ?_, fun hshared => ?_⟩
  · rcases add_index_distinct hgrown'.holds hcreate hvalid with
      ⟨added, hdone, hadds'⟩ | ⟨hnot, -⟩
    · obtain ⟨hadded, -⟩ := hgrown'.of_adds hadds'
      obtain ⟨⟨t', ht', hcontains'⟩, -⟩ := hadded.of_definitions hadds'.definition_last
      rw [hlength] at hdone ht'
      exact ⟨added, t', hdone, ht', hcontains'.versions_eq hcontains⟩
    · exact absurd (hlist.mpr hdiffer) hnot
  · rcases add_index_distinct hgrown'.holds hcreate hvalid with
      ⟨_, -, hadds'⟩ | ⟨-, indexes, hsame, hrefused⟩
    · exact absurd (hlist.mp hadds'.distinct) hshared
    · exact ⟨_, hrefused, hsame, rfl⟩

end Workspace.Grown

/-- Calls that succeed on a new table with two indexes succeed on the table with the first one alone. If
the second index is added after them, it stands where it stood and lists the same versions in the same
order, unless it has to be unique and two of all these versions share a key without a NULL: then it is
refused and leaves no trace. -/
theorem second_index_added_late {name : String} {columns : List ColumnType} {config : StoreConfig}
    {table : Table} (hcreate : Table.create name columns config = .ok table) (manager : Manager)
    {d₁ d₂ : IndexDefinition} {config₁ config₂ : IndexConfig} {calls : List Call}
    (hwrites : ∀ c ∈ calls, c.writes = true) (hfew : (calls.filter Call.stores).length ≤ 2 ^ 32)
    {early : Workspace}
    (hearly : Call.performAll (.addIndex d₁ config₁ :: .addIndex d₂ config₂ :: calls)
      ⟨table, {}, manager⟩ = .ok () early) :
    ∃ late ix t, Call.performAll (.addIndex d₁ config₁ :: calls) ⟨table, {}, manager⟩ = .ok () late ∧
      Index.create d₂ 1 config₂ = .ok ix ∧ early.table.store.trees[1]? = some t ∧
      ((ix.unique = true → ix.KeysDiffer t.versions) → ∃ added t',
        TableAction.addIndex d₂ config₂ late = .ok 1 added ∧
        added.table.store.trees[1]? = some t' ∧ t'.versions = t.versions) ∧
      (¬(ix.unique = true → ix.KeysDiffer t.versions) → ∃ refused,
        TableAction.addIndex d₂ config₂ late =
          .error (.duplicateKey ix.name ix.constraint) refused ∧
        refused.table.definitions = late.table.definitions ∧
        refused.table.store = late.table.store) := by
  obtain ⟨told, one, hfirst, hrest⟩ := Call.perform_all_cons.mp hearly
  obtain ⟨_, two, hsecond, hcalls⟩ := Call.perform_all_cons.mp hrest
  have hnew := Workspace.Grown.start hcreate manager
  obtain ⟨ix₁, -, hadds⟩ := hnew.adds_of_perform hfirst
  obtain ⟨hone, -⟩ := hnew.of_adds hadds
  have hcount : one.table.indexes.length = 1 := by
    have hdefs := congrArg List.length hadds.definitions
    rw [Run.start_table hcreate] at hdefs
    rwa [Table.definitions, List.length_map] at hdefs
  obtain ⟨late, ix, t, hlate, hmade, ht, hadded, hrefused⟩ := hone.add_index_late
    (List.length_pos_iff.mp (hcount ▸ Nat.one_pos)) hsecond hwrites
    (by rwa [Multiset.card_zero, Nat.zero_add]) hcalls
  rw [hcount] at hmade ht hadded
  exact ⟨late, ix, t, Call.perform_all_cons.mpr ⟨told, one, hfirst, hlate⟩, hmade, ht, hadded,
    hrefused⟩

def rewriting : List Call := [
  .begin,
  .insert ⟨1, []⟩ [.bigint 5],
  .commit ⟨1, []⟩,
  .begin,
  .update ⟨2, []⟩ ⟨0, 1, [.bigint 5], 1⟩ [.bigint 5],
  .commit ⟨2, []⟩]

def rewritingIndex (unique : Bool) : IndexDefinition :=
  { IndexDefinition.plain "keys" 2 [0] [.bigint] with unique }

/-- The index of the rewritten key does not tell the two versions apart. -/
theorem rewriting_index_created {unique : Bool} {ix : Index}
    (hcreate : Index.create (rewritingIndex unique) 1 {} = .ok ix) :
    ix.unique = unique ∧ (ix.name = "keys" ∧ ix.constraint = none) ∧
      ¬ix.KeysDiffer [⟨0, 1, [.bigint 5], 1⟩, ⟨1, 2, [.bigint 5], 2⟩] := by
  cases hcreate
  refine ⟨rfl, ⟨rfl, rfl⟩, ?_⟩
  cases unique <;> decide +kernel

/-- From the start, the index of the rewritten key takes both versions in any case. -/
theorem rewriting_index_early (unique : Bool) :
    let first := Call.addIndex (IndexDefinition.plain "up" 1 [0] [.bigint]) {}
    let second := Call.addIndex (rewritingIndex unique) {}
    ∃ early, Call.performAll (first :: second :: rewriting) Run.sampleStart.work = .ok () early ∧
      early.table.store.trees[1]?.map Tree.versions =
        some [⟨0, 1, [.bigint 5], 1⟩, ⟨1, 2, [.bigint 5], 2⟩] := by
  intro first second
  have hrun : let run := (Call.performAll (first :: second :: rewriting)).outcome Run.sampleStart.work
      run.1 = .ok () ∧ run.2.table.store.trees[1]?.map Tree.versions =
        some [⟨0, 1, [.bigint 5], 1⟩, ⟨1, 2, [.bigint 5], 2⟩] := by
    cases unique <;> decide +kernel
  exact ⟨_, Action.ok_of_outcome hrun.1, hrun.2⟩

/-- Added late, the index of the rewritten key lists both versions if it need not be unique, and is
refused otherwise. -/
theorem rewriting_index_added_late :
    let first := Call.addIndex (IndexDefinition.plain "up" 1 [0] [.bigint]) {}
    let both : List Version := [⟨0, 1, [.bigint 5], 1⟩, ⟨1, 2, [.bigint 5], 2⟩]
    ∃ late added t refused, Call.performAll (first :: rewriting) Run.sampleStart.work = .ok () late ∧
      TableAction.addIndex (rewritingIndex false) {} late = .ok 1 added ∧
      added.table.store.trees[1]? = some t ∧ t.versions = both ∧
      TableAction.addIndex (rewritingIndex true) {} late =
        .error (.duplicateKey "keys" none) refused := by
  intro first both
  have hcreate : Table.create "sample" [.bigint] {} = .ok Run.sampleStart.work.table := by
    decide +kernel
  have hwrites : ∀ c ∈ rewriting, c.writes = true := by decide
  have hfew : (rewriting.filter Call.stores).length ≤ 2 ^ 32 := by decide
  obtain ⟨early, hplain, hlisted⟩ := rewriting_index_early false
  obtain ⟨late, ix, t, hlate, hix, ht, hadded, -⟩ :=
    second_index_added_late hcreate {} hwrites hfew hplain
  obtain ⟨early', hunique, hlisted'⟩ := rewriting_index_early true
  obtain ⟨late', ix', t', hlate', hix', ht', -, hrefused⟩ :=
    second_index_added_late hcreate {} hwrites hfew hunique
  obtain ⟨-, rfl⟩ := EStateM.Result.ok.inj (hlate.symm.trans hlate')
  rw [ht, Option.map_some, Option.some.injEq] at hlisted
  rw [ht', Option.map_some, Option.some.injEq] at hlisted'
  obtain ⟨hneed, -, -⟩ := rewriting_index_created hix
  obtain ⟨hneed', hname, hsame⟩ := rewriting_index_created hix'
  obtain ⟨added, t₂, hadd, ht₂, hversions⟩ := hadded fun hneeds => by
    rw [hneed] at hneeds
    cases hneeds
  obtain ⟨refused, hrefuse, -⟩ := hrefused fun hdiffer => by
    rw [hlisted'] at hdiffer
    exact hsame (hdiffer hneed')
  rw [hname.1, hname.2] at hrefuse
  exact ⟨late, added, t₂, refused, hlate, hadd, ht₂, hversions.trans hlisted, hrefuse⟩

/-- When an index has to be unique it matters when it is added: all calls succeed with the index, and
without it, but then it cannot be added any more. -/
theorem rewriting_index_refused_late :
    let start := Run.sampleStart.work
    let first := Call.addIndex (IndexDefinition.plain "up" 1 [0] [.bigint]) {}
    let second := Call.addIndex (rewritingIndex true) {}
    (∀ c ∈ rewriting, c.writes = true) ∧
    ((Call.performAll (first :: second :: rewriting)).outcome start).1 = .ok () ∧
    ((Call.performAll (first :: rewriting)).outcome start).1 = .ok () ∧
    ((Call.performAll (first :: (rewriting ++ [second]))).outcome start).1 =
      .error (.duplicateKey "keys" none) := by
  decide +kernel

end Table

end VersionedIndex
