import VersionedIndex.Proofs.Index.Landing
import VersionedIndex.Proofs.Index.Lookups
import VersionedIndex.Proofs.Table.Runs

namespace VersionedIndex

/-- Taking as long as a test holds is filtering by it when whatever stands before an element with the
test has it too. -/
theorem takeWhile_eq_filter {α : Type} {p : α → Bool} {l : List α}
    (h : l.Pairwise fun a b => p b = true → p a = true) : l.takeWhile p = l.filter p := by
  induction l with
  | nil => rfl
  | cons a l ih =>
    obtain ⟨hfirst, hrest⟩ := List.pairwise_cons.mp h
    rw [List.takeWhile_cons, List.filter_cons]
    cases ha : p a with
    | true => rw [if_pos rfl, if_pos rfl, ih hrest]
    | false =>
      have hnone : l.filter p = [] :=
        List.filter_eq_nil_iff.mpr fun b hb hp => Bool.false_ne_true (ha.symm.trans (hfirst b hb hp))
      rw [if_neg Bool.false_ne_true, if_neg Bool.false_ne_true, hnone]

namespace KeyOrder

def agrees (o : KeyOrder) (key : List Value) (row : Row) : Bool :=
  (o.columns.zip key).all fun p => p.1.type.compare p.2 (p.1.value row) == .eq

theorem compareKey_eq_iff (o : KeyOrder) (key : List Value) (row : Row) :
    o.compareKey key row = .eq ↔ o.agrees key row = true := by
  rw [compareKey, agrees]
  generalize o.columns = cs
  induction cs generalizing key with
  | nil => exact iff_of_true rfl rfl
  | cons c cs ih =>
    cases key with
    | nil => exact iff_of_true rfl rfl
    | cons v key =>
      rw [KeyColumn.compareKey, Ordering.then_eq_eq, KeyColumn.compare_eq_iff_natural, ih,
        List.zip_cons_cons, List.all_cons, Bool.and_eq_true, beq_iff_eq]

theorem compareKey_beq (o : KeyOrder) (key : List Value) (row : Row) :
    (o.compareKey key row == .eq) = o.agrees key row := by
  rw [Bool.eq_iff_iff, beq_iff_eq, compareKey_eq_iff]

end KeyOrder

namespace Index.Sorts

variable {ix : Index} {t : Tree} {s : Shape} {key : List Value}

/-- From a row with the key on, whatever stands before such a row is one. -/
theorem agreeing_side_by_side (h : ix.Sorts t s) (hkey : ix.order.Admits key)
    {before after : List Item} {e : Item} (hitems : s.items = before ++ e :: after)
    (he : ix.order.agrees key e.version.data = true) :
    ((e :: after).map (·.version)).Pairwise fun a b =>
      ix.order.agrees key b.data = true → ix.order.agrees key a.data = true := by
  have hfalls := hitems ▸ h.key_falls hkey
  obtain ⟨hfirst, hrest⟩ := List.pairwise_cons.mp (List.pairwise_append.mp hfalls).2.1
  rw [← KeyOrder.compareKey_eq_iff] at he
  rw [List.map_cons, List.pairwise_cons, List.pairwise_map]
  simp only [← KeyOrder.compareKey_eq_iff]
  refine ⟨fun _ _ _ => he, hrest.imp_of_mem fun {a b} ha _ hab hb => ?_⟩
  -- The row lies between two with the key, so it is neither before them nor behind them.
  obtain ⟨-, hnotBefore⟩ := hab
  have hnotBehind := (hfirst a ha).1
  rw [he] at hnotBehind
  rw [hb] at hnotBefore
  cases horder : ix.order.compareKey key a.version.data with
  | eq => rfl
  | lt => cases hnotBefore horder
  | gt => cases hnotBehind horder

/-- A search for a key opens a cursor, and what this yields as long as the key stays the same is all
that can be read with the key. -/
theorem find_equal (h : ix.Sorts t s) (see : Option Visibility) (hkey : ix.order.Admits key) :
    ∃ c, ix.find see t key key.length (.byKey .equal) false = .ok c ∧
      (c.drain see t).takeWhile (fun v => ix.order.agrees key v.data) =
        (t.versions.filter (Visibility.admits see .read)).filter
          fun v => ix.order.agrees key v.data := by
  let wanted (e : Item) : Bool :=
    ix.order.agrees key e.version.data && Visibility.admits see .read e.version
  have hlands : ix.findNode see t key .equal .read false =
      .ok ((s.items.find? wanted).map (·.id)) := by
    have hselects : (fun row => KeyMatch.equal.selects (ix.order.compareKey key row)) =
        ix.order.agrees key := funext (ix.order.compareKey_beq key)
    rw [h.find_node_lands see .equal .read false hkey nofun nofun, hselects]
    rfl
  have hopens : ix.find see t key key.length (.byKey .equal) false =
      .ok { next := (s.items.find? wanted).map (·.id) } := by
    rw [find_whole_key, hlands]
    rfl
  have hnone {l : List Item} (hl : ∀ x ∈ l, ¬ wanted x = true) : (l.map (·.version)).filter (fun v =>
      ix.order.agrees key v.data && Visibility.admits see .read v) = [] := by
    rw [List.filter_eq_nil_iff, List.forall_mem_map]
    exact hl
  refine ⟨_, hopens, ?_⟩
  rw [h.holds.versions_eq, List.filter_filter]
  cases hfind : s.items.find? wanted with
  | none =>
    rw [hnone (List.find?_eq_none.mp hfind), Cursor.drain, Cursor.take_of_ended rfl]
    rfl
  | some e =>
    obtain ⟨hwanted, before, after, hitems, hbefore⟩ := List.find?_eq_some_iff_append.mp hfind
    obtain ⟨hagrees, hread⟩ := Bool.and_eq_true_iff.mp hwanted
    have hdrain : Cursor.drain { next := some e.id } see t = _ :=
      h.holds.drain_on_item hitems hread rfl rfl
    have hothers := hnone fun x hx hw => by
      have hnot := hbefore x hx
      rw [hw] at hnot
      cases hnot
    rw [Option.map_some, hdrain, takeWhile_eq_filter, List.filter_filter, hitems,
      List.map_append, List.filter_append, hothers, List.nil_append]
    exact (h.agreeing_side_by_side hkey hitems hagrees).filter _

end Index.Sorts

namespace Table

/-- The tables that calls bring about, where what is stored finds room (`HasRoom`: slots in all trees
and a next row id). What the calls go by beside the table may have changed in between: the manager in
any way, and the headers in any way in which no version is stamped with the id that stands for not
being deleted. -/
inductive Arises : Table → Prop
  | create {name : String} {columns : List ColumnType} {config : StoreConfig} {tb : Table} :
    Table.create name columns config = .ok tb → Arises tb
  | call {tb : Table} (c : Call) (headers : Headers) (manager : Manager) :
    Arises tb → headers.Unmarked → (c.stores = true → tb.HasRoom) →
    Arises (Run.step ⟨⟨tb, headers, manager⟩, []⟩ c).work.table

theorem Arises.holds {tb : Table} (h : Arises tb) : ∃ stored, tb.Holds stored := by
  induction h with
  | create hcreate => exact ⟨0, (Run.start_holds hcreate).1⟩
  | @call tb c headers manager _ hmarks hroom ih =>
    obtain ⟨stored, hholds⟩ := ih
    obtain ⟨past, hallows⟩ := Run.exists_allows ⟨tb, headers, manager⟩ c hroom
    obtain ⟨stored', hholds', -⟩ :=
      Run.step_comes (r := ⟨⟨tb, headers, manager⟩, past⟩) hholds hmarks hallows
    rw [Run.work_step _ [] past c]
    exact ⟨stored', hholds'⟩

/-- The table of a run is one of them. -/
theorem Arises.of_attains {r : Run} (h : Run.Attains HasRoom r) : Arises r.work.table := by
  induction h with
  | start hcreate => exact .create hcreate
  | @step r c hattains hroom ih =>
    obtain ⟨-, -, hmarks⟩ := hattains.holds
    have hcall := ih.call c r.work.headers r.work.manager hmarks hroom
    rwa [Run.work_step r.work [] r.history c] at hcall

end Table

namespace TableAction

open Table

/-- A find yields the rows of a scan that have the key, and changes nothing. -/
theorem find_of_holds {w : Workspace} {stored : Multiset Version} (h : w.table.Holds stored)
    (txn : Transaction) {position : Nat} {ix : Index} (hix : w.table.indexes[position]? = some ix)
    {key : List Value} (hkey : ix.order.Admits key) :
    ∃ rows, ((scan txn position).outcome w).1 = .ok rows ∧ (rows.map (·.id)).Nodup ∧
      find txn position key w = .ok (rows.filter fun v => ix.order.agrees key v.data) w := by
  let see := txn.visibility w.manager w.headers
  have hsee : visibility txn w = .ok see w := rfl
  obtain ⟨t, ht, hcontains, hscan⟩ := scan_of_holds h txn hix
  obtain ⟨s, hs, -⟩ := id hcontains
  obtain ⟨c, hopens, hfind⟩ := hs.sorts.find_equal (some see) hkey
  refine ⟨_, hscan, ?_, ?_⟩
  · have hnodup := hcontains.nodup_ids
    rw [← hcontains.coe_versions, Multiset.map_coe, Multiset.coe_nodup] at hnodup
    exact hnodup.sublist (List.filter_sublist.map _)
  · obtain ⟨t', ht', hpos, -⟩ := h.in_step.get hix
    obtain rfl := Option.some.inj (ht.symm.trans ht')
    obtain rfl : ix.position = position := hpos.trans (Nat.zero_add position)
    have hcursor : onTable (fun _ =>
        ix.find (some see) t key key.length (.byKey .equal) false) w = .ok c w :=
      Action.examine_of_ok hopens
    have htest : (fun v : Version => ix.order.compareKey
        (KeyOrder.pick key ix.defaultMap key.length) v.data == .eq) =
        fun v => ix.order.agrees key v.data := by
      funext v
      rw [Index.defaultMap, KeyOrder.pick_range, KeyOrder.compareKey_take, KeyOrder.compareKey_beq]
    simp only [find]
    rw [Action.bind_of_ok (index_of_some hix), Action.bind_of_ok hsee,
      Action.bind_of_ok (tree_of_some ht), Action.bind_of_ok hcursor, htest, hfind]
    rfl

end TableAction

namespace Table

/-- Finding is a filtered scan. In every table that calls bring about, for every transaction and
whatever the manager and the headers are, a scan of an index yields rows, each once, and a find by a key
of any length yields those of them whose values are equal to it, in the same order. The key may hold
any values but a double for a column of integers. -/
theorem Arises.find_filters {w : Workspace} (h : Arises w.table) (txn : Transaction)
    {position : Nat} {ix : Index} (hix : w.table.index position = .ok ix) {key : List Value}
    (hkey : ix.order.Admits key) :
    ∃ rows, ((TableAction.scan txn position).outcome w).1 = .ok rows ∧ (rows.map (·.id)).Nodup ∧
      TableAction.find txn position key w =
        .ok (rows.filter fun v => ix.order.agrees key v.data) w := by
  obtain ⟨stored, hholds⟩ := h.holds
  have hindex : w.table.indexes[position]? = some ix := by
    simp only [index] at hix
    split at hix
    · next hget => rw [hget, Except.ok.inj hix]
    · cases hix
  exact TableAction.find_of_holds hholds txn hindex hkey

def mingled : Run := Run.sampleStart.after [
  .addIndex { IndexDefinition.plain "keys" 1 [0] [.bigint] with
    descending := [true], nullsLast := [true] } {},
  .begin, .insert ⟨1, []⟩ [.bigint 5], .insert ⟨1, []⟩ [.bigint 7], .insert ⟨1, []⟩ [.bigint 5],
  .insert ⟨1, []⟩ [.null], .commit ⟨1, []⟩,
  .begin, .begin, .insert ⟨2, []⟩ [.bigint 5], .insert ⟨3, [2]⟩ [.bigint 5],
  .delete ⟨3, [2]⟩ ⟨0, 1, [.bigint 5], 1⟩]

/-- Of four rows with the key the transaction has deleted the first and cannot read the third. The
second value of the key is for no column. -/
theorem mingled_find_filters :
    let key : List Value := [.bigint 5, .varchar "x"]
    Arises mingled.work.table ∧
    ∃ ix, mingled.work.table.index 0 = .ok ix ∧ ix.order.Admits key ∧
    ∃ rows, ((TableAction.scan ⟨3, [2]⟩ 0).outcome mingled.work).1 = .ok rows ∧
      rows.map (·.id) = [2, 3, 6, 4] ∧
      TableAction.find ⟨3, [2]⟩ 0 key mingled.work =
        .ok [⟨2, 3, [.bigint 5], 1⟩, ⟨5, 6, [.bigint 5], 3⟩] mingled.work := by
  intro key
  have hreaches : Run.Reaches mingled := Run.sample_start_reaches.after (by decide +kernel)
  have harises : Arises mingled.work.table := .of_attains hreaches.attains
  let ix : Index := { Index.sample with
    name := "keys", order := ⟨⟨0, .bigint, true, true⟩, []⟩, unique := false }
  have hix : mingled.work.table.index 0 = .ok ix := by decide +kernel
  have hkey : ix.order.Admits key := by
    intro p hp
    obtain rfl : p = (⟨0, .bigint, true, true⟩, .bigint 5) := List.mem_singleton.mp hp
    exact fun _ d => nofun
  have hscan : ((TableAction.scan ⟨3, [2]⟩ 0).outcome mingled.work).1 =
      .ok [⟨1, 2, [.bigint 7], 1⟩, ⟨2, 3, [.bigint 5], 1⟩, ⟨5, 6, [.bigint 5], 3⟩,
        ⟨3, 4, [.null], 1⟩] := by decide +kernel
  obtain ⟨rows, hrows, -, hfind⟩ := harises.find_filters ⟨3, [2]⟩ hix hkey
  obtain rfl := Except.ok.inj (hscan.symm.trans hrows)
  exact ⟨harises, ix, hix, hkey, _, hscan, rfl, hfind⟩

end Table

end VersionedIndex
