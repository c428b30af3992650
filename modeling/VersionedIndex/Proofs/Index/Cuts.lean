import VersionedIndex.Proofs.Index.Landing

namespace VersionedIndex

open Std

/-- On the scale of less, equal and greater, places rise to what is not less. -/
theorem Rises.isGE {a b : Ordering} (h : Rises a b) : (compare b a).isGE := by
  obtain ⟨hgt, hlt⟩ := h
  cases a with
  | lt => cases b <;> rfl
  | eq =>
    cases b with
    | lt => cases hlt rfl
    | eq | gt => rfl
  | gt =>
    obtain rfl := hgt rfl
    rfl

def Cuts (place : Row → Ordering) (rows : List Row) : Prop :=
  rows = rows.filter (place · == .gt) ++ rows.filter (place · == .eq) ++ rows.filter (place · == .lt)

/-- A mark that falls back along a list cuts it. -/
theorem Cuts.of_falls {place : Row → Ordering} {rows : List Row}
    (h : rows.Pairwise fun a b => Rises (place b) (place a)) : Cuts place rows := by
  induction rows with
  | nil => rfl
  | cons row rows ih =>
    obtain ⟨hrow, hrows⟩ := List.pairwise_cons.mp h
    have hrest : rows = _ := ih hrows
    have hgt (hne : place row ≠ .gt) : rows.filter (place · == .gt) = [] :=
      List.filter_eq_nil_iff.mpr fun b hb hb' => hne ((hrow b hb).1 (beq_iff_eq.mp hb'))
    have heq (hlt : place row = .lt) : rows.filter (place · == .eq) = [] :=
      List.filter_eq_nil_iff.mpr fun b hb hb' => by
        cases (beq_iff_eq.mp hb').symm.trans ((hrow b hb).2 hlt)
    rw [Cuts]
    cases hplace : place row with
    | gt => simpa [hplace] using hrest
    | eq =>
      have hnone := hgt (by rw [hplace]; nofun)
      rw [hnone] at hrest
      simpa [hplace, hnone] using hrest
    | lt =>
      have hnone := hgt (by rw [hplace]; nofun)
      rw [hnone, heq hplace] at hrest
      simpa [hplace, hnone, heq hplace] using hrest

namespace KeyOrder

variable {o : KeyOrder} {rows : List Row}

/-- Rows each of which is followed by one that is not before it are in order as a whole. -/
theorem rowOrder_sorted (hsuits : ∀ row ∈ rows, o.Suits row)
    (hsorted : rows.IsChain fun a b => (o.compareRows a b).isLE) :
    rows.Pairwise fun a b => (KeyColumn.rowOrder o.columns a b).isLE := by
  let follows (a b : Row) : Prop := (KeyColumn.rowOrder o.columns a b).isLE
  have : Trans follows follows follows := ⟨TransCmp.isLE_trans⟩
  have hchain : rows.IsChain follows := by
    refine hsorted.imp_of_mem_imp fun a b ha hb hle => ?_
    rwa [compareRows, KeyColumn.compareRows_eq_order (hsuits a ha) (hsuits b hb)] at hle
  exact List.isChain_iff_pairwise.mp hchain

/-- A search key falls back along rows in index order, and so it cuts any list of such rows and the
rows of any tree. Its values are of any kind, but no double is for a column of integers; the rows suit
the key, as all do whose values are missing or accepted. Whether the key ties with a row does not depend
on the flags, so the natural order of the types tells it as well. -/
theorem search_cuts (o : KeyOrder) {source : Row} {map : List Nat} {count : Nat}
    (hkey : o.Admits (pick source map count)) :
    let place := o.compareKey (pick source map count)
    (∀ a b, o.Suits a → o.Suits b → (o.compareRows a b).isLE → (compare (place a) (place b)).isGE) ∧
    (∀ rows : List Row, (∀ row ∈ rows, o.Suits row) →
      rows.IsChain (fun a b => (o.compareRows a b).isLE) → Cuts place rows) ∧
    (∀ (ix : Index) (t : Tree), ix.order = o → ix.Arises t →
      Cuts place (t.versions.map (·.data))) ∧
    ∀ row, o.Suits row →
      (place row = .eq ↔ o.compareNatural row (pick source map count) = .eq) := by
  intro place
  have hfalls {a b : Row} (ha : o.Suits a) (hb : o.Suits b)
      (hle : (KeyColumn.rowOrder o.columns a b).isLE) : Rises (place b) (place a) :=
    KeyColumn.compareKey_falls hkey ha hb hle
  refine ⟨?_, ?_, ?_, ?_⟩
  · intro a b ha hb hle
    rw [compareRows, KeyColumn.compareRows_eq_order ha hb] at hle
    exact (hfalls ha hb hle).isGE
  · intro rows hsuits hsorted
    exact .of_falls ((rowOrder_sorted hsuits hsorted).imp_of_mem
      fun ha hb => hfalls (hsuits _ ha) (hsuits _ hb))
  · rintro ix t rfl harises
    obtain ⟨s, hs⟩ := harises.sorts
    rw [Tree.versions, hs.holds.inorder, List.map_map]
    exact .of_falls (List.pairwise_map.mpr (hs.key_falls hkey))
  · exact fun row hrow => (KeyColumn.compareNatural_eq_iff hkey hrow).symm

/-- The first column of the key descends with NULLs last. The search key has that column only, the
second one of its row. -/
theorem ranked_search_cuts :
    let o := Index.ranked.order
    let source : Row := [.date 3, .bigint 5]
    let place := o.compareKey (pick source [1, 0] 1)
    let rows : List Row := [[.bigint 7, .varchar "b"], [.bigint 5], [.bigint 5, .varchar "a"],
      [.bigint 5, .varchar "c"], [.null, .varchar "a"]]
    let insert (v : Version) (t : Tree) : Tree := ((Index.ranked.insert none v).outcome t).2
    let t := insert ⟨1, 2, [.bigint 7], 0⟩ (insert ⟨0, 1, [.bigint 5, .varchar "b"], 0⟩ {})
    o.Admits (pick source [1, 0] 1) ∧ Cuts place rows ∧ rows.map place = [.gt, .eq, .eq, .eq, .lt] ∧
    Cuts place (t.versions.map (·.data)) ∧ (t.versions.map (·.data)).map place = [.gt, .eq] ∧
    (compare (place [.bigint 7]) (place [.null])).isGE ∧
    o.compareNatural [.bigint 5] (pick source [1, 0] 1) = .eq := by
  intro o source place rows insert t
  have hsuits {row : Row} (h : o.Accepts row) : o.Suits row := h.suits
  have hkey : o.Admits (pick source [1, 0] 1) := by
    intro p hp
    obtain rfl : p = (⟨0, .bigint, true, true⟩, .bigint 5) := List.mem_singleton.mp hp
    exact fun _ d => nofun
  have harises : Index.ranked.Arises t :=
    (Index.Arises.empty.insert none ⟨0, 1, [.bigint 5, .varchar "b"], 0⟩
      (Or.inr (by decide +kernel)) (hsuits (by decide))).insert none ⟨1, 2, [.bigint 7], 0⟩
        (Or.inr (by decide +kernel)) (hsuits (by decide))
  obtain ⟨hfalls, hlist, htree, hties⟩ := search_cuts o hkey
  refine ⟨hkey, hlist rows ?_ (by decide +kernel), by decide +kernel,
    htree Index.ranked t rfl harises, by decide +kernel, ?_, ?_⟩
  · exact fun row hrow => hsuits ((by decide : ∀ row ∈ rows, o.Accepts row) row hrow)
  · exact hfalls [.bigint 7] [.null] (hsuits (by decide)) (hsuits (by decide)) (by decide +kernel)
  · exact (hties [.bigint 5] (hsuits (by decide))).mp (by decide +kernel)

end KeyOrder

end VersionedIndex
