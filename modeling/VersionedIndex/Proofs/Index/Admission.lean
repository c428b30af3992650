import VersionedIndex.Proofs.Index.Ordered
import VersionedIndex.Proofs.Index.Searches

/-! What an insert accepts. The stored versions with an equal key decide; which of them the way down
meets first depends on the shape of the tree, but the answer does not. -/

namespace VersionedIndex

open Std

namespace Index

variable {ix : Index} {see : Option Visibility} {t : Tree} {s : Shape} {v : Version}

/-- The stored version `u` keeps `v` out. The keys are equal, and either both are versions of the same
row, or the key has to be unique and contains no NULL, and `u` counts: it does unless the visibility
knows several versions of a key and says that `u` no longer occupies it. -/
def KeepsOut (ix : Index) (see : Option Visibility) (v u : Version) : Prop :=
  ix.order.compareRows v.data u.data = .eq ∧
    (u.id = v.id ∨
      (ix.unique = true ∧ ix.order.hasNull v.data = false ∧
        ∀ sv ∈ see, sv.isMultiVersion = true → sv.canRead u .duplicate = true))

/-- The trees that arise from an empty one by inserts and deletes, where each insert finds room
(`HasRoom`: a free slot, or one more node id of 32 bits). What is inserted suits the index, as every
row does whose key values are accepted or missing. -/
inductive Arises (ix : Index) : Tree → Prop
  | empty : ix.Arises {}
  | insert {t : Tree} (see : Option Visibility) (v : Version) :
    ix.Arises t → t.HasRoom → ix.order.Suits v.data → ix.Arises ((ix.insert see v).outcome t).2
  | delete {t : Tree} (row : RowId) :
    ix.Arises t → ix.Arises ((TreeAction.removeRow row).outcome t).2

/-- Where a comparison ends the way down, the version there is the row itself with the same key, or the
keys are equal and somebody counts who has the key. -/
theorem equal_of_refused {id : NodeId} {w : Version} {useRowId useRowId' : Bool}
    (hversion : t.version id = .ok w)
    (h : ix.compareAt see t v id useRowId = .ok (.eq, useRowId')) :
    ix.order.compareVersions v w true = .eq ∨
    (useRowId = false ∧ ix.order.compareVersions v w false = .eq ∧
      ∀ sv ∈ see, sv.isMultiVersion = true →
        ix.anyEqual t id (sv.canRead · .duplicate) = .ok true) := by
  rcases compare_at_cases hversion h with ⟨rfl, horder⟩ | ⟨rfl, rfl, hkey, hid, -⟩
  · cases useRowId' with
    | true => exact Or.inl horder.symm
    | false =>
      refine Or.inr ⟨rfl, horder.symm, ?_⟩
      rintro sv rfl hmulti
      -- Had the search found nobody, row ids would have come in at this node.
      simp only [compareAt, hversion, bind, Except.bind, horder.symm, hmulti] at h
      cases hany : ix.anyEqual t id (sv.canRead · .duplicate) with
      | error err =>
        rw [hany] at h
        cases h
      | ok found =>
        cases found with
        | true => rfl
        | false =>
          rw [hany] at h
          have hids : true = false := congrArg Prod.snd (Except.ok.inj h)
          cases hids
  · rw [KeyOrder.compareVersions_false] at hkey
    exact Or.inl (KeyOrder.compareVersions_eq_iff.mpr ⟨hkey, compare_eq_iff_eq.mp hid.symm⟩)

/-- Row ids stay out of the comparisons only where the key has to be unique and contains no NULL. -/
theorem kept_by_turns_unique (ix : Index) (see : Option Visibility) (t : Tree) (v : Version)
    (hholds : t.Holds s) : ix.KeptByTurns see t v s fun _ useRowId =>
      useRowId = false → ix.unique = true ∧ ix.order.hasNull v.data = false := by
  rintro p left e b right useRowId useRowId' order rfl hunique hcompare
  have he : e ∈ (p.plug (.node left e b right)).items := Tree.Holds.mem_plug .left
  have hstays : useRowId' = false → useRowId = false := by
    rcases compare_at_cases (hholds.version_of_mem he) hcompare with ⟨rfl, -⟩ | ⟨-, rfl, -⟩
    · exact id
    · exact fun hids => absurd hids.symm Bool.false_ne_true
  exact ⟨fun _ hids => hunique (hstays hids), fun _ hids => hunique (hstays hids)⟩

namespace Sorts

theorem delete (h : ix.Sorts t s) (row : RowId) :
    ∃ s', ix.Sorts ((TreeAction.removeRow row).outcome t).2 s' := by
  cases hbound : t.binding.node? row with
  | none =>
    rw [Action.outcome_of_ok (remove_row_of_unbound hbound)]
    exact ⟨s, h⟩
  | some id =>
    obtain ⟨e, he, rfl, rfl⟩ := h.holds.bound row id hbound
    obtain ⟨before, after, hitems⟩ := List.append_of_mem he
    obtain ⟨t', hrun, s', hholds, hitems', -⟩ := remove_row_loses h.holds hitems hbound
    rw [Action.outcome_of_ok hrun]
    refine ⟨s', h.of_sublist hholds ?_⟩
    rw [hitems, hitems']
    exact (List.sublist_cons_self e after).append_left before

/-- The way down is refused at an item with an equal key, whose conflict is the error. It is the row
itself, or the key has to be unique and contains no NULL, and somebody counts who has it. -/
theorem refused_at (h : ix.Sorts t s) {root : NodeId} (hroot : t.root = some root) {err : Error}
    (hfail : ix.placeFrom see t v (2 * t.slots.size + 2) root
      (!ix.unique || ix.order.hasNull v.data) = .error err) :
    ∃ e ∈ s.items, ix.conflict see t e.id = .ok err ∧
      ix.order.compareRows v.data e.version.data = .eq ∧
      (e.version.id = v.id ∨ ix.unique = true ∧ ix.order.hasNull v.data = false ∧
        ∀ sv ∈ see, sv.isMultiVersion = true →
          ix.anyEqual t e.id (sv.canRead · .duplicate) = .ok true) := by
  have hstart : (!ix.unique || ix.order.hasNull v.data) = false →
      ix.unique = true ∧ ix.order.hasNull v.data = false := by simp
  obtain ⟨e, he, hconflict, -, useRowId, useRowId', hunique, hcompare⟩ :=
    h.holds.place_from_root (kept_by_turns_unique ix see t v h.holds) hstart hroot hfail
  refine ⟨e, he, hconflict, ?_⟩
  rcases equal_of_refused (h.holds.version_of_mem he) hcompare with hsame | ⟨hids, hkey, hcounts⟩
  · obtain ⟨hkey, hid⟩ := KeyOrder.compareVersions_eq_iff.mp hsame
    exact ⟨hkey, Or.inl hid.symm⟩
  · rw [KeyOrder.compareVersions_false] at hkey
    obtain ⟨hix, hnull⟩ := hunique hids
    exact ⟨hkey, Or.inr ⟨hix, hnull, hcounts⟩⟩

/-- If the way down is refused, some stored version keeps the new one out. -/
theorem kept_out_of_refused (h : ix.Sorts t s) (hv : ix.order.Suits v.data) {root : NodeId}
    (hroot : t.root = some root) {err : Error}
    (hfail : ix.placeFrom see t v (2 * t.slots.size + 2) root
      (!ix.unique || ix.order.hasNull v.data) = .error err) :
    (∃ e ∈ s.items, ix.conflict see t e.id = .ok err) ∧ ∃ u ∈ s.stored, ix.KeepsOut see v u := by
  obtain ⟨e, he, hconflict, hkey, hcounts⟩ := h.refused_at hroot hfail
  refine ⟨⟨e, he, hconflict⟩, ?_⟩
  have hstored {e : Item} (he : e ∈ s.items) : e.version ∈ s.stored :=
    Shape.mem_stored.mpr ⟨e, he, rfl⟩
  rcases hcounts with hid | ⟨hix, hnull, hcounts⟩
  · exact ⟨e.version, hstored he, hkey, Or.inl hid⟩
  by_cases hmulti : ∃ sv ∈ see, sv.isMultiVersion = true
  · -- The one that counts is somewhere beside the node, at an equal key.
    obtain ⟨sv, hsv, hmulti⟩ := hmulti
    obtain ⟨found, hfound, hiff⟩ := any_equal (sv.canRead · .duplicate) h.holds he h.suited
      h.key_sorted
    obtain rfl : true = found := Except.ok.inj ((hcounts sv hsv hmulti).symm.trans hfound)
    obtain ⟨e', he', hkey', hread⟩ := hiff.mp rfl
    rw [KeyOrder.compareRows_eq_of_suits hv (h.suited e he)] at hkey
    refine ⟨e'.version, hstored he', ?_, Or.inr ⟨hix, hnull, fun sv' hsv' _ => ?_⟩⟩
    · rw [KeyOrder.compareRows_eq_of_suits hv (h.suited e' he')]
      exact TransCmp.eq_trans hkey hkey'
    · obtain rfl : sv = sv' := Option.mem_unique hsv hsv'
      exact hread
  · refine ⟨e.version, hstored he, hkey, Or.inr ⟨hix, hnull, fun sv hsv hmulti' => ?_⟩⟩
    exact absurd ⟨sv, hsv, hmulti'⟩ hmulti

/-- If the way down ends at a free place, no stored version keeps the new one out. -/
theorem not_kept_out (h : ix.Sorts t s) (hv : ix.order.Suits v.data) {p : Path}
    (hs : s = p.plug .leaf) (hclear : p.Clear ix.order.fullOrder v)
    (hvacant : ix.Vacant see v s.stored) {u : Version} (hu : u ∈ s.stored) :
    ¬ix.KeepsOut see v u := by
  rintro ⟨hkey, hout⟩
  obtain ⟨e, he, rfl⟩ := Shape.mem_stored.mp hu
  rw [KeyOrder.compareRows_eq_of_suits hv (h.suited e he)] at hkey
  rcases hout with hid | ⟨hunique, hnull, hcounts⟩
  · -- The row itself with the same key would be on neither side of the place.
    have hfull : ix.order.fullOrder v e.version = .eq :=
      KeyOrder.fullOrder_eq_iff.mpr ⟨hkey, hid.symm⟩
    rw [hs, Path.items_plug, Shape.items, List.append_nil, List.mem_append] at he
    rcases he with he | he
    · have hgt := OrientedCmp.gt_of_lt (hclear.1 e he)
      rw [hfull] at hgt
      cases hgt
    · have hlt := hclear.2 e he
      rw [hfull] at hlt
      cases hlt
  · -- A version that counts would have ended the way down before.
    obtain ⟨sv, rfl, hmulti, hread⟩ := hvacant hunique hnull e.version hu hkey
    rw [hcounts sv rfl hmulti] at hread
    cases hread

/-- Inserting into a sorted tree: a version that is kept out fails with the conflict at some item and
leaves the tree as it is; any other goes in at its place. -/
theorem insert_cases (h : ix.Sorts t s) (see : Option Visibility) (hroom : t.HasRoom)
    (hv : ix.order.Suits v.data) :
    ((∃ u ∈ s.stored, ix.KeepsOut see v u) ∧
      ∃ err, ix.insert see v t = .error err t ∧
        ∃ e ∈ s.items, ix.conflict see t e.id = .ok err) ∨
    ((∀ u ∈ s.stored, ¬ix.KeepsOut see v u) ∧
      ∃ (t' : Tree) (s' : Shape) (p : Path), ix.insert see v t = .ok () t' ∧ ix.Sorts t' s' ∧
        s = p.plug .leaf ∧ p.Clear ix.order.fullOrder v ∧
        s'.items = p.before ++ ⟨(t.allocate v).1, v⟩ :: p.after) := by
  rcases h.insert see hroom hv with ⟨root, err, hroot, hplace, hfail⟩ |
    ⟨t', s', p, hok, hsorts, hs, hclear, hitems, hvacant, -⟩
  · obtain ⟨hconflict, hkept⟩ := h.kept_out_of_refused hv hroot hplace
    exact Or.inl ⟨hkept, err, hfail, hconflict⟩
  · refine Or.inr ⟨fun u hu => h.not_kept_out hv hs hclear hvacant hu, ?_⟩
    exact ⟨t', s', p, hok, hsorts, hs, hclear, hitems⟩

end Sorts

theorem Arises.sorts (h : ix.Arises t) : ∃ s, ix.Sorts t s := by
  induction h with
  | empty => exact ⟨.leaf, Sorts.empty ix⟩
  | insert see v _ hroom hv ih =>
    obtain ⟨s, hs⟩ := ih
    rcases hs.insert_cases see hroom hv with
      ⟨-, err, hfail, -⟩ | ⟨-, t', s', p, hok, hsorts, -⟩
    · rw [Action.outcome_of_error hfail]
      exact ⟨s, hs⟩
    · rw [Action.outcome_of_ok hok]
      exact ⟨s', hsorts⟩
  | delete row _ ih =>
    obtain ⟨s, hs⟩ := ih
    exact hs.delete row

/-- An insert fails as a duplicate if and only if some stored version keeps the new one out. No insert
fails otherwise, and one that fails leaves the tree as it is. One that succeeds adds one node, at the
place of its version by key and row id. -/
theorem Arises.insert_duplicate_iff (h : ix.Arises t) (see : Option Visibility) (hroom : t.HasRoom)
    (hv : ix.order.Suits v.data) :
    ((∃ err t', ix.insert see v t = .error err t' ∧ err.isDuplicate = true) ↔
      ∃ u ∈ t.versions, ix.KeepsOut see v u) ∧
    (∀ err t', ix.insert see v t = .error err t' → err.isDuplicate = true ∧ t' = t) ∧
    ∀ t', ix.insert see v t = .ok () t' → ∃ (id : NodeId) (before after : List Item),
      t.inorder = before ++ after ∧ t'.inorder = before ++ ⟨id, v⟩ :: after ∧
      (∀ e ∈ before, ix.order.Before e.version v) ∧ (∀ e ∈ after, ix.order.Before v e.version) ∧
      t'.elementCount = t.elementCount + 1 := by
  obtain ⟨s, hs⟩ := h.sorts
  have hstored (u : Version) : u ∈ t.versions ↔ u ∈ s.stored := by
    rw [hs.holds.versions_eq, Shape.stored, Multiset.mem_coe]
  simp only [hstored]
  rcases hs.insert_cases see hroom hv with
    ⟨hkept, err, hfail, e, he, hconflict⟩ | ⟨hfree, t', s', p, hok, hsorts, hplug, hclear, hitems⟩
  · have hduplicate : err.isDuplicate = true := hs.holds.duplicate_of_conflict he hconflict
    refine ⟨⟨fun _ => hkept, fun _ => ⟨err, t, hfail, hduplicate⟩⟩, ?_, ?_⟩
    · intro err' t' hfail'
      cases hfail.symm.trans hfail'
      exact ⟨hduplicate, rfl⟩
    · intro t' hok
      cases hfail.symm.trans hok
  · refine ⟨⟨?_, ?_⟩, ?_, ?_⟩
    · rintro ⟨err, t'', hfail, -⟩
      cases hok.symm.trans hfail
    · rintro ⟨u, hu, hout⟩
      exact absurd hout (hfree u hu)
    · intro err t'' hfail
      cases hok.symm.trans hfail
    · intro t'' hok'
      cases hok.symm.trans hok'
      have hold : s.items = p.before ++ p.after := by
        rw [hplug, Path.items_plug, Shape.items, List.append_nil]
      have hmem {e : Item} (he : e ∈ p.before ++ p.after) : e ∈ s.items := hold ▸ he
      refine ⟨(t.allocate v).1, p.before, p.after, hs.holds.inorder.trans hold,
        hsorts.holds.inorder.trans hitems, ?_, ?_, ?_⟩
      · intro e he
        have hsuits := hs.suited e (hmem (List.mem_append_left _ he))
        exact (KeyOrder.before_iff hsuits hv).mpr (hclear.1 e he)
      · intro e he
        have hsuits := hs.suited e (hmem (List.mem_append_right _ he))
        exact (KeyOrder.before_iff hv hsuits).mpr (hclear.2 e he)
      · rw [hsorts.holds.count, hs.holds.count, hitems, hold, List.length_append,
          List.length_append, List.length_cons, Nat.add_assoc]

def doubled : Tree :=
  let see := Visibility.ofRowIds [] [] []
  let t₁ := ((sample.insert none (sampleVersion 1 5)).outcome {}).2
  let t₂ := ((sample.insert (some see) (sampleVersion 2 5)).outcome t₁).2
  ((sample.insert none (sampleVersion 3 7)).outcome t₂).2

/-- A further version of the key is kept out by the first one, although the way down meets the second one
first, which does not count. If neither counts it goes in behind both. -/
theorem doubled_insert_duplicate_iff :
    sample.Arises doubled ∧ doubled.HasRoom ∧ sample.order.Suits [.bigint 5] ∧
    (∃ err t', sample.insert (some (.ofRowIds [] [1] [])) (sampleVersion 4 5) doubled =
      .error err t' ∧ err.isDuplicate = true ∧ t' = doubled) ∧
    ¬∃ u ∈ doubled.versions, sample.KeepsOut (some (.ofRowIds [] [] [])) (sampleVersion 4 5) u := by
  have hsuits (id : RowId) (key : Int64) : sample.order.Suits (sampleVersion id key).data := by
    apply KeyOrder.Accepts.suits
    intro c hc
    obtain rfl : c = ⟨0, .bigint, false, false⟩ := by simpa [sample, KeyOrder.columns] using hc
    rfl
  have h₁ := Arises.empty.insert none (sampleVersion 1 5) (Or.inr (by decide +kernel)) (hsuits 1 5)
  have h₂ := h₁.insert (some (.ofRowIds [] [] [])) (sampleVersion 2 5)
    (Or.inr (by decide +kernel)) (hsuits 2 5)
  have harises : sample.Arises doubled :=
    h₂.insert none (sampleVersion 3 7) (Or.inr (by decide +kernel)) (hsuits 3 7)
  have hroom : doubled.HasRoom := by decide +kernel
  refine ⟨harises, hroom, hsuits 1 5, ?_, ?_⟩
  · obtain ⟨hiff, hfails, -⟩ :=
      harises.insert_duplicate_iff (some (.ofRowIds [] [1] [])) hroom (hsuits 4 5)
    have hversions : sampleVersion 1 5 ∈ doubled.versions := by decide +kernel
    have hkept : sample.KeepsOut (some (.ofRowIds [] [1] [])) (sampleVersion 4 5)
        (sampleVersion 1 5) := by
      refine ⟨by decide +kernel, Or.inr ⟨rfl, by decide +kernel, ?_⟩⟩
      rintro sv ⟨⟩ -
      decide +kernel
    obtain ⟨err, t', hfail, hduplicate⟩ := hiff.mpr ⟨_, hversions, hkept⟩
    exact ⟨err, t', hfail, hduplicate, (hfails err t' hfail).2⟩
  · obtain ⟨hiff, -, -⟩ := harises.insert_duplicate_iff (some (.ofRowIds [] [] [])) hroom (hsuits 4 5)
    have hok : ((sample.insert (some (.ofRowIds [] [] [])) (sampleVersion 4 5)).outcome doubled).1 =
        .ok () := by decide +kernel
    rw [← hiff]
    rintro ⟨err, t', hfail, -⟩
    rw [Action.outcome_of_error hfail] at hok
    cases hok

end Index

end VersionedIndex
