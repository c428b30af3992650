import Mathlib.Data.List.Sort
import VersionedIndex.Proofs.Index.Equal
import VersionedIndex.Proofs.Index.Placement
import VersionedIndex.Proofs.Tree.Rows

/-! The order of the versions in a tree. The way down keeps a version clear of what it has passed,
also by the key alone as long as row ids are not compared; when they come in, no version with the
key occupies it. -/

namespace VersionedIndex

open Std

namespace KeyOrder

def Before (o : KeyOrder) (a b : Version) : Prop := o.compareVersions a b true = .lt

instance (o : KeyOrder) : DecidableRel o.Before :=
  fun _ _ => inferInstanceAs (Decidable (_ = Ordering.lt))

variable {o : KeyOrder} {a b : Version} {l l' : List Version}

theorem before_iff (ha : o.Suits a.data) (hb : o.Suits b.data) :
    o.Before a b ↔ o.fullOrder a b = .lt := by
  rw [Before, compareVersions_eq_fullOrder ha hb]

theorem not_before_self (ha : o.Accepts a.data) : ¬o.Before a a := by
  have hself : o.fullOrder a a = .eq := ReflCmp.compare_self
  rw [before_iff ha.suits ha.suits, hself]
  exact nofun

theorem Before.asymm (ha : o.Accepts a.data) (hb : o.Accepts b.data) (hab : o.Before a b) :
    ¬o.Before b a := by
  have hgt : o.fullOrder b a = .gt := OrientedCmp.gt_of_lt ((before_iff ha.suits hb.suits).mp hab)
  rw [before_iff hb.suits ha.suits, hgt]
  exact nofun

theorem Before.trans {c : Version} (ha : o.Accepts a.data) (hb : o.Accepts b.data)
    (hc : o.Accepts c.data) (hab : o.Before a b) (hbc : o.Before b c) : o.Before a c := by
  rw [before_iff ha.suits hb.suits] at hab
  rw [before_iff hb.suits hc.suits] at hbc
  rw [before_iff ha.suits hc.suits]
  exact TransCmp.lt_trans hab hbc

theorem nodup_of_before (hl : l.Pairwise o.Before) (haccepted : ∀ v ∈ l, o.Accepts v.data) :
    l.Nodup := by
  refine hl.imp_of_mem fun {a b} ha _ hbefore hsame => ?_
  rw [← hsame] at hbefore
  exact not_before_self (haccepted a ha) hbefore

/-- A list of versions in strict order is known by its members. -/
theorem eq_of_before (hl : l.Pairwise o.Before) (hl' : l'.Pairwise o.Before)
    (haccepted : ∀ v ∈ l, o.Accepts v.data) (hmem : ∀ v, v ∈ l ↔ v ∈ l') : l = l' := by
  have haccepted' : ∀ v ∈ l', o.Accepts v.data := fun v hv => haccepted v ((hmem v).mpr hv)
  have hperm : l.Perm l' := (List.perm_ext_iff_of_nodup (nodup_of_before hl haccepted)
    (nodup_of_before hl' haccepted')).mpr hmem
  refine hperm.eq_of_pairwise (fun a b ha hb hab hba => ?_) hl hl'
  exact absurd hba (hab.asymm (haccepted a ha) (haccepted' b hb))

theorem keyOrder_isLE_of_lt (h : o.fullOrder a b = .lt) :
    (o.keyOrder a b).isLE := by
  rw [fullOrder, compareLex] at h
  cases hkey : o.keyOrder a b with
  | lt => rfl
  | eq => rfl
  | gt =>
    rw [hkey] at h
    cases h

theorem fullOrder_lt_of_keyOrder (h : o.keyOrder a b = .lt) : o.fullOrder a b = .lt := by
  rw [fullOrder, compareLex, h]
  rfl

end KeyOrder

def Path.Clear (cmp : Version → Version → Ordering) (v : Version) (p : Path) : Prop :=
  (∀ e ∈ p.before, cmp e.version v = .lt) ∧ (∀ e ∈ p.after, cmp v e.version = .lt)

theorem Path.Clear.turn {cmp : Version → Version → Ordering} [TransCmp cmp] {v : Version}
    {p : Path} {left right : Shape} {e : Item} {b : Int8}
    (hsorted : (p.plug (.node left e b right)).items.Pairwise fun x y =>
      (cmp x.version y.version).isLE)
    (h : p.Clear cmp v) :
    (cmp v e.version = .lt → Path.Clear cmp v (⟨e, b, .left, right⟩ :: p)) ∧
      (cmp v e.version = .gt → Path.Clear cmp v (⟨e, b, .right, left⟩ :: p)) := by
  rw [Path.items_plug, Shape.items, List.pairwise_append, List.pairwise_append,
    List.pairwise_append, List.pairwise_cons] at hsorted
  obtain ⟨⟨-, ⟨-, ⟨hright, -⟩, hleft⟩, -⟩, -⟩ := hsorted
  constructor
  · intro hlt
    refine ⟨h.1, ?_⟩
    intro x hx
    simp only [Path.after, Path.beyond, reduceCtorEq, if_false, List.cons_append, List.mem_cons,
      List.mem_append] at hx
    rcases hx with rfl | hx | hx
    · exact hlt
    · exact TransCmp.lt_of_lt_of_isLE hlt (hright x hx)
    · exact h.2 x hx
  · intro hgt
    have hlt : cmp e.version v = .lt := OrientedCmp.lt_of_gt hgt
    refine ⟨?_, h.2⟩
    intro x hx
    simp only [Path.before, Path.beyond, reduceCtorEq, if_false, List.cons_append, List.mem_reverse,
      List.mem_cons, List.mem_append] at hx
    rcases hx with rfl | hx | hx
    · exact hlt
    · rw [Shape.itemsToward, List.mem_reverse] at hx
      exact TransCmp.lt_of_isLE_of_lt (hleft x hx e List.mem_cons_self) hlt
    · exact h.1 x (List.mem_reverse.mpr hx)

def Shape.stored (s : Shape) : Multiset Version := ↑(s.items.map (·.version))

theorem Shape.mem_stored {s : Shape} {v : Version} :
    v ∈ s.stored ↔ ∃ e ∈ s.items, e.version = v := by
  rw [stored, Multiset.mem_coe, List.mem_map]

namespace Index

variable {ix : Index} {see : Option Visibility} {t : Tree} {s : Shape} {v : Version}

/-- The linked nodes of a tree hold rows that suit the index, in strict order. A row may be held by
several nodes, as long as their keys differ. -/
structure Sorts (ix : Index) (t : Tree) (s : Shape) : Prop where
  holds : t.Holds s
  suited : ∀ e ∈ s.items, ix.order.Suits e.version.data
  ordered : s.items.Pairwise fun a b => ix.order.fullOrder a.version b.version = .lt

/-- The linked nodes of a tree hold accepted rows, in strict order, and each is the one that its
row is bound to. -/
structure Orders (ix : Index) (t : Tree) (s : Shape) : Prop where
  holds : t.Holds s
  accepted : ∀ e ∈ s.items, ix.order.Accepts e.version.data
  sorted : (s.items.map (·.version)).Pairwise ix.order.Before
  bound : t.BindsAll s

/-- What a comparison on the way down says: it is made with or without row ids, or row ids come in
because no version with the key occupies it. -/
theorem compare_at_cases {id : NodeId} {w : Version} {useRowId useRowId' : Bool} {order : Ordering}
    (hversion : t.version id = .ok w)
    (h : ix.compareAt see t v id useRowId = .ok (order, useRowId')) :
    (useRowId' = useRowId ∧ order = ix.order.compareVersions v w useRowId) ∨
    (useRowId = false ∧ useRowId' = true ∧ ix.order.compareVersions v w false = .eq ∧
      order = compare v.id w.id ∧
      ∃ s, see = some s ∧ s.isMultiVersion = true ∧
        ix.anyEqual t id (s.canRead · .duplicate) = .ok false) := by
  simp only [compareAt, hversion, bind, Except.bind] at h
  cases see with
  | none =>
    cases h
    exact Or.inl ⟨rfl, rfl⟩
  | some sv =>
    dsimp only at h
    split at h
    · next hcond =>
      obtain ⟨heq, hids, hmulti⟩ := hcond
      have hids' : useRowId = false := by simpa using hids
      subst hids'
      cases hany : ix.anyEqual t id (sv.canRead · .duplicate) with
      | error err =>
        rw [hany] at h
        cases h
      | ok found =>
        rw [hany] at h
        cases found with
        | true =>
          cases h
          exact Or.inl ⟨rfl, rfl⟩
        | false =>
          cases h
          -- The key has ended at its last column, so what is compared now are the row ids alone.
          refine Or.inr ⟨rfl, rfl, heq, ?_, sv, rfl, hmulti, hany⟩
          rw [KeyOrder.compareVersions_from_size]
    · cases h
      exact Or.inl ⟨rfl, rfl⟩

namespace Sorts

theorem empty (ix : Index) : ix.Sorts {} .leaf where
  holds := Tree.holds_empty
  suited := by simp [Shape.items]
  ordered := List.Pairwise.nil

theorem key_sorted (h : ix.Sorts t s) :
    s.items.Pairwise fun a b => (ix.order.keyOrder a.version b.version).isLE :=
  h.ordered.imp fun hlt => KeyOrder.keyOrder_isLE_of_lt hlt

theorem of_sublist (h : ix.Sorts t s) {t' : Tree} {s' : Shape} (hholds : t'.Holds s')
    (hsub : s'.items.Sublist s.items) : ix.Sorts t' s' :=
  ⟨hholds, fun e he => h.suited e (hsub.subset he), h.ordered.sublist hsub⟩

end Sorts

namespace Orders

theorem empty (ix : Index) : ix.Orders {} .leaf where
  holds := Tree.holds_empty
  accepted := by simp [Shape.items]
  sorted := List.Pairwise.nil
  bound := by simp [Tree.BindsAll, Shape.items]

theorem sorts (h : ix.Orders t s) : ix.Sorts t s where
  holds := h.holds
  suited e he := (h.accepted e he).suits
  ordered := (List.pairwise_map.mp h.sorted).imp_of_mem fun ha hb hbefore =>
    (KeyOrder.before_iff (h.accepted _ ha).suits (h.accepted _ hb).suits).mp hbefore

end Orders

/-- No version with the key of `v` keeps `v` out: where the key has to be unique, each of them is one
that a visibility of several versions does not count any more. -/
def Vacant (ix : Index) (see : Option Visibility) (v : Version) (stored : Multiset Version) :
    Prop :=
  ix.unique = true → ix.order.hasNull v.data = false →
    ∀ u ∈ stored, ix.order.keyOrder v u = .eq →
      ∃ sv, see = some sv ∧ sv.isMultiVersion = true ∧ sv.canRead u .duplicate = false

structure Placed (ix : Index) (see : Option Visibility) (v : Version) (s : Shape) (p : Path)
    (useRowId : Bool) : Prop where
  full : p.Clear ix.order.fullOrder v
  key : useRowId = false → p.Clear ix.order.keyOrder v
  vacant : useRowId = true → ix.Vacant see v s.stored

theorem placed_at_root (ix : Index) (see : Option Visibility) (v : Version) (s : Shape) :
    ix.Placed see v s [] (!ix.unique || ix.order.hasNull v.data) where
  full := ⟨by simp [Path.before, Path.beyond], by simp [Path.after, Path.beyond]⟩
  key _ := ⟨by simp [Path.before, Path.beyond], by simp [Path.after, Path.beyond]⟩
  vacant hids hunique hnull := by
    rw [hunique, hnull] at hids
    cases hids

theorem Sorts.vacant_of_switch (h : ix.Sorts t s) {e : Item} {sv : Visibility}
    (he : e ∈ s.items) (hmulti : sv.isMultiVersion = true)
    (hkey : ix.order.keyOrder v e.version = .eq)
    (hany : ix.anyEqual t e.id (sv.canRead · .duplicate) = .ok false) :
    ix.Vacant (some sv) v s.stored := by
  intro _ _ u hu hkey'
  obtain ⟨e', he', rfl⟩ := Shape.mem_stored.mp hu
  refine ⟨sv, rfl, hmulti, ?_⟩
  obtain ⟨found, hfound, hiff⟩ := any_equal (sv.canRead · .duplicate) h.holds he h.suited
    h.key_sorted
  obtain rfl := Except.ok.inj (hany.symm.trans hfound)
  -- The search starts at `e`, so the keys of `e'` and `e` have to be compared through that of `v`.
  have hback : ix.order.keyOrder e.version v = .eq := OrientedCmp.eq_symm hkey
  cases hread : sv.canRead e'.version .duplicate with
  | false => rfl
  | true => exact (hiff.mpr ⟨e', he', TransCmp.eq_trans hback hkey', hread⟩).symm

/-- Every turn of the way down keeps the version clear of what has been passed. -/
theorem Sorts.kept_by_turns (h : ix.Sorts t s) (hv : ix.order.Suits v.data) :
    ix.KeptByTurns see t v s (ix.Placed see v s) := by
  rintro p left e b right useRowId useRowId' order rfl hplaced hcompare
  have he : e ∈ (p.plug (.node left e b right)).items := by
    rw [Path.items_plug]
    simp [Shape.items]
  have hfull := hplaced.full.turn (h.ordered.imp fun hlt => by rw [hlt]; rfl)
  rcases compare_at_cases (h.holds.version_of_mem he) hcompare with
    ⟨rfl, rfl⟩ | ⟨rfl, rfl, hkey, rfl, sv, rfl, hmulti, hany⟩
  · -- The comparison goes on as it was before.
    cases useRowId' with
    | true =>
      rw [KeyOrder.compareVersions_eq_fullOrder hv (h.suited e he)]
      have hplace {q : Path} (hq : q.Clear ix.order.fullOrder v) :
          ix.Placed see v (p.plug (.node left e b right)) q true :=
        ⟨hq, fun hids => absurd hids.symm Bool.false_ne_true, hplaced.vacant⟩
      exact ⟨fun hlt => hplace (hfull.1 hlt), fun hgt => hplace (hfull.2 hgt)⟩
    | false =>
      rw [KeyOrder.compareVersions_eq_keyOrder hv (h.suited e he)]
      have hturn := (hplaced.key rfl).turn h.key_sorted
      have hplace {q : Path} (hq : q.Clear ix.order.fullOrder v) (hq' : q.Clear ix.order.keyOrder v) :
          ix.Placed see v (p.plug (.node left e b right)) q false :=
        ⟨hq, fun _ => hq', fun hids => absurd hids Bool.false_ne_true⟩
      constructor
      · intro hlt
        exact hplace (hfull.1 (KeyOrder.fullOrder_lt_of_keyOrder hlt)) (hturn.1 hlt)
      · intro hgt
        have hlt := KeyOrder.fullOrder_lt_of_keyOrder (OrientedCmp.lt_of_gt hgt)
        exact hplace (hfull.2 (OrientedCmp.gt_of_lt hlt)) (hturn.2 hgt)
  · -- Row ids come in here: the keys tie, so the row ids decide as the full order does.
    rw [KeyOrder.compareVersions_eq_keyOrder hv (h.suited e he)] at hkey
    have horder : ix.order.fullOrder v e.version = compare v.id e.version.id := by
      rw [KeyOrder.fullOrder, compareLex, hkey]
      rfl
    have hplace {q : Path} (hq : q.Clear ix.order.fullOrder v) :
        ix.Placed (some sv) v (p.plug (.node left e b right)) q true :=
      ⟨hq, fun hids => absurd hids.symm Bool.false_ne_true,
        fun _ => h.vacant_of_switch he hmulti hkey hany⟩
    rw [← horder]
    exact ⟨fun hlt => hplace (hfull.1 hlt), fun hgt => hplace (hfull.2 hgt)⟩

/-- A free place that is clear by the key has no version with the key beside it. -/
theorem Placed.vacant_at_end {p : Path} {useRowId : Bool}
    (h : ix.Placed see v (p.plug .leaf) p useRowId) : ix.Vacant see v (p.plug .leaf).stored := by
  cases useRowId with
  | true => exact h.vacant rfl
  | false =>
    -- Row ids were never compared, so a version with the key could lie on neither side.
    intro _ _ u hu hkey
    obtain ⟨e, he, rfl⟩ := Shape.mem_stored.mp hu
    obtain ⟨hbefore, hafter⟩ := h.key rfl
    rw [Path.items_plug, Shape.items, List.append_nil, List.mem_append] at he
    rcases he with he | he
    · have hgt := OrientedCmp.gt_of_lt (hbefore e he)
      rw [hkey] at hgt
      cases hgt
    · rw [hafter e he] at hkey
      cases hkey

theorem Orders.row_unique (h : ix.Orders t s) {a b : Item} (ha : a ∈ s.items) (hb : b ∈ s.items)
    (hrow : a.version.id = b.version.id) : a = b :=
  h.bound.row_unique h.holds.forms ha hb hrow

theorem Orders.ne_of_mem_rest (h : ix.Orders t s) {before after : List Item} {e a : Item}
    (hitems : s.items = before ++ e :: after) (ha : a ∈ before ++ after) :
    a.version.id ≠ e.version.id :=
  h.bound.ne_of_mem_rest h.holds.forms hitems ha

theorem mem_items_of_gain {p : Path} {s s' : Shape} {new e : Item} (hs : s = p.plug .leaf)
    (hitems : s'.items = p.before ++ new :: p.after) : e ∈ s'.items ↔ e = new ∨ e ∈ s.items := by
  rw [hitems, hs, Path.items_plug, Shape.items, List.append_nil, List.mem_append, List.mem_cons,
    List.mem_append]
  tauto

/-- A tree stays sorted when it gains a version at a place that is clear. -/
theorem Sorts.of_gain (h : ix.Sorts t s) (hv : ix.order.Suits v.data) {p : Path} {s' : Shape}
    {t' : Tree} {new : Item} (hs : s = p.plug .leaf) (hclear : p.Clear ix.order.fullOrder v)
    (hholds : t'.Holds s') (hitems : s'.items = p.before ++ new :: p.after)
    (hnew : new.version = v) : ix.Sorts t' s' := by
  refine ⟨hholds, ?_, ?_⟩
  · intro e he
    rcases (mem_items_of_gain hs hitems).mp he with rfl | he
    · exact hnew ▸ hv
    · exact h.suited e he
  · have hsorted := h.ordered
    rw [hs, Path.items_plug, Shape.items, List.append_nil, List.pairwise_append] at hsorted
    obtain ⟨hbefore, hafter, hcross⟩ := hsorted
    rw [hitems, List.pairwise_append, List.pairwise_cons]
    refine ⟨hbefore, ⟨fun e he => hnew ▸ hclear.2 e he, hafter⟩, ?_⟩
    intro a ha b hb
    rcases List.mem_cons.mp hb with rfl | hb
    · exact hnew ▸ hclear.1 a ha
    · exact hcross a ha b hb

/-- Inserting a version: it goes in at its place in the order, and only if no version with its key
keeps it out, or the way down fails and nothing changes. -/
theorem Sorts.insert (h : ix.Sorts t s) (see : Option Visibility) (hroom : t.HasRoom)
    (hv : ix.order.Suits v.data) :
    (∃ root err, t.root = some root ∧ ix.placeFrom see t v (2 * t.slots.size + 2) root
      (!ix.unique || ix.order.hasNull v.data) = .error err ∧ ix.insert see v t = .error err t) ∨
    ∃ (t' : Tree) (s' : Shape) (p : Path), ix.insert see v t = .ok () t' ∧ ix.Sorts t' s' ∧
      s = p.plug .leaf ∧ p.Clear ix.order.fullOrder v ∧
      s'.items = p.before ++ ⟨(t.allocate v).1, v⟩ :: p.after ∧ ix.Vacant see v s.stored ∧
      t'.binding = t.binding.insert v.id (t.allocate v).1 ∧
      t'.retired = t.retired ∧ t'.free = (t.allocate v).2.free := by
  rcases insert_outcome h.holds hroom (h.kept_by_turns hv) (placed_at_root ix see v s) with
    hfail | ⟨t', p, useRowId, hok, rfl, ⟨s', hholds, hitems, hbinding, hretired, hfree⟩, hplaced⟩
  · exact Or.inl hfail
  · exact Or.inr ⟨t', s', p, hok, h.of_gain hv rfl hplaced.full hholds hitems rfl, rfl,
      hplaced.full, hitems, hplaced.vacant_at_end, hbinding, hretired, hfree⟩

/-- Inserting a version whose row is not in the tree: it goes in at its place in the order, and
only if no version with its key keeps it out, or nothing changes. -/
theorem Orders.insert (h : ix.Orders t s) (see : Option Visibility) (hroom : t.HasRoom)
    (hv : ix.order.Accepts v.data) (hfresh : ∀ e ∈ s.items, e.version.id ≠ v.id) :
    (∃ err, ix.insert see v t = .error err t) ∨
    ∃ (t' : Tree) (s' : Shape) (p : Path), ix.insert see v t = .ok () t' ∧ ix.Orders t' s' ∧
      s = p.plug .leaf ∧ p.Clear ix.order.fullOrder v ∧
      s'.items = p.before ++ ⟨(t.allocate v).1, v⟩ :: p.after ∧ ix.Vacant see v s.stored ∧
      t'.retired = t.retired ∧ t'.free = (t.allocate v).2.free := by
  rcases h.sorts.insert see hroom hv.suits with ⟨root, err, -, -, hfail⟩ |
    ⟨t', s', p, hok, hsorts, hs, hclear, hitems, hvacant, hbinding, hretired, hfree⟩
  · exact Or.inl ⟨err, hfail⟩
  refine Or.inr ⟨t', s', p, hok, ?_, hs, hclear, hitems, hvacant, hretired, hfree⟩
  refine ⟨hsorts.holds, ?_, ?_, ?_⟩
  · intro e he
    rcases (mem_items_of_gain hs hitems).mp he with rfl | he
    · exact hv
    · exact h.accepted e he
  · rw [List.pairwise_map]
    refine hsorts.ordered.imp_of_mem fun ha hb hlt => ?_
    exact (KeyOrder.before_iff (hsorts.suited _ ha) (hsorts.suited _ hb)).mpr hlt
  · refine h.bound.of_gain hfresh ?_ hitems hbinding
    rw [hs, Path.items_plug, Shape.items, List.append_nil]

/-- Deleting a row takes out its item, and deleting one that is not in the tree does nothing. -/
theorem Orders.delete (h : ix.Orders t s) (row : RowId) :
    (∃ (before : List Item) (e : Item) (after : List Item) (t' : Tree) (s' : Shape),
      s.items = before ++ e :: after ∧ e.version.id = row ∧
      TreeAction.removeRow row t = .ok true t' ∧ ix.Orders t' s' ∧
      s'.items = before ++ after ∧ t'.retired = t.retired.push e.id) ∨
    ((∀ e ∈ s.items, e.version.id ≠ row) ∧ TreeAction.removeRow row t = .ok false t) := by
  rcases h.bound.remove_row h.holds row with
    ⟨before, e, after, t', hitems, hrow, hrun, s', hholds, hitems', hbinding, hretired, -⟩ |
    habsent
  · have hsub : s'.items.Sublist s.items := by
      rw [hitems, hitems']
      exact (List.sublist_cons_self e after).append_left before
    have horders : ix.Orders t' s' :=
      ⟨hholds, fun a ha => h.accepted a (hsub.subset ha), h.sorted.sublist (hsub.map _),
        h.bound.of_loss h.holds.forms hitems hitems' hbinding⟩
    exact Or.inl ⟨before, e, after, t', s', hitems, hrow, hrun, horders, hitems', hretired⟩
  · exact Or.inr habsent

theorem Orders.reclaim (h : ix.Orders t s) : ix.Orders t.reclaim.2 s :=
  ⟨h.holds.reclaim, h.accepted, h.sorted, h.bound⟩

end Index

end VersionedIndex
