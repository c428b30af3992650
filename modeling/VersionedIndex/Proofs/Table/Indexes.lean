import VersionedIndex.Proofs.Index.Admission
import VersionedIndex.Proofs.Table.Trees

namespace VersionedIndex

namespace Action

variable {σ α : Type} {act : Action σ α} {handler : Error → Action σ α} {s s' : σ}

theorem try_of_ok {a : α} (h : act s = .ok a s') : tryCatch act handler s = .ok a s' := by
  change EStateM.tryCatch act handler s = _
  simp only [EStateM.tryCatch, h]

theorem try_of_error {e : Error} (h : act s = .error e s') :
    tryCatch act handler s = handler e s' := by
  change EStateM.tryCatch act handler s = _
  simp only [EStateM.tryCatch, h]
  rfl

theorem discard_of_ok {a : α} (h : act s = .ok a s') : discard act s = .ok () s' :=
  bind_of_ok h

theorem discard_of_error {e : Error} (h : act s = .error e s') : discard act s = .error e s' :=
  bind_of_error h

end Action

def Index.Distinct (ix : Index) (stored : Multiset Version) : Prop :=
  ix.unique = true → ∀ u ∈ stored, ∀ v ∈ stored, u ≠ v → ix.order.hasNull u.data = false →
    ix.order.hasNull v.data = false → ix.order.keyOrder u v ≠ .eq

/-- A version that goes in without a visibility has a key of its own. -/
theorem Index.Distinct.cons {ix : Index} {stored : Multiset Version} {v : Version}
    (h : ix.Distinct stored) (hvacant : ix.Vacant none v stored) : ix.Distinct (v ::ₘ stored) := by
  have hnew (u : Version) (hunique : ix.unique = true) (hu : u ∈ stored)
      (hnull : ix.order.hasNull v.data = false) : ix.order.keyOrder v u ≠ .eq := by
    intro heq
    obtain ⟨sv, hsv, -⟩ := hvacant hunique hnull u hu heq
    cases hsv
  intro hunique a ha b hb hne hanull hbnull heq
  rcases Multiset.mem_cons.mp ha with rfl | ha'
  · exact hnew b hunique ((Multiset.mem_cons.mp hb).resolve_left hne.symm) hanull heq
  · rcases Multiset.mem_cons.mp hb with rfl | hb'
    · exact hnew a hunique ha' hbnull (Std.OrientedCmp.eq_symm heq)
    · exact h hunique a ha' b hb' hne hanull hbnull heq

namespace Table

def Workspace.withTrees (w : Workspace) (trees : List Tree) : Workspace :=
  { w with table := { w.table with store := { w.table.store with trees } } }

inductive Stand (P : Nat → Index → Tree → Prop) : Nat → List Index → List Tree → Prop
  | nil {k : Nat} : Stand P k [] []
  | cons {k : Nat} {ix : Index} {ixs : List Index} {t : Tree} {ts : List Tree} :
    ix.position = k → P k ix t → Stand P (k + 1) ixs ts → Stand P k (ix :: ixs) (t :: ts)

namespace Stand

variable {P Q : Nat → Index → Tree → Prop} {k : Nat} {ixs : List Index} {ts : List Tree}

theorem length_eq (h : Stand P k ixs ts) : ts.length = ixs.length := by
  induction h with
  | nil => rfl
  | cons _ _ _ ih => rw [List.length_cons, List.length_cons, ih]

theorem append (h : Stand P k ixs ts) {ixs' : List Index} {ts' : List Tree}
    (h' : Stand P (k + ixs.length) ixs' ts') : Stand P k (ixs ++ ixs') (ts ++ ts') := by
  induction h with
  | nil => exact h'
  | cons hpos hP _ ih =>
    rw [List.length_cons, Nat.add_comm _ 1, ← Nat.add_assoc] at h'
    exact cons hpos hP (ih h')

theorem get (h : Stand P k ixs ts) {i : Nat} {ix : Index} (hix : ixs[i]? = some ix) :
    ∃ t, ts[i]? = some t ∧ ix.position = k + i ∧ P (k + i) ix t := by
  induction h generalizing i with
  | nil => cases hix
  | cons hpos hP _ ih =>
    cases i with
    | zero =>
      obtain rfl := Option.some.inj hix
      exact ⟨_, rfl, hpos, hP⟩
    | succ i =>
      obtain ⟨t, ht, hpos', hP'⟩ := ih hix
      rw [Nat.add_assoc, Nat.add_comm 1] at hpos' hP'
      exact ⟨t, ht, hpos', hP'⟩

theorem imp (h : Stand P k ixs ts)
    (hPQ : ∀ {k : Nat} {ix : Index} {t : Tree}, ix ∈ ixs → t ∈ ts → P k ix t → Q k ix t) :
    Stand Q k ixs ts := by
  induction h with
  | nil => exact nil
  | cons hpos hP _ ih =>
    refine cons hpos (hPQ List.mem_cons_self List.mem_cons_self hP) (ih fun hix ht => ?_)
    exact hPQ (List.mem_cons_of_mem _ hix) (List.mem_cons_of_mem _ ht)

theorem of_mem (h : Stand P k ixs ts) {ix : Index} (hix : ix ∈ ixs) : ∃ i t, P i ix t := by
  obtain ⟨i, hi⟩ := List.mem_iff_getElem?.mp hix
  obtain ⟨t, -, -, hP⟩ := h.get hi
  exact ⟨k + i, t, hP⟩

theorem of_mem_trees (h : Stand P k ixs ts) {t : Tree} (ht : t ∈ ts) : ∃ i ix, P i ix t := by
  induction h with
  | nil => cases ht
  | cons _ hP _ ih =>
    rcases List.mem_cons.mp ht with rfl | ht
    · exact ⟨_, _, hP⟩
    · exact ih ht

theorem of_mem_zip (h : Stand P k ixs ts) {ix : Index} {t : Tree} (hmem : (ix, t) ∈ ixs.zip ts) :
    ∃ i, P i ix t := by
  induction h with
  | nil => cases hmem
  | cons _ hP _ ih =>
    rcases List.mem_cons.mp hmem with hfirst | hrest
    · obtain ⟨rfl, rfl⟩ := Prod.mk.inj hfirst
      exact ⟨_, hP⟩
    · exact ih hrest

theorem map_definition (hP : ∀ {k : Nat} {ix : Index} {t : Tree}, P k ix.definition t ↔ P k ix t) :
    Stand P k (ixs.map Index.definition) ts ↔ Stand P k ixs ts := by
  constructor
  · intro h
    generalize hdefs : ixs.map Index.definition = defs at h
    induction h generalizing ixs with
    | nil =>
      rw [List.map_eq_nil_iff.mp hdefs]
      exact nil
    | cons hpos hdef _ ih =>
      obtain ⟨ix, ixs, rfl, rfl, rfl⟩ := List.map_eq_cons_iff.mp hdefs
      exact cons hpos (hP.mp hdef) (ih rfl)
  · intro h
    induction h with
    | nil => exact nil
    | cons hpos hdef _ ih => exact cons hpos (hP.mpr hdef) ih

theorem of_definitions (h : Stand P k ixs ts) {ixs' : List Index}
    (hdefs : ixs'.map Index.definition = ixs.map Index.definition)
    (hP : ∀ {k : Nat} {ix : Index} {t : Tree}, P k ix.definition t ↔ P k ix t) :
    Stand P k ixs' ts := by
  rw [← map_definition hP, hdefs]
  exact (map_definition hP).mpr h

theorem map_trees (h : Stand P k ixs ts) (f : Tree → Tree)
    (hPQ : ∀ {k : Nat} {ix : Index} {t : Tree}, P k ix t → Q k ix (f t)) :
    Stand Q k ixs (ts.map f) := by
  induction h with
  | nil => exact nil
  | cons hpos hP _ ih => exact cons hpos (hPQ hP) ih

end Stand

abbrev InShape : List Index → List Tree → Prop := Stand (fun _ _ t => ∃ s, t.Holds s) 0

abbrev InStep (stored : Multiset Version) : Nat → List Index → List Tree → Prop :=
  Stand fun _ ix t => ix.Contains t stored

end Table

namespace TableAction

open Table

variable {w : Workspace} {p q ts : List Tree} {t t' : Tree} {ix : Index} {ixs : List Index}
  {stored : Multiset Version} {v : Version}

theorem tree_at (hw : w.table.store.trees = p ++ t :: q) (hpos : ix.position = p.length) :
    Action.examine (·.tree ix) w.table.store = .ok t w.table.store := by
  apply Action.examine_of_ok
  simp only [Store.tree, hw, hpos, List.getElem?_append_right (Nat.le_refl _), Nat.sub_self,
    List.getElem?_cons_zero]

theorem set_at (hw : w.table.store.trees = p ++ t :: q) (hpos : ix.position = p.length)
    (t' : Tree) : w.table.store.trees.set ix.position t' = p ++ t' :: q := by
  rw [hw, hpos, List.set_append_right _ _ (Nat.le_refl _), Nat.sub_self, List.set_cons_zero]

theorem on_tree_of_ok {α : Type} {act : TreeAction α} {a : α}
    (hw : w.table.store.trees = p ++ t :: q) (hpos : ix.position = p.length)
    (hact : act t = .ok a t') :
    onStore (Store.onTree ix act) w = .ok a (w.withTrees (p ++ t' :: q)) := by
  have hrun : Store.onTree ix act w.table.store =
      .ok a { w.table.store with trees := p ++ t' :: q } := by
    simp only [Store.onTree]
    rw [Action.bind_of_ok (tree_at hw hpos)]
    simp only [Action.zoom, hact, set_at hw hpos]
  simp only [onStore, Action.zoom, hrun]
  rfl

theorem on_tree_of_error {α : Type} {act : TreeAction α} {e : Error}
    (hw : w.table.store.trees = p ++ t :: q) (hpos : ix.position = p.length)
    (hact : act t = .error e t) : onStore (Store.onTree ix act) w = .error e w := by
  have hrun : Store.onTree ix act w.table.store = .error e w.table.store := by
    simp only [Store.onTree]
    rw [Action.bind_of_ok (tree_at hw hpos)]
    simp only [Action.zoom, hact, set_at hw hpos]
    rw [← hw]
  simp only [onStore, Action.zoom, hrun]

section Passes

variable {P Q R : Nat → Index → Tree → Prop}

/-- Taking a version out of some indexes goes through all of them. -/
theorem withdraw_outcome (h : Stand P p.length ixs ts) (hw : w.table.store.trees = p ++ (ts ++ q))
    (hremove : ∀ {k : Nat} {ix : Index} {t : Tree}, P k ix t →
      ∃ removed t', TreeAction.removeRow v.id t = .ok removed t' ∧ Q k ix t') :
    ∃ ts', withdraw v ixs w = .ok () (w.withTrees (p ++ (ts' ++ q))) ∧
      Stand Q p.length ixs ts' := by
  -- By induction on the indexes that are left; the trees that have been changed move over to `p`.
  generalize hk : p.length = k at h
  induction h generalizing p w with
  | nil =>
    refine ⟨[], ?_, .nil⟩
    rw [← hw]
    rfl
  | @cons k ix ixs t ts hpos hP _ ih =>
    obtain ⟨removed, t', hrow, hQ⟩ := hremove hP
    have hrun := on_tree_of_ok hw (hpos.trans hk.symm) hrow
    obtain ⟨ts', hrest, hstand⟩ := ih (p := p ++ [t'])
      (w := w.withTrees (p ++ t' :: (ts ++ q))) (List.append_cons _ _ _)
      (by rw [List.length_append, hk]; rfl)
    refine ⟨t' :: ts', ?_, .cons hpos hQ hstand⟩
    rw [List.append_assoc] at hrest
    simp only [withdraw]
    exact (Action.bind_of_ok (Action.try_of_ok (Action.discard_of_ok hrun))).trans hrest

/-- Purging a version goes through all indexes too, and tells whether one of them had it. -/
theorem purge_from_outcome (h : Stand P p.length ixs ts)
    (hw : w.table.store.trees = p ++ (ts ++ q)) (must may : Prop)
    (hremove : ∀ {k : Nat} {ix : Index} {t : Tree}, P k ix t →
      ∃ removed t', TreeAction.removeRow v.id t = .ok removed t' ∧ Q k ix t' ∧
        (must → removed = true) ∧ (removed = true → may)) :
    ∃ (removed : Bool) (ts' : List Tree),
      purgeFrom v ixs w = .ok removed (w.withTrees (p ++ (ts' ++ q))) ∧
      Stand Q p.length ixs ts' ∧ (ixs ≠ [] → must → removed = true) ∧
      (removed = true → ixs ≠ [] ∧ may) := by
  generalize hk : p.length = k at h
  induction h generalizing p w with
  | nil =>
    refine ⟨false, [], ?_, .nil, by simp, by simp⟩
    rw [← hw]
    rfl
  | @cons k ix ixs t ts hpos hP _ ih =>
    obtain ⟨removed, t', hrow, hQ, hmust, hmay⟩ := hremove hP
    have hrun := on_tree_of_ok hw (hpos.trans hk.symm) hrow
    obtain ⟨others, ts', hrest, hstand, -, hothers⟩ := ih (p := p ++ [t'])
      (w := w.withTrees (p ++ t' :: (ts ++ q))) (List.append_cons _ _ _)
      (by rw [List.length_append, hk]; rfl)
    refine ⟨others || removed, t' :: ts', ?_, .cons hpos hQ hstand, fun _ hfound => ?_,
      fun hany => ⟨List.cons_ne_nil _ _, ?_⟩⟩
    · rw [List.append_assoc] at hrest
      simp only [purgeFrom]
      apply (Action.bind_of_ok hrun).trans
      exact (Action.bind_of_ok hrest).trans rfl
    · rw [hmust hfound, Bool.or_true]
    · rcases Bool.or_eq_true _ _ ▸ hany with hany | hany
      · exact (hothers hany).2
      · exact hmay hany

/-- Putting a version into the rest of the indexes: where one refuses it, those that have taken it give
it back. -/
theorem insert_into_outcome {done rest : List Index} (txn : Transaction) (hdone : Stand Q 0 done p)
    (hrest : Stand P p.length rest q) (hw : w.table.store.trees = p ++ q)
    (hinsert : ∀ {k : Nat} {ix : Index} {t : Tree}, P k ix t →
      (∃ err, ix.insert (some (txn.visibility w.manager w.headers)) v t = .error err t) ∨
      ∃ t', ix.insert (some (txn.visibility w.manager w.headers)) v t = .ok () t' ∧ Q k ix t')
    (hremove : ∀ {k : Nat} {ix : Index} {t : Tree}, Q k ix t →
      ∃ removed t', TreeAction.removeRow v.id t = .ok removed t' ∧ R k ix t')
    (hkeep : ∀ {k : Nat} {ix : Index} {t : Tree}, P k ix t → R k ix t) :
    (∃ err ts, insertInto txn v done rest w = .error err (w.withTrees ts) ∧
      Stand R 0 (done ++ rest) ts) ∨
    (∃ ts, insertInto txn v done rest w = .ok () (w.withTrees ts) ∧
      Stand Q 0 (done ++ rest) ts) := by
  generalize hk : p.length = k at hrest
  -- By induction on the indexes that are left; those that are done have taken the version already.
  induction hrest generalizing done p w with
  | nil =>
    refine Or.inr ⟨p ++ [], ?_, ?_⟩
    · rw [← hw]
      rfl
    · simpa using hdone
  | @cons k ix ixs t ts hpos hP hrest ih =>
    have hsee : visibility txn w = .ok (txn.visibility w.manager w.headers) w := rfl
    simp only [insertInto]
    rw [Action.bind_of_ok hsee]
    rcases hinsert hP with ⟨err, hfail⟩ | ⟨t', hok, hQ⟩
    · have hrun := on_tree_of_error hw (hpos.trans hk.symm) hfail
      obtain ⟨p', hwithdraw, hback⟩ := withdraw_outcome (p := []) hdone hw hremove
      have hkept : Stand R k (ix :: ixs) (t :: ts) :=
        .cons hpos (hkeep hP) (hrest.imp fun _ _ => hkeep)
      refine Or.inl ⟨err, p' ++ t :: ts, ?_, hback.append ?_⟩
      · refine Action.bind_of_error ((Action.try_of_error hrun).trans ?_)
        exact (Action.bind_of_ok hwithdraw).trans rfl
      · rw [List.length_nil, Nat.zero_add, ← hdone.length_eq, hk]
        exact hkept
    · have hrun := on_tree_of_ok hw (hpos.trans hk.symm) hok
      have hat : 0 + done.length = k := by rw [Nat.zero_add, ← hdone.length_eq, hk]
      have hdone' : Stand Q 0 (done ++ [ix]) (p ++ [t']) :=
        hdone.append (.cons (hpos.trans hat.symm) (hat.symm ▸ hQ) .nil)
      have hnext := ih (w := w.withTrees (p ++ t' :: ts)) hdone' (List.append_cons _ _ _) hinsert
        (by rw [List.length_append, hk]; rfl)
      rw [List.append_assoc, List.singleton_append] at hnext
      rcases hnext with ⟨err, ts', hfail, hstand⟩ | ⟨ts', hall, hstand⟩
      · exact Or.inl ⟨err, ts', (Action.bind_of_ok (Action.try_of_ok hrun)).trans hfail, hstand⟩
      · exact Or.inr ⟨ts', (Action.bind_of_ok (Action.try_of_ok hrun)).trans hall, hstand⟩

/-- Filling a tree with versions, which all go in or the filling fails where one is refused. `I` is kept
by each of them: it speaks of the versions that are left and of the tree. -/
theorem fill_outcome {I : List Version → Tree → Prop} {l : List Version}
    (hw : w.table.store.trees = p ++ [t]) (hpos : ix.position = p.length) (hI : I l t)
    (hinsert : ∀ {v : Version} {l : List Version} {t : Tree}, I (v :: l) t →
      (∃ err, ix.insert none v t = .error err t) ∨
      ∃ t', ix.insert none v t = .ok () t' ∧ I l t') :
    ∃ t', (∃ err, fill ix l w = .error err (w.withTrees (p ++ [t'])) ∧
        ∃ (v : Version) (rest : List Version), I (v :: rest) t' ∧
          ix.insert none v t' = .error err t') ∨
      (fill ix l w = .ok () (w.withTrees (p ++ [t'])) ∧ I [] t') := by
  induction l generalizing t w with
  | nil =>
    refine ⟨t, Or.inr ⟨?_, hI⟩⟩
    rw [← hw]
    rfl
  | cons v l ih =>
    simp only [fill]
    rcases hinsert hI with ⟨err, hfail⟩ | ⟨t₁, hok, hI₁⟩
    · refine ⟨t, Or.inl ⟨err, ?_, v, l, hI, hfail⟩⟩
      rw [Action.bind_of_error (on_tree_of_error hw hpos hfail), ← hw]
      rfl
    · rw [Action.bind_of_ok (on_tree_of_ok hw hpos hok)]
      exact ih (w := w.withTrees (p ++ [t₁])) rfl hI₁

end Passes

end TableAction

/-- A tree on the way of being filled with `all`: it contains what is not left, in a unique index no two
versions with the same key, and it has no released slots. -/
structure Index.Fills (ix : Index) (all : Multiset Version) (l : List Version) (t : Tree) : Prop where
  contains : ∃ stored, all = ↑l + stored ∧ ix.Contains t stored ∧ ix.Distinct stored
  retired : t.retired = #[]
  free : t.free = #[]

namespace Index.Fills

variable {ix : Index} {all : Multiset Version} {l : List Version} {t : Tree} {v : Version}

theorem empty (ix : Index) (l : List Version) : ix.Fills ↑l l {} where
  contains := ⟨0, (add_zero _).symm, .empty ix, fun _ u hu => absurd hu (Multiset.notMem_zero u)⟩
  retired := rfl
  free := rfl

theorem filled (h : ix.Fills all [] t) : ix.Contains t all ∧ ix.Distinct all := by
  obtain ⟨stored, hall, hcontains, hdistinct⟩ := h.contains
  rw [Multiset.coe_nil, zero_add] at hall
  exact hall ▸ ⟨hcontains, hdistinct⟩

section Insert

variable (hcard : all.card ≤ Tree.nodeIdLimit) (haccepts : ∀ v ∈ all, ix.order.Accepts v.data)
  (hids : (all.map (·.id)).Nodup)

include hcard in
/-- A new tree has no released slots, so its room shrinks with each version that goes in. -/
theorem has_room (h : ix.Fills all (v :: l) t) : t.HasRoom := by
  obtain ⟨stored, hall, hcontains, -⟩ := h.contains
  refine hcontains.has_room h.retired h.free (lt_of_lt_of_le ?_ hcard)
  rw [hall, Multiset.card_add, Multiset.coe_card, List.length_cons]
  omega

theorem mem_all (h : ix.Fills all (v :: l) t) : v ∈ all := by
  obtain ⟨stored, hall, -⟩ := h.contains
  simp [hall]

include hids in
theorem fresh (h : ix.Fills all (v :: l) t) : ∀ u ∈ t.versions, u.id ≠ v.id := by
  obtain ⟨stored, hall, hcontains, -⟩ := h.contains
  intro u hu hsame
  have hsplit : all = v ::ₘ (↑l + stored) := by
    rw [hall, ← Multiset.cons_coe, Multiset.cons_add]
  rw [hsplit, Multiset.map_cons, Multiset.nodup_cons] at hids
  have hmem : u ∈ ↑l + stored := Multiset.mem_add.mpr (Or.inr (hcontains.mem_versions.mp hu))
  exact hids.1 (Multiset.mem_map.mpr ⟨u, hmem, hsame⟩)

include hcard haccepts hids

/-- The next version, which has a row of its own, goes in or is refused. -/
theorem insert (h : ix.Fills all (v :: l) t) :
    (∃ err, ix.insert none v t = .error err t) ∨
    ∃ t', ix.insert none v t = .ok () t' ∧ ix.Fills all l t' := by
  obtain ⟨stored, hall, hcontains, hdistinct⟩ := h.contains
  have hfresh : ∀ u ∈ stored, u.id ≠ v.id :=
    fun u hu => h.fresh hids u (hcontains.mem_versions.mpr hu)
  rcases hcontains.insert none (h.has_room hcard) (haccepts v h.mem_all) hfresh with
    hfail | ⟨t', hok, hcontains', hvacant, hretired, hfree⟩
  · exact Or.inl hfail
  · refine Or.inr ⟨t', hok, ⟨v ::ₘ stored, ?_, hcontains', ?_⟩, hretired.trans h.retired, ?_⟩
    · rw [hall, ← Multiset.cons_coe, Multiset.cons_add, Multiset.add_cons]
    · exact hdistinct.cons hvacant
    · rw [hfree, Tree.allocate, h.free]
      rfl

/-- The next version is refused only if its key is taken, and then the error says so. -/
theorem refused (h : ix.Fills all (v :: l) t) {err : Error} {t' : Tree}
    (hfail : ix.insert none v t = .error err t') :
    ¬ix.Distinct all ∧ err = .duplicateKey ix.name ix.constraint := by
  obtain ⟨stored, hall, hcontains, -⟩ := h.contains
  obtain ⟨s, hs, rfl⟩ := hcontains
  have hv := haccepts v h.mem_all
  rcases hs.sorts.insert_cases none (h.has_room hcard) hv.suits with
    ⟨⟨u, hu, hkey, hout⟩, err', hfail', e, -, hconflict⟩ | ⟨-, t'', -, -, hok, -⟩
  · cases hfail'.symm.trans hfail
    have hsame := hconflict.symm.trans (Tree.Holds.conflict_none ix t e.id)
    refine ⟨fun hdistinct => ?_, Except.ok.inj hsame⟩
    have hmem : u ∈ t.versions := by
      rw [hs.holds.versions_eq]
      exact hu
    have hne : u.id ≠ v.id := h.fresh hids u hmem
    have huall : u ∈ all := hall ▸ Multiset.mem_add.mpr (Or.inr hu)
    obtain ⟨hunique, hnull, -⟩ := hout.resolve_left hne
    rw [KeyOrder.compareRows_eq_keyOrder hv (haccepts u huall)] at hkey
    have hunull : ix.order.hasNull u.data = false :=
      (KeyOrder.hasNull_eq_of_keyOrder hkey).symm.trans hnull
    -- Two of the versions that go in have this key, so not all of them can.
    exact hdistinct hunique v h.mem_all u huall (fun heq => hne (congrArg Version.id heq.symm)) hnull
      hunull hkey
  · cases hok.symm.trans hfail

end Insert

end Index.Fills

end VersionedIndex
