import VersionedIndex.Proofs.Table.Snapshot
import VersionedIndex.Proofs.Table.Unique

/-! Duplicate keys in a snapshot. A unique index checks a key by what has happened by now, and a
read goes by the snapshot, so a transaction can insert a key that it still reads. -/

namespace VersionedIndex

namespace History

variable {h earlier : History} {u v : Version} {x : Xid} {txn : Transaction}

def Succeeds (h : History) (v u : Version) : Prop :=
  ∃ earlier : History, .created v :: earlier <:+ h ∧
    (earlier.Gone u ∨ .deleted u v.creator ∈ earlier)

/-- A transaction has created `v` after another one, which it does not see, had deleted `u` and
committed. -/
def Reinserts (h : History) (txn : Transaction) (u v : Version) : Prop :=
  v.creator = txn.xid ∧ ∃ (x : Xid) (earlier : History), .created v :: earlier <:+ h ∧
    .deleted u x ∈ earlier ∧ .committed x ∈ earlier ∧ ¬h.Sees txn x

theorem Succeeds.cons (hvu : h.Succeeds v u) (e : Event) : Succeeds (e :: h) v u := by
  obtain ⟨earlier, hsuffix, hout⟩ := hvu
  exact ⟨earlier, hsuffix.trans (List.suffix_cons e h), hout⟩

/-- A creation that a transaction sees, unless it is its own, lies before its begin, and so does what
had happened by then. -/
theorem Legal.mem_past_of_created (hl : h.Legal) (ht : .began txn ∈ h)
    (hv : .created v :: earlier <:+ h) (hseen : .committed v.creator ∈ h.past txn) {e : Event}
    (he : e ∈ earlier) : e ∈ h.past txn := by
  have hrunning := (hl.of_suffix hv).follows.1
  rcases List.suffix_or_suffix_of_suffix hv (past_suffix ht) with hsuffix | hsuffix
  · rcases List.suffix_cons_iff.mp hsuffix with hsame | hsuffix
    · cases hsame
    · exact hsuffix.subset (List.mem_cons_of_mem _ he)
  · have hpast : h.past txn <:+ .created v :: earlier :=
      (List.suffix_cons (.began txn) (h.past txn)).trans hsuffix
    have hcommitted := (List.mem_cons.mp (hpast.subset hseen)).resolve_left nofun
    exact absurd hcommitted hrunning.2.1

theorem not_aborted_of_reads (hl : h.Legal) (hrunning : h.Running txn.xid) (hread : h.Reads txn u) :
    .aborted u.creator ∉ h := by
  rcases hread.1 with hown | hcommitted
  · rw [hown]
    exact hrunning.2.2
  · exact hl.not_aborted_of_committed (mem_of_mem_past hcommitted)

/-- Who reads a version and one that it came after has created it itself, not seeing the deletion of
the other one. -/
theorem Succeeds.reinserts (hvu : h.Succeeds v u) (hl : h.Legal) (ht : .began txn ∈ h)
    (hrunning : h.Running txn.xid) (hu : h.Reads txn u) (hv : h.Reads txn v) :
    h.Reinserts txn u v := by
  obtain ⟨earlier, hsuffix, hout⟩ := hvu
  have hsub (e : Event) (he : e ∈ earlier) : e ∈ h := hsuffix.subset (List.mem_cons_of_mem _ he)
  have hunseen (x : Xid) (hdeleted : .deleted u x ∈ earlier) : ¬h.Sees txn x :=
    hu.2 x (mem_deleters.mpr (hsub _ hdeleted))
  rcases hout with (haborted | ⟨x, hdeleted, hcommitted⟩) | hdeleted
  · exact absurd (hsub _ haborted) (not_aborted_of_reads hl hrunning hu)
  · refine ⟨?_, x, earlier, hsuffix, hdeleted, hcommitted, hunseen x hdeleted⟩
    rcases hv.1 with hown | hseen
    · exact hown
    · -- Another creator committed before the snapshot, and then the deleter had done so too.
      have hpast := hl.mem_past_of_created ht hsuffix hseen hcommitted
      exact absurd (Or.inr hpast) (hunseen x hdeleted)
  · exact absurd hv.1 (hunseen v.creator hdeleted)

end History

/-- Of two versions with one key one has come after the other. -/
theorem Ledger.succeeds_lasting :
    Ledger.Lasting fun h u v => h.Succeeds u v ∨ h.Succeeds v u where
  symm := Or.symm
  cons e huv := huv.imp (·.cons e) (·.cons e)
  created {h _ _} _ hout := Or.inr ⟨h, List.suffix_rfl, hout⟩

namespace Run

variable {r : Run} {txn : Transaction}

def reinsertionCalls : List Call := [
  .addIndex { IndexDefinition.plain "keys" 1 [0] [.bigint] with unique := true } {},
  .begin,
  .insert ⟨1, []⟩ [.bigint 5],
  .commit ⟨1, []⟩,
  .begin,
  .begin,
  .delete ⟨3, [2]⟩ ⟨0, 1, [.bigint 5], 1⟩,
  .commit ⟨3, [2]⟩,
  .insert ⟨2, []⟩ [.bigint 5]]

def reinsertion : Run := sampleStart.after reinsertionCalls

theorem reinsertion_reaches : Reaches reinsertion :=
  sample_start_reaches.after (by decide +kernel)

theorem reinsertion_same_key :
    let u : Version := ⟨0, 1, [.bigint 5], 1⟩
    let v : Version := ⟨1, 2, [.bigint 5], 2⟩
    ∃ ix, reinsertion.work.table.indexes[0]? = some ix ∧ ix.unique = true ∧
      ix.order.compareRows u.data v.data = .eq ∧ ix.order.hasNull u.data = false ∧
      ix.order.hasNull v.data = false := by
  intro u v
  have hall : ∀ ix ∈ reinsertion.work.table.indexes, ix.unique = true ∧
      ix.order.compareRows u.data v.data = .eq ∧ ix.order.hasNull u.data = false ∧
      ix.order.hasNull v.data = false := by
    decide +kernel
  obtain ⟨ix, hix⟩ : ∃ ix, reinsertion.work.table.indexes[0]? = some ix :=
    Option.isSome_iff_exists.mp (by decide +kernel)
  exact ⟨ix, hix, hall ix (List.mem_of_getElem? hix)⟩

/-- The transaction that has inserted the key again reads it twice. -/
theorem reinsertion_reads_twice :
    let u : Version := ⟨0, 1, [.bigint 5], 1⟩
    let v : Version := ⟨1, 2, [.bigint 5], 2⟩
    Reaches reinsertion ∧ reinsertion.history.begun.length < 2 ^ 32 - 2 ∧
    .began ⟨2, []⟩ ∈ reinsertion.history ∧ reinsertion.work.manager.isActive 2 = true ∧
    (∃ ix, reinsertion.work.table.indexes[0]? = some ix ∧ ix.unique = true ∧
      ix.order.compareRows u.data v.data = .eq ∧ ix.order.hasNull u.data = false ∧
      ix.order.hasNull v.data = false) ∧
    u ≠ v ∧ ((TableAction.scan ⟨2, []⟩ 0).outcome reinsertion.work).1 = .ok [u, v] :=
  ⟨reinsertion_reaches, by decide +kernel, by decide +kernel, by decide +kernel,
    reinsertion_same_key, by decide +kernel, by decide +kernel⟩

/-- While the ids of transactions last, a running transaction that reads two versions with the same key
without a NULL in a unique index has created one of them itself, after a transaction that it does not
see had deleted the other one and committed. -/
theorem Reaches.duplicates_reinserted (h : Reaches r) (hfew : r.history.begun.length < 2 ^ 32 - 2)
    (ht : .began txn ∈ r.history) (hactive : r.work.manager.isActive txn.xid = true)
    {position : Nat} {ix : Index} (hix : r.work.table.indexes[position]? = some ix)
    (hunique : ix.unique = true) :
    ∃ rows, ((TableAction.scan txn position).outcome r.work).1 = .ok rows ∧
      ∀ u ∈ rows, ∀ v ∈ rows, u ≠ v → ix.order.compareRows u.data v.data = .eq →
        ix.order.hasNull u.data = false → ix.order.hasNull v.data = false →
        r.history.Reinserts txn u v ∨ r.history.Reinserts txn v u := by
  obtain ⟨stored, hholds, -, hledger⟩ := h.invariant Ledger.related_empty
    fun hsound _ hchange hrelated => hchange.related hsound Ledger.succeeds_lasting hrelated
  obtain ⟨hsound, hrelated⟩ := hledger (Nat.lt_of_lt_pred hfew)
  have hrunning : r.history.Running txn.xid := (hsound.manager.active txn.xid).mp hactive
  obtain ⟨rows, hscan, -, haccepted, hmem⟩ := scan_reads hholds hsound ht hrunning hix
  refine ⟨rows, hscan, fun u hu v hv hne hkey hunull hvnull => ?_⟩
  obtain ⟨hustored, huread⟩ := (hmem u).mp hu
  obtain ⟨hvstored, hvread⟩ := (hmem v).mp hv
  rw [KeyOrder.compareRows_eq_keyOrder (haccepted u hu) (haccepted v hv)] at hkey
  have hmem_ix : ix.definition ∈ r.work.table.definitions :=
    List.mem_map_of_mem (List.mem_of_getElem? hix)
  rcases hrelated ix.definition hmem_ix hunique u hustored v hvstored hne hunull hvnull hkey with
    hsucceeds | hsucceeds
  · exact Or.inr (hsucceeds.reinserts hsound.legal ht hrunning hvread huread)
  · exact Or.inl (hsucceeds.reinserts hsound.legal ht hrunning huread hvread)

/-- In the run in which a key is inserted again it is the later version that has come after the deletion
of the other one. -/
theorem reinsertion_reinserted :
    let u : Version := ⟨0, 1, [.bigint 5], 1⟩
    let v : Version := ⟨1, 2, [.bigint 5], 2⟩
    ((TableAction.scan ⟨2, []⟩ 0).outcome reinsertion.work).1 = .ok [u, v] ∧
      (reinsertion.history.Reinserts ⟨2, []⟩ u v ∨ reinsertion.history.Reinserts ⟨2, []⟩ v u) := by
  intro u v
  obtain ⟨ix, hix, hunique, hkey, hunull, hvnull⟩ := reinsertion_same_key
  have hbegan : .began ⟨2, []⟩ ∈ reinsertion.history := by decide +kernel
  obtain ⟨rows, hscan, hrows⟩ := reinsertion_reaches.duplicates_reinserted (by decide +kernel) hbegan
    (by decide +kernel) hix hunique
  have hboth : ((TableAction.scan ⟨2, []⟩ 0).outcome reinsertion.work).1 = .ok [u, v] := by
    decide +kernel
  obtain rfl := Except.ok.inj (hscan.symm.trans hboth)
  exact ⟨hboth, hrows u (by simp) v (by simp) (by decide +kernel) hkey hunull hvnull⟩

end Run

end VersionedIndex
