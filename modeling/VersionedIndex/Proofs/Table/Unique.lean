import VersionedIndex.Proofs.Table.Runs

/-! Unique keys. Of two stored versions with one key one is gone for good, or the one that is still
pending replaces the other, whatever the other transactions do. -/

namespace VersionedIndex

namespace History

variable {h : History} {e : Event} {u v : Version} {x y : Xid}

def Counts (h : History) (x y : Xid) : Prop := y = x ∨ .committed y ∈ h

def Refers (h : History) (x : Xid) (v : Version) : Prop :=
  h.Counts x v.creator ∧ ∀ y ∈ h.deleters v, ¬h.Counts x y

/-- The creator has aborted or a deletion has been committed. -/
def Gone (h : History) (v : Version) : Prop :=
  .aborted v.creator ∈ h ∨ ∃ x, .deleted v x ∈ h ∧ .committed x ∈ h

def Replaces (h : History) (v u : Version) : Prop :=
  .deleted u v.creator ∈ h ∧ h.Running v.creator

/-- One of two versions is gone or is being replaced by the other. -/
def Exclusive (h : History) (u v : Version) : Prop :=
  h.Gone u ∨ h.Gone v ∨ h.Replaces u v ∨ h.Replaces v u

theorem Gone.cons (hv : h.Gone v) (e : Event) : Gone (e :: h) v := by
  rcases hv with haborted | ⟨x, hdeleted, hcommitted⟩
  · exact Or.inl (List.mem_cons_of_mem e haborted)
  · exact Or.inr ⟨x, List.mem_cons_of_mem e hdeleted, List.mem_cons_of_mem e hcommitted⟩

/-- When the creator of the replacement ends, the one version or the other is gone. -/
theorem Replaces.cons (hv : h.Replaces v u) (e : Event) :
    Gone (e :: h) u ∨ Gone (e :: h) v ∨ Replaces (e :: h) v u := by
  obtain ⟨hdeleted, hrunning⟩ := hv
  have hdeleted' : .deleted u v.creator ∈ e :: h := List.mem_cons_of_mem e hdeleted
  by_cases hcommit : e = .committed v.creator
  · exact Or.inl (Or.inr ⟨v.creator, hdeleted', hcommit ▸ List.mem_cons_self⟩)
  · by_cases habort : e = .aborted v.creator
    · exact Or.inr (Or.inl (Or.inl (habort ▸ List.mem_cons_self)))
    · exact Or.inr (Or.inr ⟨hdeleted', hrunning.cons hcommit habort⟩)

namespace Exclusive

theorem symm (huv : h.Exclusive u v) : h.Exclusive v u := by
  rcases huv with hu | hv | huv | hvu
  · exact Or.inr (Or.inl hu)
  · exact Or.inl hv
  · exact Or.inr (Or.inr (Or.inr huv))
  · exact Or.inr (Or.inr (Or.inl hvu))

/-- No event makes both versions live. -/
theorem cons (huv : h.Exclusive u v) (e : Event) : Exclusive (e :: h) u v := by
  rcases huv with hu | hv | huv | hvu
  · exact Or.inl (hu.cons e)
  · exact Or.inr (Or.inl (hv.cons e))
  · rcases huv.cons e with hv | hu | huv
    · exact Or.inr (Or.inl hv)
    · exact Or.inl hu
    · exact Or.inr (Or.inr (Or.inl huv))
  · rcases hvu.cons e with hu | hv | hvu
    · exact Or.inl hu
    · exact Or.inr (Or.inl hv)
    · exact Or.inr (Or.inr (Or.inr hvu))

end Exclusive

theorem Gone.not_refers (hl : h.Legal) (hv : h.Gone v) (hx : .aborted x ∉ h) : ¬h.Refers x v := by
  rintro ⟨hcreated, hstands⟩
  rcases hv with haborted | ⟨y, hdeleted, hcommitted⟩
  · rcases hcreated with hown | hcommitted
    · exact hx (hown ▸ haborted)
    · exact hl.not_aborted_of_committed hcommitted haborted
  · exact hstands y (mem_deleters.mpr hdeleted) (Or.inr hcommitted)

theorem Replaces.not_refers (hvu : h.Replaces v u) (hv : h.Refers x v) : ¬h.Refers x u := by
  rintro ⟨-, hstands⟩
  refine hstands v.creator (mem_deleters.mpr hvu.1) (Or.inl ?_)
  exact hv.1.resolve_right hvu.2.2.1

theorem Exclusive.not_both (hl : h.Legal) (huv : h.Exclusive u v) (hx : .aborted x ∉ h) :
    ¬(h.Refers x u ∧ h.Refers x v) := by
  rintro ⟨hu, hv⟩
  rcases huv with hgone | hgone | hreplaces | hreplaces
  · exact hgone.not_refers hl hx hu
  · exact hgone.not_refers hl hx hv
  · exact hreplaces.not_refers hu hv
  · exact hreplaces.not_refers hv hu

theorem refers_of_reads {txn : Transaction} (hread : Reads (.began txn :: h) txn v) :
    h.Refers txn.xid v := by
  have hpast : past txn (.began txn :: h) = h := if_pos rfl
  have hsees (y : Xid) : Sees (.began txn :: h) txn y ↔ h.Counts txn.xid y := by
    rw [Sees, hpast, Counts]
  have hdeleters : deleters v (.began txn :: h) = deleters v h := rfl
  simp only [Reads, hdeleters, hsees] at hread
  exact hread

end History

namespace Ledger

variable {s s' : Ledger} {u v : Version} {txn : Transaction} {author : Option Xid} {purges : Bool}

/-- A running transaction can refer to exactly what the history says. -/
theorem Sound.can_refer_iff (h : s.Sound) (hactive : s.manager.isActive txn.xid = true)
    (hv : v ∈ s.stored) :
    txn.canRead s.manager s.headers v .reference = true ↔ s.history.Refers txn.xid v := by
  have hrunning := (h.manager.active txn.xid).mp hactive
  have hcounts (x : Xid) (hx : s.Mentions v x) :
      (x == txn.xid || s.manager.isCommitted x) = true ↔ s.history.Counts txn.xid x := by
    rw [Bool.or_eq_true, beq_iff_eq, h.is_committed_iff hv hx, History.Counts]
  have hended (x : Xid) (hx : s.history.Counts txn.xid x) : .aborted x ∉ s.history := by
    rcases hx with rfl | hcommitted
    · exact hrunning.2.2
    · exact h.legal.not_aborted_of_committed hcommitted
  rw [Transaction.canRead, Bool.and_eq_true]
  exact and_congr (hcounts v.creator (Or.inl rfl)) (h.stands_iff hv hcounts hended)

/-- A version that does not keep out a new one of a running transaction is gone or has been deleted by
that transaction. -/
theorem Sound.gone_of_not_duplicate (h : s.Sound) (hv : v ∈ s.stored)
    (hread : txn.canRead s.manager s.headers v .duplicate = false) :
    s.history.Gone v ∨ .deleted v txn.xid ∈ s.history := by
  rw [Transaction.canRead, Bool.and_eq_false_iff, Bool.not_eq_false'] at hread
  rcases hread with haborted | hstands
  · exact Or.inl (Or.inl (h.manager.aborted v.creator haborted))
  · cases hdeleter : s.headers.deleter? v with
    | none =>
      simp only [hdeleter] at hstands
      cases hstands
    | some x =>
      have hx := h.headers.stamped v x (h.created v hv) hdeleter
      simp only [hdeleter, Bool.and_eq_false_iff, bne_eq_false_iff_eq, Bool.not_eq_false'] at hstands
      rcases hstands with rfl | hcommitted
      · exact Or.inr hx
      · exact Or.inl (Or.inr ⟨x, hx, (h.is_committed_iff hv (Or.inr hdeleter)).mp hcommitted⟩)

/-- A version beside which a new one with its key has been let in is gone, or the transaction that
creates the new one has deleted it. -/
theorem Sound.gone_of_vacant (h : s.Sound) {id : RowId} {row : Row} {headers : Headers}
    (hcreate : (v, headers) = s.headers.create id row txn.xid) {ix : Index}
    (hvacant : ix.Vacant (some (txn.visibility s.manager headers)) v s.stored)
    (hunique : ix.unique = true) (hnull : ix.order.hasNull v.data = false) (hu : u ∈ s.stored)
    (hkey : ix.order.keyOrder v u = .eq) : s.history.Gone u ∨ .deleted u txn.xid ∈ s.history := by
  obtain ⟨see, hsee, -, hread⟩ := hvacant hunique hnull u hu hkey
  obtain rfl := Option.some.inj hsee
  obtain rfl : headers = (s.headers.create id row txn.xid).2 := congrArg Prod.snd hcreate
  refine h.gone_of_not_duplicate hu ?_
  rw [← hread]
  simp only [Transaction.visibility, Transaction.canRead, Headers.deleter_create]

def Related (R : History → Version → Version → Prop) (s : Ledger) : Prop :=
  ∀ ix ∈ s.definitions, ix.unique = true → ∀ u ∈ s.stored, ∀ v ∈ s.stored, u ≠ v →
    ix.order.hasNull u.data = false → ix.order.hasNull v.data = false →
    ix.order.keyOrder u v = .eq → R s.history u v

section Related

variable {R : History → Version → Version → Prop}

/-- A relation that does not depend on the order of the two versions, that holds on whatever happens,
and that relates a new version to those that are out of its way when it is created. -/
structure Lasting (R : History → Version → Version → Prop) : Prop where
  symm : ∀ {h : History} {u v : Version}, R h u v → R h v u
  cons : ∀ {h : History} {u v : Version} (e : Event), R h u v → R (e :: h) u v
  created : ∀ {h : History} {u v : Version}, h.Running v.creator →
    h.Gone u ∨ .deleted u v.creator ∈ h → R (.created v :: h) u v

/-- An event without a new version. -/
theorem Related.event (hrelated : s.Related R) (hlasting : Lasting R) (e : Event)
    {manager : Manager} {headers : Headers} :
    Related R { s with manager, headers, history := e :: s.history } :=
  fun ix hix hunique u hu v hv hne hnull hnull' hkey =>
    hlasting.cons e (hrelated ix hix hunique u hu v hv hne hnull hnull' hkey)

/-- A new version that none of the indexes keeps out. -/
theorem Related.created (hrelated : s.Related R) (hlasting : Lasting R) (h : s.Sound)
    (hactive : s.manager.isActive txn.xid = true) {id : RowId} {row : Row} {headers : Headers}
    (hcreate : (v, headers) = s.headers.create id row txn.xid)
    (hvacant : ∀ ix ∈ s.definitions, ix.Vacant (some (txn.visibility s.manager headers)) v s.stored) :
    Related R { s with
      stored := v ::ₘ s.stored, headers, history := .created v :: s.history } := by
  have hcreator : v.creator = txn.xid := congrArg (·.1.creator) hcreate
  have hrunning : s.history.Running v.creator := hcreator ▸ (h.manager.active txn.xid).mp hactive
  have hnew (ix : Index) (hix : ix ∈ s.definitions) (hunique : ix.unique = true) (u : Version)
      (hu : u ∈ s.stored) (hnull : ix.order.hasNull v.data = false)
      (hkey : ix.order.keyOrder v u = .eq) : R (.created v :: s.history) u v := by
    refine hlasting.created hrunning ?_
    rw [hcreator]
    exact h.gone_of_vacant hcreate (hvacant ix hix) hunique hnull hu hkey
  intro ix hix hunique a ha b hb hne hanull hbnull hkey
  -- Of two versions one may be the new one; the order in which they are named does not matter.
  rcases Multiset.mem_cons.mp ha with rfl | ha'
  · have hb' := (Multiset.mem_cons.mp hb).resolve_left hne.symm
    exact hlasting.symm (hnew ix hix hunique b hb' hanull hkey)
  · rcases Multiset.mem_cons.mp hb with rfl | hb'
    · exact hnew ix hix hunique a ha' hbnull (Std.OrientedCmp.eq_symm hkey)
    · exact hlasting.cons _ (hrelated ix hix hunique a ha' b hb' hne hanull hbnull hkey)

/-- Every small change keeps versions with one key related. -/
theorem Change.related (hchange : s.Change author purges s') (h : s.Sound) (hlasting : Lasting R)
    (hrelated : s.Related R) : s'.Related R := by
  cases hchange with
  | began => exact hrelated.event hlasting _
  | committed _ _ => exact hrelated.event hlasting _
  | aborted _ _ => exact hrelated.event hlasting _
  | created _ hactive hcreate hvacant =>
    exact hrelated.created hlasting h hactive hcreate hvacant
  | deleted _ _ _ _ => exact hrelated.event hlasting _
  | loosened _ _ => exact hrelated
  | forgot _ _ => exact hrelated
  | dropped hle _ =>
    intro ix hix hunique u hu v hv
    exact hrelated ix hix hunique u (Multiset.mem_of_le hle hu) v (Multiset.mem_of_le hle hv)
  | @indexed added hdistinct =>
    intro ix hix hunique u hu v hv hne hnull hnull' hkey
    rcases List.mem_append.mp hix with hold | hnew
    · exact hrelated ix hold hunique u hu v hv hne hnull hnull' hkey
    · obtain rfl := List.mem_singleton.mp hnew
      -- The index has been filled with all versions, which it would have refused otherwise.
      exact absurd hkey (hdistinct hunique u hu v hv hne hnull hnull')

theorem related_empty : empty.Related R := fun _ _ _ u hu => absurd hu (Multiset.notMem_zero u)

end Related

/-- A version that is gone, or that the creator of the new one has deleted, and the new one exclude
each other. -/
theorem exclusive_lasting : Lasting History.Exclusive where
  symm := History.Exclusive.symm
  cons e huv := huv.cons e
  created {h u v} hrunning hout := by
    refine History.Exclusive.cons ?_ (.created v)
    rcases hout with hgone | hdeleted
    · exact Or.inl hgone
    · -- The deleter has not committed: it is the creator of the new version, which still runs.
      exact Or.inr (Or.inr (Or.inr ⟨hdeleted, hrunning⟩))

end Ledger

namespace Run

variable {r : Run} {u v : Version}

/-- Two stored versions with one key in a unique index exclude each other. -/
theorem Reaches.exclusive (h : Reaches r) (hfew : r.history.begun.length < 2 ^ 32 - 1) :
    ∃ stored, r.work.table.Holds stored ∧ (r.ledger stored).Sound ∧
      (r.ledger stored).Related History.Exclusive := by
  obtain ⟨stored, hholds, -, hledger⟩ := h.invariant Ledger.related_empty
    fun hsound _ hchange hrelated => hchange.related hsound Ledger.exclusive_lasting hrelated
  exact ⟨stored, hholds, hledger hfew⟩

/-- While the ids of transactions last, no running transaction can refer to two stored versions that
have the same key without a NULL in a unique index, and a transaction that begins now reads at most one
of them. -/
theorem Reaches.keys_unique (h : Reaches r) (hfew : r.history.begun.length < 2 ^ 32 - 2)
    {ix : Index} (hix : ix ∈ r.work.table.indexes) (hunique : ix.unique = true)
    (hu : r.work.table.Stores u) (hv : r.work.table.Stores v) (hne : u ≠ v)
    (hkey : ix.order.compareRows u.data v.data = .eq) (hunull : ix.order.hasNull u.data = false)
    (hvnull : ix.order.hasNull v.data = false) :
    (∀ txn : Transaction, r.work.manager.isActive txn.xid = true →
      ¬(txn.canRead r.work.manager r.work.headers u .reference = true ∧
        txn.canRead r.work.manager r.work.headers v .reference = true)) ∧
    let (txn, manager) := r.work.manager.begin
    ¬(txn.canRead manager r.work.headers u .read = true ∧
      txn.canRead manager r.work.headers v .read = true) := by
  obtain ⟨stored, hholds, hsound, hheld⟩ := h.exclusive (Nat.lt_of_lt_pred hfew)
  rw [hholds.stores_iff] at hu hv
  have hexclusive : r.history.Exclusive u v := by
    rw [KeyOrder.compareRows_eq_keyOrder (hholds.accepts hix (hholds.valid u hu))
      (hholds.accepts hix (hholds.valid v hv))] at hkey
    exact hheld ix.definition (List.mem_map_of_mem hix) hunique u hu v hv hne hunull hvnull hkey
  constructor
  · intro txn hactive
    have hrunning := (hsound.manager.active txn.xid).mp hactive
    rintro ⟨hreadu, hreadv⟩
    exact hexclusive.not_both hsound.legal hrunning.2.2
      ⟨(hsound.can_refer_iff hactive hu).mp hreadu, (hsound.can_refer_iff hactive hv).mp hreadv⟩
  · have hbegin : (r.ledger stored).Change none false ((r.step .begin).ledger stored) := .began
    have hsound' := hsound.change hbegin (Nat.add_lt_of_lt_sub hfew)
    have hbegan : .began r.work.manager.begin.1 ∈ (r.step .begin).history := List.mem_cons_self
    have hactive : r.work.manager.begin.2.isActive r.work.manager.begin.1.xid = true :=
      Manager.is_active_iff.mpr (List.mem_insert_self ..)
    have hrunning := (hsound'.manager.active _).mp hactive
    rintro ⟨hreadu, hreadv⟩
    have hu' := History.refers_of_reads ((hsound'.can_read_iff hbegan hactive hu).mp hreadu)
    have hv' := History.refers_of_reads ((hsound'.can_read_iff hbegan hactive hv).mp hreadv)
    refine hexclusive.not_both hsound.legal (fun haborted => ?_) ⟨hu', hv'⟩
    exact hrunning.2.2 (List.mem_cons_of_mem _ haborted)

/-- In the sample both the replaced version and the one that replaces it are stored. -/
theorem sample_keys_unique :
    let u : Version := ⟨0, 1, [.bigint 5], 1⟩
    let v : Version := ⟨1, 2, [.bigint 5], 3⟩
    sample.work.table.Stores u ∧ sample.work.table.Stores v ∧
    (∀ txn : Transaction, sample.work.manager.isActive txn.xid = true →
      ¬(txn.canRead sample.work.manager sample.work.headers u .reference = true ∧
        txn.canRead sample.work.manager sample.work.headers v .reference = true)) ∧
    let (txn, manager) := sample.work.manager.begin
    ¬(txn.canRead manager sample.work.headers u .read = true ∧
      txn.canRead manager sample.work.headers v .read = true) := by
  intro u v
  have hu : sample.work.table.Stores u := by decide +kernel
  have hv : sample.work.table.Stores v := by decide +kernel
  obtain ⟨ix, hix, hunique, hkey, hunull, hvnull⟩ : ∃ ix ∈ sample.work.table.indexes,
      ix.unique = true ∧ ix.order.compareRows u.data v.data = .eq ∧
      ix.order.hasNull u.data = false ∧ ix.order.hasNull v.data = false := by
    decide +kernel
  exact ⟨hu, hv, sample_reaches.keys_unique (by decide +kernel) hix hunique hu hv (by decide +kernel)
    hkey hunull hvnull⟩

end Run

end VersionedIndex
