import Mathlib.Data.List.Basic
import Mathlib.Data.List.Infix
import VersionedIndex.Transaction

namespace VersionedIndex

inductive Event where
  | began (txn : Transaction)
  | committed (xid : Xid)
  | aborted (xid : Xid)
  | created (v : Version)
  | deleted (v : Version) (xid : Xid)
deriving DecidableEq, Repr

abbrev History : Type := List Event

namespace History

def begun : History → List Transaction
  | [] => []
  | .began txn :: h => txn :: begun h
  | _ :: h => begun h

def past (txn : Transaction) : History → History
  | [] => []
  | e :: h => if e = .began txn then h else past txn h

def deleters (v : Version) : History → List Xid
  | [] => []
  | .deleted w x :: h => if w = v then x :: deleters v h else deleters v h
  | _ :: h => deleters v h

def Sees (h : History) (txn : Transaction) (x : Xid) : Prop :=
  x = txn.xid ∨ .committed x ∈ h.past txn

/-- A transaction reads the versions whose creation it sees and no deletion of which it sees. -/
def Reads (h : History) (txn : Transaction) (v : Version) : Prop :=
  h.Sees txn v.creator ∧ ∀ x ∈ h.deleters v, ¬h.Sees txn x

instance (h : History) (txn : Transaction) : DecidablePred (h.Sees txn) :=
  fun _ => inferInstanceAs (Decidable (_ ∨ _))

instance (h : History) (txn : Transaction) : DecidablePred (h.Reads txn) :=
  fun _ => inferInstanceAs (Decidable (_ ∧ _))

def Running (h : History) (x : Xid) : Prop :=
  (∃ txn, .began txn ∈ h ∧ txn.xid = x) ∧ .committed x ∉ h ∧ .aborted x ∉ h

end History

/-- An event is possible after a history. Transactions are numbered in the order of their begins, and
what runs then is in progress for them; only running transactions do something; a version is new;
and a version that another transaction has deleted cannot be deleted, unless that one has aborted. -/
def Event.Follows (h : History) : Event → Prop
  | .began txn => txn.xid.toNat = h.begun.length + 1 ∧ ∀ x, x ∈ txn.inProgress ↔ h.Running x
  | .committed x => h.Running x
  | .aborted x => h.Running x
  | .created v => h.Running v.creator ∧ ∀ u, .created u ∈ h → u.header ≠ v.header
  | .deleted v x =>
    h.Running x ∧ .created v ∈ h ∧ ∀ y, .deleted v y ∈ h → y = x ∨ .aborted y ∈ h

inductive History.Legal : History → Prop
  | nil : Legal []
  | cons {e : Event} {h : History} : e.Follows h → Legal h → Legal (e :: h)

namespace History

variable {h : History} {e : Event} {txn s : Transaction} {v u : Version} {x y : Xid}

theorem begun_append (h h' : History) : begun (h ++ h') = h.begun ++ begun h' := by
  induction h with
  | nil => rfl
  | cons e h ih => cases e <;> simp [begun, ih]

theorem mem_deleters : x ∈ h.deleters v ↔ .deleted v x ∈ h := by
  induction h with
  | nil => simp [deleters]
  | cons e h ih =>
    cases e with
    | deleted w y =>
      by_cases hw : w = v
      · simp [deleters, hw, ih]
      · simp [deleters, hw, ih, Ne.symm hw]
    | _ => simp [deleters, ih]

theorem past_cons_of_ne (hne : e ≠ .began txn) : past txn (e :: h) = past txn h := if_neg hne

theorem mem_of_mem_past (he : e ∈ h.past txn) : e ∈ h := by
  induction h with
  | nil => exact he
  | cons e' h ih =>
    simp only [past] at he
    split at he
    · exact List.mem_cons_of_mem _ he
    · exact List.mem_cons_of_mem _ (ih he)

theorem past_suffix (ht : .began txn ∈ h) : .began txn :: h.past txn <:+ h := by
  induction h with
  | nil => cases ht
  | cons e h ih =>
    by_cases he : e = .began txn
    · subst he
      rw [past, if_pos rfl]
    · rw [past_cons_of_ne he]
      exact (ih ((List.mem_cons.mp ht).resolve_left (Ne.symm he))).trans (List.suffix_cons e h)

theorem begun_le_of_suffix {earlier : History} (hsuffix : earlier <:+ h) :
    earlier.begun.length ≤ h.begun.length := by
  obtain ⟨happened, rfl⟩ := hsuffix
  rw [begun_append, List.length_append]
  exact Nat.le_add_left ..

/-- What had happened before a transaction began had happened when it did. -/
theorem suffix_past {earlier : History} (hsuffix : earlier <:+ h) (ht : .began txn ∈ h)
    (hnew : .began txn ∉ earlier) : earlier <:+ h.past txn := by
  rcases List.suffix_or_suffix_of_suffix hsuffix (past_suffix ht) with hbefore | hafter
  · rcases List.suffix_cons_iff.mp hbefore with rfl | hpast
    · exact absurd List.mem_cons_self hnew
    · exact hpast
  · exact absurd (hafter.subset List.mem_cons_self) hnew

theorem Running.not_committed (hx : h.Running x) : ¬.committed x ∈ h.past txn :=
  fun hcommitted => hx.2.1 (mem_of_mem_past hcommitted)

theorem Running.cons (hx : h.Running x) (hcommit : e ≠ .committed x) (habort : e ≠ .aborted x) :
    Running (e :: h) x := by
  obtain ⟨⟨txn, ht, hxid⟩, hcommitted, haborted⟩ := hx
  refine ⟨⟨txn, List.mem_cons_of_mem e ht, hxid⟩, ?_, ?_⟩
  · exact List.not_mem_cons_of_ne_of_not_mem hcommit.symm hcommitted
  · exact List.not_mem_cons_of_ne_of_not_mem habort.symm haborted

theorem running_committed_iff : Running (.committed y :: h) x ↔ h.Running x ∧ x ≠ y := by
  simp only [Running, List.mem_cons, reduceCtorEq, false_or, Event.committed.injEq, not_or]
  tauto

theorem running_aborted_iff : Running (.aborted y :: h) x ↔ h.Running x ∧ x ≠ y := by
  simp only [Running, List.mem_cons, reduceCtorEq, false_or, Event.aborted.injEq, not_or]
  tauto

theorem running_created_iff : Running (.created v :: h) x ↔ h.Running x := by
  simp only [Running, List.mem_cons, reduceCtorEq, false_or]

theorem running_deleted_iff : Running (.deleted v y :: h) x ↔ h.Running x := by
  simp only [Running, List.mem_cons, reduceCtorEq, false_or]

namespace Legal

theorem tail (hl : Legal (e :: h)) : Legal h := by
  cases hl
  assumption

theorem follows (hl : Legal (e :: h)) : e.Follows h := by
  cases hl
  assumption

theorem of_suffix (hl : h.Legal) {earlier : History} (hsuffix : earlier <:+ h) : earlier.Legal := by
  induction hl with
  | nil => exact List.suffix_nil.mp hsuffix ▸ .nil
  | cons hf hl ih =>
    rcases List.suffix_cons_iff.mp hsuffix with rfl | hsuffix
    · exact .cons hf hl
    · exact ih hsuffix

theorem xid_le (hl : h.Legal) (ht : .began txn ∈ h) :
    0 < txn.xid.toNat ∧ txn.xid.toNat ≤ h.begun.length := by
  induction hl with
  | nil => cases ht
  | @cons e h hf _ ih =>
    rcases List.mem_cons.mp ht with rfl | ht
    · have hnumber := hf.1
      simp only [begun, List.length_cons]
      omega
    · have hle := ih ht
      refine ⟨hle.1, Nat.le_trans hle.2 ?_⟩
      cases e <;> simp [begun]

/-- Every event was possible after what was before it. -/
theorem exists_follows (hl : h.Legal) (he : e ∈ h) :
    ∃ earlier : History, e.Follows earlier ∧ earlier.Legal ∧ ∀ e' ∈ earlier, e' ∈ h := by
  induction hl with
  | nil => cases he
  | cons hf hl ih =>
    rcases List.mem_cons.mp he with rfl | he
    · exact ⟨_, hf, hl, fun e' he' => List.mem_cons_of_mem _ he'⟩
    · obtain ⟨earlier, hf', hl', hsub⟩ := ih he
      exact ⟨earlier, hf', hl', fun e' he' => List.mem_cons_of_mem _ (hsub e' he')⟩

theorem began_of_running {earlier : History} (hsub : ∀ e ∈ earlier, e ∈ h)
    (hx : earlier.Running x) : ∃ txn, .began txn ∈ h ∧ txn.xid = x := by
  obtain ⟨txn, ht, hxid⟩ := hx.1
  exact ⟨txn, hsub _ ht, hxid⟩

theorem began_of_committed (hl : h.Legal) (hx : .committed x ∈ h) :
    ∃ txn, .began txn ∈ h ∧ txn.xid = x := by
  obtain ⟨earlier, hf, -, hsub⟩ := hl.exists_follows hx
  exact began_of_running hsub hf

theorem began_of_created (hl : h.Legal) (hv : .created v ∈ h) :
    ∃ txn, .began txn ∈ h ∧ txn.xid = v.creator := by
  obtain ⟨earlier, hf, -, hsub⟩ := hl.exists_follows hv
  exact began_of_running hsub hf.1

theorem began_of_deleted (hl : h.Legal) (hv : .deleted v x ∈ h) :
    ∃ txn, .began txn ∈ h ∧ txn.xid = x := by
  obtain ⟨earlier, hf, -, hsub⟩ := hl.exists_follows hv
  exact began_of_running hsub hf.1

theorem created_of_deleted (hl : h.Legal) (hv : .deleted v x ∈ h) : .created v ∈ h := by
  obtain ⟨earlier, hf, -, hsub⟩ := hl.exists_follows hv
  exact hsub _ hf.2.1

theorem not_aborted_of_committed (hl : h.Legal) (hx : .committed x ∈ h) : .aborted x ∉ h := by
  induction hl with
  | nil => cases hx
  | cons hf hl ih =>
    intro hy
    rcases List.mem_cons.mp hx with rfl | hx' <;> rcases List.mem_cons.mp hy with hy' | hy'
    · cases hy'
    · exact hf.2.2 hy'
    · rw [← hy'] at hf
      exact hf.2.1 hx'
    · exact ih hx' hy'

theorem began_of_aborted (hl : h.Legal) (hx : .aborted x ∈ h) :
    ∃ txn, .began txn ∈ h ∧ txn.xid = x := by
  obtain ⟨earlier, hf, -, hsub⟩ := hl.exists_follows hx
  exact began_of_running hsub hf

theorem running_began_iff (hl : h.Legal) (hnumber : txn.xid.toNat = h.begun.length + 1) :
    Running (.began txn :: h) x ↔ x = txn.xid ∨ h.Running x := by
  have hnew (s : Transaction) (hs : .began s ∈ h) : s.xid ≠ txn.xid := by
    intro hsame
    have hle := hl.xid_le hs
    rw [hsame] at hle
    omega
  have hcommitted : .committed txn.xid ∉ h := by
    intro hx
    obtain ⟨s, hs, hsame⟩ := hl.began_of_committed hx
    exact hnew s hs hsame
  have haborted : .aborted txn.xid ∉ h := by
    intro hx
    obtain ⟨s, hs, hsame⟩ := hl.began_of_aborted hx
    exact hnew s hs hsame
  simp only [Running, List.mem_cons, reduceCtorEq, false_or, Event.began.injEq]
  constructor
  · rintro ⟨⟨s, rfl | hs, rfl⟩, hended⟩
    · exact Or.inl rfl
    · exact Or.inr ⟨⟨s, hs, rfl⟩, hended⟩
  · rintro (rfl | ⟨⟨s, hs, rfl⟩, hended⟩)
    · exact ⟨⟨txn, Or.inl rfl, rfl⟩, hcommitted, haborted⟩
    · exact ⟨⟨s, Or.inr hs, rfl⟩, hended⟩

/-- A version is known by its header. -/
theorem created_unique (hl : h.Legal) (hu : .created u ∈ h) (hv : .created v ∈ h)
    (hheader : u.header = v.header) : u = v := by
  induction hl with
  | nil => cases hu
  | cons hf hl ih =>
    rcases List.mem_cons.mp hu with rfl | hu' <;> rcases List.mem_cons.mp hv with hv' | hv'
    · exact (Event.created.inj hv').symm
    · exact absurd hheader.symm (hf.2 v hv')
    · rw [← hv'] at hf
      exact absurd hheader (hf.2 u hu')
    · exact ih hu' hv'

/-- What had happened when a transaction began was legal, and its number and its snapshot go by it. -/
theorem past_follows (hl : h.Legal) (ht : .began txn ∈ h) :
    (Event.began txn).Follows (h.past txn) ∧ (h.past txn).Legal := by
  induction hl with
  | nil => cases ht
  | @cons e h hf hl ih =>
    by_cases he : e = .began txn
    · subst he
      rw [past, if_pos rfl]
      exact ⟨hf, hl⟩
    · rw [past_cons_of_ne he]
      exact ih ((List.mem_cons.mp ht).resolve_left (Ne.symm he))

/-- Whoever has a smaller number had begun before. -/
theorem began_before (hl : h.Legal) (ht : .began txn ∈ h) (hs : .began s ∈ h)
    (hlt : s.xid.toNat < txn.xid.toNat) : .began s ∈ h.past txn := by
  -- By induction on the history, down to the begin of `txn`.
  induction hl with
  | nil => cases ht
  | @cons e h hf hl ih =>
    by_cases he : e = .began txn
    · subst he
      rw [past, if_pos rfl]
      apply (List.mem_cons.mp hs).resolve_left
      intro hsame
      rw [Event.began.inj hsame] at hlt
      exact Nat.lt_irrefl _ hlt
    · rw [past_cons_of_ne he]
      have ht' := (List.mem_cons.mp ht).resolve_left (Ne.symm he)
      refine ih ht' ((List.mem_cons.mp hs).resolve_left fun hsame => ?_)
      rw [← hsame] at hf
      have hnumber := hf.1
      have hle := hl.xid_le ht'
      omega

/-- Committed before a transaction began is what has a smaller number, was not in progress then, and
has committed by now. -/
theorem committed_before_iff (hl : h.Legal) (ht : .began txn ∈ h) :
    .committed x ∈ h.past txn ↔
      x.toNat < txn.xid.toNat ∧ x ∉ txn.inProgress ∧ .committed x ∈ h := by
  obtain ⟨⟨hnumber, hprogress⟩, hpast⟩ := hl.past_follows ht
  constructor
  · intro hx
    obtain ⟨s, hs, rfl⟩ := hpast.began_of_committed hx
    have hle := hpast.xid_le hs
    refine ⟨by omega, fun hrunning => ?_, mem_of_mem_past hx⟩
    exact ((hprogress _).mp hrunning).2.1 hx
  · rintro ⟨hlt, hnot, hx⟩
    obtain ⟨s, hs, rfl⟩ := hl.began_of_committed hx
    have hbefore := hl.began_before ht hs hlt
    by_contra hnever
    refine hnot ((hprogress _).mpr ⟨⟨s, hbefore, rfl⟩, hnever, fun haborted => ?_⟩)
    exact hl.not_aborted_of_committed hx (mem_of_mem_past haborted)

end Legal

/-- What others do changes nothing of what a transaction reads. -/
theorem reads_cons_iff (hl : Legal (e :: h)) (ht : .began txn ∈ h)
    (hother : ∀ v, e ≠ .deleted v txn.xid) : Reads (e :: h) txn v ↔ h.Reads txn v := by
  have hpast : past txn (e :: h) = past txn h := by
    apply past_cons_of_ne
    intro he
    subst he
    have hnumber := hl.follows.1
    have hle := hl.tail.xid_le ht
    omega
  have hsees (x : Xid) : Sees (e :: h) txn x ↔ h.Sees txn x := by rw [Sees, Sees, hpast]
  simp only [Reads, hsees, mem_deleters, List.mem_cons]
  refine and_congr_right fun _ => ⟨fun hnone x hx => hnone x (Or.inr hx), fun hnone x hx => ?_⟩
  -- A deletion by another transaction does not count: that one runs now, so it has not committed.
  rcases hx with hx | hx
  · subst hx
    rintro (rfl | hcommitted)
    · exact hother v rfl
    · exact hl.follows.1.not_committed hcommitted
  · exact hnone x hx

end History

end VersionedIndex
