import Mathlib.Algebra.Group.Nat.Defs
import Mathlib.Data.List.Nodup
import VersionedIndex.Proofs.Table.Headers
import VersionedIndex.Proofs.Table.History

namespace VersionedIndex

structure Manager.Records (m : Manager) (h : History) : Prop where
  next : m.nextXid.toNat = h.begun.length + 1
  nodup : m.active.Nodup
  active : ∀ x, m.isActive x = true ↔ h.Running x
  aborted : ∀ x, m.isAborted x = true → .aborted x ∈ h

namespace Manager

variable {m m' : Manager} {h : History} {e : Event} {x y : Xid}

theorem is_active_iff : m.isActive x = true ↔ x ∈ m.active := by
  rw [isActive, List.contains_eq_mem, decide_eq_true_eq]

theorem is_aborted_iff : m.isAborted x = true ↔ x ∈ m.aborted := by
  rw [isAborted, List.contains_eq_mem, decide_eq_true_eq]

theorem finish_eq_ok {commit : Bool} (hfinish : m.finish x commit = .ok m') :
    m.isActive x = true ∧ m' = { m with
      active := m.active.erase x
      aborted := if commit then m.aborted else m.aborted.insert x } := by
  simp only [finish] at hfinish
  split at hfinish
  · next hactive => exact ⟨hactive, (Except.ok.inj hfinish).symm⟩
  · cases hfinish

namespace Records

theorem snapshot (hm : m.Records h) (x : Xid) : x ∈ m.active ↔ h.Running x := by
  rw [← is_active_iff, hm.active]

theorem version (hm : m.Records h) (hbegun : History.begun (e :: h) = h.begun)
    (hrunning : ∀ x, History.Running (e :: h) x ↔ h.Running x) : m.Records (e :: h) := by
  refine ⟨hbegun ▸ hm.next, hm.nodup, fun x => (hm.active x).trans (hrunning x).symm, ?_⟩
  exact fun x hx => List.mem_cons_of_mem e (hm.aborted x hx)

theorem begin (hm : m.Records h) (hl : h.Legal) (hfew : h.begun.length + 1 < 2 ^ 32 - 1) :
    m.begin.2.Records (.began m.begin.1 :: h) := by
  refine ⟨?_, hm.nodup.insert, fun x => ?_, fun x hx => List.mem_cons_of_mem _ (hm.aborted x hx)⟩
  · have hnext : (m.nextXid + 1).toNat = m.nextXid.toNat + 1 := by
      rw [UInt32.toNat_add, UInt32.toNat_one, hm.next, Nat.mod_eq_of_lt]
      omega
    exact hnext.trans (congrArg (· + 1) hm.next)
  · rw [hl.running_began_iff hm.next, ← hm.snapshot, is_active_iff]
    exact List.mem_insert_iff

theorem commit (hm : m.Records h) (hfinish : m.finish x true = .ok m') :
    m'.Records (.committed x :: h) := by
  obtain ⟨-, rfl⟩ := finish_eq_ok hfinish
  refine ⟨hm.next, hm.nodup.erase x, fun y => ?_,
    fun y hy => List.mem_cons_of_mem _ (hm.aborted y hy)⟩
  rw [History.running_committed_iff, ← hm.snapshot, is_active_iff, hm.nodup.mem_erase_iff,
    and_comm]

theorem abort (hm : m.Records h) (hfinish : m.finish x false = .ok m') :
    m'.Records (.aborted x :: h) := by
  obtain ⟨-, rfl⟩ := finish_eq_ok hfinish
  refine ⟨hm.next, hm.nodup.erase x, fun y => ?_, fun y hy => ?_⟩
  · rw [History.running_aborted_iff, ← hm.snapshot, is_active_iff, hm.nodup.mem_erase_iff,
      and_comm]
  · rcases List.mem_insert_iff.mp (is_aborted_iff.mp hy) with rfl | hold
    · exact List.mem_cons_self
    · exact List.mem_cons_of_mem _ (hm.aborted y (is_aborted_iff.mpr hold))

theorem forget (hm : m.Records h) (xids : List Xid) : (m.forgetAborted xids).Records h := by
  refine ⟨hm.next, hm.nodup, hm.active, fun x hx => hm.aborted x ?_⟩
  rw [is_aborted_iff] at hx ⊢
  exact List.mem_of_mem_filter hx

end Records

def Recalls (m : Manager) (begun : Nat) : Prop :=
  ∃ past : History, past.Legal ∧ past.begun.length = begun ∧ m.Records past

namespace Recalls

variable {begun : Nat}

theorem start : Recalls {} 0 :=
  ⟨[], .nil, rfl, rfl, List.nodup_nil, fun x => by simp [isActive, History.Running], nofun⟩

theorem begin (h : m.Recalls begun) (hfew : begun + 1 < 2 ^ 32 - 1) :
    m.begin.2.Recalls (begun + 1) := by
  obtain ⟨past, hl, rfl, hm⟩ := h
  exact ⟨.began m.begin.1 :: past, .cons ⟨hm.next, hm.snapshot⟩ hl, rfl, hm.begin hl hfew⟩

theorem finish {commit : Bool} (h : m.Recalls begun) (hfinish : m.finish x commit = .ok m') :
    m'.Recalls begun := by
  obtain ⟨past, hl, rfl, hm⟩ := h
  have hrunning := (hm.active x).mp (finish_eq_ok hfinish).1
  cases commit with
  | true => exact ⟨.committed x :: past, .cons hrunning hl, rfl, hm.commit hfinish⟩
  | false => exact ⟨.aborted x :: past, .cons hrunning hl, rfl, hm.abort hfinish⟩

theorem forget (h : m.Recalls begun) (xids : List Xid) : (m.forgetAborted xids).Recalls begun := by
  obtain ⟨past, hl, hbegun, hm⟩ := h
  exact ⟨past, hl, hbegun, hm.forget xids⟩

/-- What has aborted neither runs nor counts as committed. -/
theorem of_aborted (h : m.Recalls begun) (hx : m.isAborted x = true) :
    m.isActive x = false ∧ m.isCommitted x = false := by
  obtain ⟨past, hl, -, hm⟩ := h
  have haborted := hm.aborted x hx
  have hfrozen : x ≠ Xid.frozen := by
    rintro rfl
    obtain ⟨txn, ht, hzero⟩ := hl.began_of_aborted haborted
    have hpos := (hl.xid_le ht).1
    rw [hzero] at hpos
    exact Nat.lt_irrefl 0 hpos
  constructor
  · apply Bool.eq_false_iff.mpr
    intro hactive
    exact ((hm.active x).mp hactive).2.2 haborted
  · rw [isCommitted, hx, beq_eq_false_iff_ne.mpr hfrozen, Bool.not_true, Bool.and_false]
    rfl

end Recalls

end Manager

/-- Every version that has been created has a header. Every stamp on it is that of a deleter, and the
stamp of a deleter that has not aborted is there. -/
structure Headers.Records (hd : Headers) (h : History) : Prop where
  known : ∀ v, .created v ∈ h → v.header < hd.deleters.size
  stamped : ∀ v x, .created v ∈ h → hd.deleter? v = some x → .deleted v x ∈ h
  standing : ∀ v x, .deleted v x ∈ h → .aborted x ∉ h → hd.deleter? v = some x

namespace Headers.Records

variable {hd hd' : Headers} {h : History} {e : Event} {v : Version} {x : Xid}

theorem transaction (hh : hd.Records h) (hcreated : ∀ v, e ≠ .created v)
    (hdeleted : ∀ v x, e ≠ .deleted v x) : hd.Records (e :: h) := by
  refine ⟨fun v hv => ?_, fun v x hv hx => ?_, fun v x hx hnot => ?_⟩
  · exact hh.known v ((List.mem_cons.mp hv).resolve_left (hcreated v).symm)
  · have hold := (List.mem_cons.mp hv).resolve_left (hcreated v).symm
    exact List.mem_cons_of_mem e (hh.stamped v x hold hx)
  · exact hh.standing v x ((List.mem_cons.mp hx).resolve_left (hdeleted v x).symm)
      fun haborted => hnot (List.mem_cons_of_mem e haborted)

theorem create (hh : hd.Records h) {id : RowId} {row : Row} (hcreate : (v, hd') = hd.create id row x) :
    hd'.Records (.created v :: h) := by
  obtain rfl : v = (hd.create id row x).1 := congrArg Prod.fst hcreate
  obtain rfl : hd' = (hd.create id row x).2 := congrArg Prod.snd hcreate
  refine ⟨fun u hu => ?_, fun u y hu hy => ?_, fun u y hy hnot => ?_⟩
  · rw [size_create]
    rcases List.mem_cons.mp hu with hu | hu
    · rw [Event.created.inj hu]
      exact Nat.lt_succ_self _
    · exact Nat.lt_succ_of_lt (hh.known u hu)
  · rw [deleter_create] at hy
    rcases List.mem_cons.mp hu with hu | hu
    · rw [Event.created.inj hu] at hy
      exact absurd (header_lt_of_deleter hy) (Nat.lt_irrefl _)
    · exact List.mem_cons_of_mem _ (hh.stamped u y hu hy)
  · rw [deleter_create]
    exact hh.standing u y ((List.mem_cons.mp hy).resolve_left nofun)
      fun haborted => hnot (List.mem_cons_of_mem _ haborted)

/-- Whoever has deleted a version that can be stamped is the one who stamps it, or has aborted. -/
theorem deleters_aborted (hh : hd.Records h) {aborted : Xid → Bool}
    (haborted : ∀ y, aborted y = true → .aborted y ∈ h)
    (hmark : hd.markDeleted v x aborted = .ok hd') {y : Xid} (hy : .deleted v y ∈ h) :
    y = x ∨ .aborted y ∈ h := by
  by_contra hnot
  rw [not_or] at hnot
  rcases (mark_deleted_cases hmark).2 y (hh.standing v y hy hnot.2) with hsame | hmarked
  · exact hnot.1 hsame
  · exact hnot.2 (haborted y hmarked)

theorem delete (hh : hd.Records h) (hl : h.Legal) {aborted : Xid → Bool}
    (haborted : ∀ y, aborted y = true → .aborted y ∈ h) (hv : .created v ∈ h)
    (hx : x ≠ Xid.invalid) (hmark : hd.markDeleted v x aborted = .ok hd') :
    hd'.Records (.deleted v x :: h) := by
  obtain ⟨hstamp, -⟩ := mark_deleted_cases hmark
  rw [if_neg hx] at hstamp
  have hsame : hd'.deleter? v = some x := by
    rw [hstamp, deleter_stamp (hh.known v hv), if_pos rfl]
  refine ⟨fun u hu => ?_, fun u y hu hy => ?_, fun u y hy hnot => ?_⟩
  · rw [hstamp, size_stamp]
    exact hh.known u ((List.mem_cons.mp hu).resolve_left nofun)
  · have hu' := (List.mem_cons.mp hu).resolve_left nofun
    rcases deleter_of_mark hmark hy with ⟨-, hold⟩ | ⟨hheader, rfl, -⟩
    · exact List.mem_cons_of_mem _ (hh.stamped u y hu' hold)
    · rw [hl.created_unique hu' hv hheader]
      exact List.mem_cons_self
  · have hstill : .aborted y ∉ h := fun hended => hnot (List.mem_cons_of_mem _ hended)
    -- The stamp of an earlier deleter stays on its version, unless that is the version at hand; then the
    -- earlier deleter is this one, for no other could have been replaced.
    rcases List.mem_cons.mp hy with hnew | hold
    · obtain ⟨rfl, rfl⟩ := Event.deleted.inj hnew
      exact hsame
    · by_cases hheader : u.header = v.header
      · obtain rfl := hl.created_unique (hl.created_of_deleted hold) hv hheader
        rw [(hh.deleters_aborted haborted hmark hold).resolve_right hstill]
        exact hsame
      · rw [hstamp, deleter_stamp_of_ne hheader]
        exact hh.standing u y hold hstill

theorem loosen (hh : hd.Records h) {aborted : Xid → Bool}
    (haborted : ∀ x, aborted x = true → .aborted x ∈ h) (hloose : Loosened aborted hd hd')
    (hsize : hd.deleters.size ≤ hd'.deleters.size) : hd'.Records h := by
  refine ⟨fun v hv => Nat.lt_of_lt_of_le (hh.known v hv) hsize, fun v x hv hx => ?_,
    fun v x hx hnot => ?_⟩
  · exact hh.stamped v x hv (hloose.deleter_of_some hx)
  · apply hloose.deleter_of_not_aborted (hh.standing v x hx hnot)
    exact Bool.eq_false_iff.mpr fun hmarked => hnot (haborted x hmarked)

end Headers.Records

end VersionedIndex
