import Mathlib.Logic.Relation
import VersionedIndex.Proofs.Table.Indexes
import VersionedIndex.Proofs.Table.Records

/-! The ledger of a table: what decides what can be read, with the history that led there. It
changes by small changes; the invariant says what the manager and the headers still tell of the
history. -/

namespace VersionedIndex

structure Ledger where
  definitions : List Index
  stored : Multiset Version
  headers : Headers
  manager : Manager
  history : History

namespace Ledger

/-- A small change: a transaction begins or ends; `author` creates a version that no version keeps
out, or deletes one; stamps of aborted transactions go; versions are dropped, which have to be dead
unless this is a purge; when nothing runs, the aborted transactions are forgotten that no stored
version mentions; or an index is added that all versions can be in. -/
inductive Change (author : Option Xid) (purges : Bool) (s : Ledger) : Ledger → Prop
  | began : Change author purges s
      { s with
        manager := s.manager.begin.2
        history := .began s.manager.begin.1 :: s.history }
  | committed {x : Xid} {manager : Manager} :
    author = some x → s.manager.finish x true = .ok manager →
    Change author purges s { s with manager, history := .committed x :: s.history }
  | aborted {x : Xid} {manager : Manager} :
    author = some x → s.manager.finish x false = .ok manager →
    Change author purges s { s with manager, history := .aborted x :: s.history }
  | created {txn : Transaction} {id : RowId} {row : Row} {v : Version} {headers : Headers} :
    author = some txn.xid → s.manager.isActive txn.xid = true →
    (v, headers) = s.headers.create id row txn.xid →
    (∀ ix ∈ s.definitions, ix.Vacant (some (txn.visibility s.manager headers)) v s.stored) →
    Change author purges s
      { s with stored := v ::ₘ s.stored, headers, history := .created v :: s.history }
  | deleted {x : Xid} {v : Version} {headers : Headers} :
    author = some x → s.manager.isActive x = true → .created v ∈ s.history →
    s.headers.markDeleted v x s.manager.isAborted = .ok headers →
    Change author purges s { s with headers, history := .deleted v x :: s.history }
  | loosened {headers : Headers} :
    Headers.Loosened s.manager.isAborted s.headers headers →
    s.headers.deleters.size ≤ headers.deleters.size →
    Change author purges s { s with headers }
  | dropped {stored : Multiset Version} :
    stored ≤ s.stored →
    (∀ v ∈ s.stored, v ∈ stored ∨ purges = true ∨
      TableAction.isDead s.manager s.headers v = true) →
    Change author purges s { s with stored }
  | forgot :
    s.manager.hasActive = false →
    (∀ v ∈ s.stored, s.manager.isAborted v.creator = false ∧
      ∀ x, s.headers.deleter? v = some x → s.manager.isAborted x = false) →
    Change author purges s { s with manager := s.manager.forgetAborted s.manager.aborted }
  | indexed {ix : Index} :
    ix.Distinct s.stored →
    Change author purges s { s with definitions := s.definitions ++ [ix] }

abbrev Changes (author : Option Xid) (purges : Bool) : Ledger → Ledger → Prop :=
  Relation.ReflTransGen (Change author purges)

def Mentions (s : Ledger) (v : Version) (x : Xid) : Prop :=
  v.creator = x ∨ s.headers.deleter? v = some x

/-- The history is legal and within the ids of transactions, and the manager and the headers tell of
it. An aborted transaction may have been forgotten, but not while a stored version mentions it. -/
structure Sound (s : Ledger) : Prop where
  legal : s.history.Legal
  few : s.history.begun.length < 2 ^ 32 - 1
  manager : s.manager.Records s.history
  headers : s.headers.Records s.history
  created : ∀ v ∈ s.stored, .created v ∈ s.history
  settled : ∀ v ∈ s.stored, ∀ x, s.Mentions v x → .aborted x ∈ s.history →
    s.manager.isAborted x = true

namespace Sound

variable {s : Ledger} {v : Version} {x : Xid} {txn : Transaction}

/-- The transactions that a stored version mentions have begun. -/
theorem began_of_mentions (h : s.Sound) (hv : v ∈ s.stored) (hx : s.Mentions v x) :
    ∃ txn, .began txn ∈ s.history ∧ txn.xid = x := by
  rcases hx with rfl | hstamp
  · exact h.legal.began_of_created (h.created v hv)
  · exact h.legal.began_of_deleted (h.headers.stamped v x (h.created v hv) hstamp)

theorem ordinary (h : s.Sound) (ht : .began txn ∈ s.history) :
    txn.xid ≠ Xid.frozen ∧ txn.xid ≠ Xid.invalid ∧ txn.xid < s.manager.nextXid := by
  obtain ⟨hpos, hle⟩ := h.legal.xid_le ht
  have hfew := h.few
  refine ⟨fun hfrozen => ?_, fun hinvalid => ?_, ?_⟩
  · rw [hfrozen] at hpos
    exact Nat.lt_irrefl 0 hpos
  · rw [hinvalid] at hle
    exact absurd hle (Nat.not_le_of_lt hfew)
  · rw [UInt32.lt_iff_toNat_lt, h.manager.next]
    omega

/-- The manager tells of the transactions that a stored version mentions whether they have committed. -/
theorem is_committed_iff (h : s.Sound) (hv : v ∈ s.stored) (hx : s.Mentions v x) :
    s.manager.isCommitted x = true ↔ .committed x ∈ s.history := by
  obtain ⟨txn, ht, rfl⟩ := h.began_of_mentions hv hx
  obtain ⟨hfrozen, hinvalid, hnext⟩ := h.ordinary ht
  -- No ordinary transaction has a special id, so only being active and having aborted count.
  simp only [Manager.isCommitted, Bool.or_eq_true, Bool.and_eq_true, beq_iff_eq, bne_iff_ne,
    decide_eq_true_eq, Bool.not_eq_true', hfrozen, hinvalid, hnext, ne_eq, not_false_eq_true,
    true_and, false_or]
  constructor
  · rintro ⟨hactive, haborted⟩
    by_contra hnever
    have hended : .aborted txn.xid ∈ s.history := by
      by_contra hrunning
      have hstill := (h.manager.active txn.xid).mpr ⟨⟨txn, ht, rfl⟩, hnever, hrunning⟩
      rw [hactive] at hstill
      cases hstill
    rw [h.settled v hv txn.xid hx hended] at haborted
    cases haborted
  · intro hcommitted
    refine ⟨Bool.eq_false_iff.mpr fun hactive => ?_, Bool.eq_false_iff.mpr fun haborted => ?_⟩
    · exact ((h.manager.active txn.xid).mp hactive).2.1 hcommitted
    · exact h.legal.not_aborted_of_committed hcommitted (h.manager.aborted txn.xid haborted)

/-- A snapshot sees the transactions that had committed when it was taken. -/
theorem sees_committed_iff (h : s.Sound) (ht : .began txn ∈ s.history) (hv : v ∈ s.stored)
    (hx : s.Mentions v x) :
    txn.seesCommitted s.manager x = true ↔ .committed x ∈ s.history.past txn := by
  obtain ⟨other, hother, rfl⟩ := h.began_of_mentions hv hx
  have hfrozen := (h.ordinary hother).1
  rw [h.legal.committed_before_iff ht, ← h.is_committed_iff hv hx, ← UInt32.lt_iff_toNat_lt]
  simp only [Transaction.seesCommitted, Bool.or_eq_true, Bool.and_eq_true, beq_iff_eq,
    decide_eq_true_eq, Bool.not_eq_true', hfrozen, false_or, List.contains_eq_mem,
    decide_eq_false_iff_not, and_assoc]

/-- For a transaction for which only the deletions of some count, none of whom has aborted, a stored
version stands by its stamp when it stands by the history. -/
theorem stands_iff (h : s.Sound) (hv : v ∈ s.stored) {committed : Xid → Bool} {counts : Xid → Prop}
    (hcounts : ∀ x, s.Mentions v x → ((x == txn.xid || committed x) = true ↔ counts x))
    (hended : ∀ x, counts x → .aborted x ∉ s.history) :
    (match s.headers.deleter? v with
      | none => true
      | some x => x != txn.xid && !committed x) = true ↔
    ∀ x ∈ s.history.deleters v, ¬counts x := by
  have hstamp (x : Xid) (hx : .deleted v x ∈ s.history) (hcount : counts x) :
      s.headers.deleter? v = some x := h.headers.standing v x hx (hended x hcount)
  simp only [History.mem_deleters]
  cases hdeleter : s.headers.deleter? v with
  | none =>
    apply iff_of_true rfl
    intro x hx hcount
    rw [hstamp x hx hcount] at hdeleter
    cases hdeleter
  | some x =>
    have hx := h.headers.stamped v x (h.created v hv) hdeleter
    have hnot : (x != txn.xid && !committed x) = true ↔ ¬counts x := by
      rw [← hcounts x (Or.inr hdeleter), bne, ← Bool.not_or, Bool.not_eq_true', Bool.not_eq_true]
    -- Of the deleters that count there is one at most, the one whose stamp it is.
    refine hnot.trans ⟨fun hnot y hy hcount => ?_, fun hnone => hnone x hx⟩
    have hy' := hstamp y hy hcount
    rw [hdeleter] at hy'
    rw [Option.some.inj hy'] at hnot
    exact hnot hcount

/-- A running transaction reads exactly what the history says. -/
theorem can_read_iff (h : s.Sound) (ht : .began txn ∈ s.history)
    (hactive : s.manager.isActive txn.xid = true) (hv : v ∈ s.stored) :
    txn.canRead s.manager s.headers v .read = true ↔ s.history.Reads txn v := by
  have hrunning := (h.manager.active txn.xid).mp hactive
  have hsees (x : Xid) (hx : s.Mentions v x) :
      (x == txn.xid || txn.seesCommitted s.manager x) = true ↔ s.history.Sees txn x := by
    rw [Bool.or_eq_true, beq_iff_eq, h.sees_committed_iff ht hv hx, History.Sees]
  have hended (x : Xid) (hx : s.history.Sees txn x) : .aborted x ∉ s.history := by
    rcases hx with rfl | hcommitted
    · exact hrunning.2.2
    · exact h.legal.not_aborted_of_committed (History.mem_of_mem_past hcommitted)
  rw [Transaction.canRead, Bool.and_eq_true]
  exact and_congr (hsees v.creator (Or.inl rfl)) (h.stands_iff hv hsees hended)

/-- Every small change keeps a ledger sound, as long as transaction ids last. -/
theorem change (h : s.Sound) {author : Option Xid} {purges : Bool} {s' : Ledger}
    (hchange : s.Change author purges s') (hfew : s'.history.begun.length < 2 ^ 32 - 1) :
    s'.Sound := by
  have hended {e : Event} {x : Xid} (hx : .aborted x ∈ e :: s.history) (he : e ≠ .aborted x) :
      .aborted x ∈ s.history := (List.mem_cons.mp hx).resolve_left he.symm
  have hmore (e : Event) (v : Version) (hv : v ∈ s.stored) : .created v ∈ e :: s.history :=
    List.mem_cons_of_mem e (h.created v hv)
  cases hchange with
  | began =>
    refine ⟨.cons ⟨h.manager.next, h.manager.snapshot⟩ h.legal, hfew, h.manager.begin h.legal hfew,
      h.headers.transaction (fun _ => nofun) fun _ _ => nofun, hmore _, fun v hv x hx haborted => ?_⟩
    exact h.settled v hv x hx (hended haborted nofun)
  | @committed x manager hauthor hfinish =>
    have hrunning := (h.manager.active x).mp (Manager.finish_eq_ok hfinish).1
    refine ⟨.cons hrunning h.legal, hfew, h.manager.commit hfinish,
      h.headers.transaction (fun _ => nofun) fun _ _ => nofun, hmore _, fun v hv y hy haborted => ?_⟩
    rw [(Manager.finish_eq_ok hfinish).2]
    exact h.settled v hv y hy (hended haborted nofun)
  | @aborted x manager hauthor hfinish =>
    have hrunning := (h.manager.active x).mp (Manager.finish_eq_ok hfinish).1
    refine ⟨.cons hrunning h.legal, hfew, h.manager.abort hfinish,
      h.headers.transaction (fun _ => nofun) fun _ _ => nofun, hmore _, fun v hv y hy haborted => ?_⟩
    rw [(Manager.finish_eq_ok hfinish).2, Manager.is_aborted_iff]
    apply List.mem_insert_iff.mpr
    rcases List.mem_cons.mp haborted with hnew | hold
    · exact Or.inl (Event.aborted.inj hnew)
    · exact Or.inr (Manager.is_aborted_iff.mp (h.settled v hv y hy hold))
  | @created txn id row v headers hauthor hactive hcreate hvacant =>
    have hrunning := (h.manager.active txn.xid).mp hactive
    have hrecords := h.headers.create hcreate
    obtain rfl : v = (s.headers.create id row txn.xid).1 := congrArg Prod.fst hcreate
    obtain rfl : headers = (s.headers.create id row txn.xid).2 := congrArg Prod.snd hcreate
    have hnew : ∀ u, .created u ∈ s.history → u.header ≠ s.headers.deleters.size :=
      fun u hu => Nat.ne_of_lt (h.headers.known u hu)
    refine ⟨.cons ⟨hrunning, hnew⟩ h.legal, hfew,
      h.manager.version rfl fun x => History.running_created_iff, hrecords, fun u hu => ?_,
      fun u hu y hy haborted => ?_⟩
    · rcases Multiset.mem_cons.mp hu with rfl | hu
      · exact List.mem_cons_self
      · exact hmore _ u hu
    · have haborted' := hended haborted nofun
      simp only [Mentions, Headers.deleter_create] at hy
      rcases Multiset.mem_cons.mp hu with rfl | hu
      · rcases hy with rfl | hstamp
        · exact absurd haborted' hrunning.2.2
        · exact absurd (Headers.header_lt_of_deleter hstamp) (Nat.lt_irrefl _)
      · exact h.settled u hu y hy haborted'
  | @deleted x v headers hauthor hactive hv hmark =>
    have hrunning := (h.manager.active x).mp hactive
    obtain ⟨txn, ht, rfl⟩ := hrunning.1
    have hothers (y : Xid) (hy : .deleted v y ∈ s.history) : y = txn.xid ∨ .aborted y ∈ s.history :=
      h.headers.deleters_aborted h.manager.aborted hmark hy
    refine ⟨.cons ⟨hrunning, hv, hothers⟩ h.legal, hfew,
      h.manager.version rfl fun y => History.running_deleted_iff,
      h.headers.delete h.legal h.manager.aborted hv (h.ordinary ht).2.1 hmark, hmore _,
      fun u hu y hy haborted => ?_⟩
    have haborted' := hended haborted nofun
    rcases hy with rfl | hstamp
    · exact h.settled u hu _ (Or.inl rfl) haborted'
    · rcases Headers.deleter_of_mark hmark hstamp with ⟨-, hold⟩ | ⟨-, rfl, -⟩
      · exact h.settled u hu y (Or.inr hold) haborted'
      · exact absurd haborted' hrunning.2.2
  | @loosened headers hloose hsize =>
    refine ⟨h.legal, hfew, h.manager, h.headers.loosen h.manager.aborted hloose hsize, h.created,
      fun v hv x hx haborted => h.settled v hv x ?_ haborted⟩
    exact hx.imp_right hloose.deleter_of_some
  | @dropped stored hle hdead =>
    refine ⟨h.legal, hfew, h.manager, h.headers, fun v hv => ?_, fun v hv => ?_⟩
    · exact h.created v (Multiset.mem_of_le hle hv)
    · exact h.settled v (Multiset.mem_of_le hle hv)
  | forgot hquiet hclean =>
    refine ⟨h.legal, hfew, h.manager.forget _, h.headers, h.created,
      fun v hv x hx haborted => ?_⟩
    have hmarked := h.settled v hv x hx haborted
    rcases hx with rfl | hstamp
    · rw [(hclean v hv).1] at hmarked
      cases hmarked
    · rw [(hclean v hv).2 x hstamp] at hmarked
      cases hmarked
  | indexed hdistinct =>
    exact ⟨h.legal, hfew, h.manager, h.headers, h.created, h.settled⟩

end Sound

def empty : Ledger where
  definitions := []
  stored := 0
  headers := {}
  manager := {}
  history := []

theorem sound_empty : empty.Sound where
  legal := .nil
  few := by decide
  manager := ⟨rfl, List.nodup_nil, fun x => by simp [empty, Manager.isActive, History.Running],
    fun x hx => by simp [empty, Manager.isAborted] at hx⟩
  headers := ⟨nofun, nofun, nofun⟩
  created v hv := absurd hv (Multiset.notMem_zero v)
  settled v hv := absurd hv (Multiset.notMem_zero v)

variable {s s' : Ledger} {author : Option Xid} {purges : Bool}

theorem Change.begun_le (hchange : s.Change author purges s') :
    s.history.begun.length ≤ s'.history.begun.length := by
  cases hchange with
  | began => exact Nat.le_succ _
  | _ => exact Nat.le_refl _

theorem Change.unmarked (hchange : s.Change author purges s') (h : s.headers.Unmarked) :
    s'.headers.Unmarked := by
  cases hchange with
  | @created txn id row v headers _ _ hcreate _ =>
    obtain rfl : headers = (s.headers.create id row txn.xid).2 := congrArg Prod.snd hcreate
    intro u
    rw [Headers.deleter_create]
    exact h u
  | deleted _ _ _ hmark => exact h.of_mark hmark
  | loosened hloose _ => exact h.of_loosened hloose
  | _ => exact h

namespace Changes

theorem begun_le (hchanges : Changes author purges s s') :
    s.history.begun.length ≤ s'.history.begun.length := by
  induction hchanges with
  | refl => exact Nat.le_refl _
  | tail _ hchange ih => exact Nat.le_trans ih hchange.begun_le

theorem unmarked (hchanges : Changes author purges s s') (h : s.headers.Unmarked) :
    s'.headers.Unmarked := by
  induction hchanges with
  | refl => exact h
  | tail _ hchange ih => exact hchange.unmarked ih

/-- However many small changes there are, a ledger stays sound, and so does every property that small
changes of sound ledgers keep. -/
theorem preserve {P : Ledger → Prop} (hchanges : Changes author purges s s')
    (hstep : ∀ {a b : Ledger}, a.Sound → b.Sound → a.Change author purges b → P a → P b)
    (h : s.Sound) (hfew : s'.history.begun.length < 2 ^ 32 - 1) (hs : P s) : s'.Sound ∧ P s' := by
  induction hchanges with
  | refl => exact ⟨h, hs⟩
  | tail _ hchange ih =>
    obtain ⟨hsound, hp⟩ := ih (Nat.lt_of_le_of_lt hchange.begun_le hfew)
    have hsound' := hsound.change hchange hfew
    exact ⟨hsound', hstep hsound hsound' hchange hp⟩

end Changes

end Ledger

end VersionedIndex
