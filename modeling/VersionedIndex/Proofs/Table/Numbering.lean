import Mathlib.Data.List.Nodup
import VersionedIndex.Proofs.Table.Records

namespace VersionedIndex

inductive Manager.Request where
  | begin
  | commit (txn : Transaction)
  | abort (txn : Transaction)
deriving DecidableEq, Repr

structure Numbering where
  manager : Manager := {}
  issued : List Xid := []

namespace Numbering

open Manager (Request)

def step (s : Numbering) : Request → Numbering
  | .begin => ⟨s.manager.begin.2, s.issued ++ [s.manager.begin.1.xid]⟩
  | .commit txn => { s with manager := (s.manager.commit txn).toOption.getD s.manager }
  | .abort txn => { s with manager := (s.manager.abort txn).toOption.getD s.manager }

def after (s : Numbering) (requests : List Request) : Numbering := requests.foldl step s

structure Counts (s : Numbering) : Prop where
  next : s.manager.nextXid = UInt32.ofNat (s.issued.length + 1)
  issued : ∀ {k : Nat} {x : Xid}, s.issued[k]? = some x → x = UInt32.ofNat (k + 1)
  active : ∀ {x : Xid}, s.manager.isActive x = true → x ∈ s.issued

def LeavesStamps (s : Numbering) : Prop :=
  ∀ {x : Xid}, s.manager.isActive x = true →
    ∀ {h h' : Headers} {v : Version} {replaceable : Xid → Bool}, v.header < h.deleters.size →
      h.markDeleted v x replaceable = .ok h' → h'.deleter? v = some x

/-- No id has been issued twice, none has a meaning of its own, and each stamps what it deletes. -/
structure Trusted (s : Numbering) : Prop where
  distinct : s.issued.Nodup
  unfrozen : Xid.frozen ∉ s.issued
  valid : Xid.invalid ∉ s.issued
  stamps : s.LeavesStamps

variable {s : Numbering} {k : Nat} {x : Xid}

/-- The one transaction that cannot delete anything has the id that means "not deleted". -/
theorem leaves_stamps_iff : s.LeavesStamps ↔ s.manager.isActive Xid.invalid = false := by
  constructor
  · intro hstamps
    apply Bool.eq_false_iff.mpr
    intro hactive
    let v : Version := ⟨0, 1, [], Xid.frozen⟩
    let fresh : Headers := ⟨#[none]⟩
    have hsize : v.header < fresh.deleters.size := Nat.one_pos
    have hmark : fresh.markDeleted v Xid.invalid (fun _ => false) = .ok fresh := rfl
    have hstamped : fresh.deleter? v = some Xid.invalid := hstamps hactive hsize hmark
    cases hstamped
  · intro hidle x hactive headers headers' v replaceable hv hmark
    have hne : x ≠ Xid.invalid := by
      rintro rfl
      rw [hactive] at hidle
      cases hidle
    obtain ⟨rfl, -⟩ := Headers.mark_deleted_cases hmark
    rw [Headers.deleter_stamp hv, if_pos rfl, if_neg hne]

namespace Counts

theorem start : Counts {} := ⟨rfl, nofun, nofun⟩

theorem begin (h : s.Counts) : (s.step .begin).Counts where
  next := by
    have hlength : (s.step .begin).issued.length = s.issued.length + 1 := List.length_append
    have hnext : (s.step .begin).manager.nextXid = s.manager.nextXid + 1 := rfl
    rw [hlength, hnext, h.next]
    exact (UInt32.ofNat_add (s.issued.length + 1) 1).symm
  issued := by
    intro k x hx
    change (s.issued ++ [s.manager.nextXid])[k]? = some x at hx
    rcases Nat.lt_trichotomy k s.issued.length with hlt | rfl | hgt
    · rw [List.getElem?_append_left hlt] at hx
      exact h.issued hx
    · rw [List.getElem?_concat_length, Option.some.injEq] at hx
      rw [← hx]
      exact h.next
    · have hout : (s.issued ++ [s.manager.nextXid]).length ≤ k := by
        rw [List.length_append]
        exact hgt
      rw [List.getElem?_eq_none hout] at hx
      cases hx
  active := by
    intro x hx
    rcases List.mem_insert_iff.mp (Manager.is_active_iff.mp hx) with rfl | hold
    · exact List.mem_append_right _ (List.mem_singleton_self _)
    · exact List.mem_append_left _ (h.active (Manager.is_active_iff.mpr hold))

theorem finish (h : s.Counts) (id : Xid) (commit : Bool) :
    Counts { s with manager := (s.manager.finish id commit).toOption.getD s.manager } := by
  cases hfinish : s.manager.finish id commit with
  | error err => exact h
  | ok manager =>
    obtain ⟨-, rfl⟩ := Manager.finish_eq_ok hfinish
    refine ⟨h.next, h.issued, fun hx => h.active ?_⟩
    rw [Manager.is_active_iff] at hx ⊢
    exact List.mem_of_mem_erase hx

theorem step (h : s.Counts) (request : Request) : (s.step request).Counts := by
  cases request with
  | begin => exact h.begin
  | commit txn => exact h.finish txn.xid true
  | abort txn => exact h.finish txn.xid false

theorem after (h : s.Counts) (requests : List Request) : (s.after requests).Counts := by
  induction requests generalizing s with
  | nil => exact h
  | cons request requests ih => exact ih (h.step request)

theorem get (h : s.Counts) (hk : k < s.issued.length) : s.issued[k]? = some (UInt32.ofNat (k + 1)) := by
  have hget := List.getElem?_eq_getElem hk
  rw [hget, h.issued hget]

/-- A number is an id once as many transactions have begun. -/
theorem mem_iff (h : s.Counts) (hx : 0 < x.toNat) : x ∈ s.issued ↔ x.toNat ≤ s.issued.length := by
  constructor
  · intro hmem
    obtain ⟨k, hk⟩ := List.mem_iff_getElem?.mp hmem
    have hlt := (List.getElem?_eq_some_iff.mp hk).1
    have hx_le : x.toNat ≤ k + 1 := by
      rw [h.issued hk, UInt32.toNat_ofNat']
      exact Nat.mod_le _ _
    omega
  · intro hle
    apply List.mem_iff_getElem?.mpr
    refine ⟨x.toNat - 1, ?_⟩
    rw [h.get (by omega), Nat.sub_add_cancel hx, UInt32.ofNat_toNat]

theorem invalid_mem_iff (h : s.Counts) : Xid.invalid ∈ s.issued ↔ 2 ^ 32 - 1 ≤ s.issued.length :=
  h.mem_iff (by decide)

/-- The frozen id comes when all others have been issued. -/
theorem frozen_mem_iff (h : s.Counts) : Xid.frozen ∈ s.issued ↔ 2 ^ 32 ≤ s.issued.length := by
  constructor
  · intro hmem
    obtain ⟨k, hk⟩ := List.mem_iff_getElem?.mp hmem
    have hlt := (List.getElem?_eq_some_iff.mp hk).1
    have hzero : (k + 1) % 2 ^ 32 = 0 := by
      rw [← UInt32.toNat_ofNat', ← h.issued hk]
      rfl
    omega
  · intro hle
    exact List.mem_iff_getElem?.mpr ⟨2 ^ 32 - 1, h.get (by omega)⟩

/-- The ids come again when all numbers have been used. -/
theorem nodup_iff (h : s.Counts) : s.issued.Nodup ↔ s.issued.length ≤ 2 ^ 32 := by
  rw [List.nodup_iff_getElem?_ne_getElem?]
  constructor
  · intro hdistinct
    -- One more begin than there are numbers issues the first id again.
    by_contra hmany
    have hfirst : s.issued[0]? = some 1 := h.get (by omega)
    have hagain : s.issued[2 ^ 32]? = some 1 := h.get (by omega)
    exact hdistinct 0 (2 ^ 32) (by decide) (by omega) (hfirst.trans hagain.symm)
  · intro hle i j hij hj hsame
    rw [h.get hj, h.get (hij.trans hj), Option.some.injEq] at hsame
    have hmod : (i + 1) % 2 ^ 32 = (j + 1) % 2 ^ 32 := by
      calc (i + 1) % 2 ^ 32 = (UInt32.ofNat (i + 1)).toNat := UInt32.toNat_ofNat'.symm
        _ = (UInt32.ofNat (j + 1)).toNat := by rw [hsame]
        _ = (j + 1) % 2 ^ 32 := UInt32.toNat_ofNat'
    omega

theorem trusted_iff (h : s.Counts) : s.Trusted ↔ s.issued.length < 2 ^ 32 - 1 := by
  constructor
  · intro htrusted
    have hvalid := htrusted.valid
    rw [h.invalid_mem_iff] at hvalid
    exact Nat.not_le.mp hvalid
  · intro hfew
    have hvalid : Xid.invalid ∉ s.issued := by
      rw [h.invalid_mem_iff]
      exact Nat.not_le.mpr hfew
    have hunfrozen : Xid.frozen ∉ s.issued := by
      rw [h.frozen_mem_iff]
      omega
    refine ⟨h.nodup_iff.mpr (by omega), hunfrozen, hvalid, leaves_stamps_iff.mpr ?_⟩
    exact Bool.eq_false_iff.mpr fun hactive => hvalid (h.active hactive)

end Counts

/-- Whatever is asked of a new manager, the ids are the numbers from 1 on in 32 bits. All of them can be
trusted just as long as the number that means "not deleted" has not come up. -/
theorem after_trusted_iff (requests : List Request) :
    let s := Numbering.after {} requests
    (∀ {k : Nat} {x : Xid}, s.issued[k]? = some x → x = UInt32.ofNat (k + 1)) ∧
      (s.Trusted ↔ s.issued.length < 2 ^ 32 - 1) := by
  intro s
  have hcounts : s.Counts := Counts.start.after requests
  exact ⟨hcounts.issued, hcounts.trusted_iff⟩

theorem after_begins (s : Numbering) (n : Nat) :
    (s.after (List.replicate n .begin)).issued.length = s.issued.length + n := by
  induction n generalizing s with
  | zero => rfl
  | succ n ih =>
    have hlength : (s.step .begin).issued.length = s.issued.length + 1 := List.length_append
    calc (s.after (List.replicate (n + 1) .begin)).issued.length
        = ((s.step .begin).after (List.replicate n .begin)).issued.length := rfl
      _ = s.issued.length + (n + 1) := by
        rw [ih, hlength, Nat.add_assoc, Nat.add_comm 1]

theorem last_active (s : Numbering) (n : Nat) :
    (s.after (List.replicate (n + 1) .begin)).manager.isActive
      (s.after (List.replicate n .begin)).manager.nextXid = true := by
  rw [List.replicate_succ', after, List.foldl_append]
  exact Manager.is_active_iff.mpr (List.mem_insert_self ..)

/-- When as many transactions have begun as there are numbers after the frozen one, the last one runs
with an id that leaves no stamp: it deletes a version, and the version is not deleted. -/
theorem last_begin_leaves_no_stamp :
    let s := Numbering.after {} (List.replicate (2 ^ 32 - 2 + 1) .begin)
    let v : Version := ⟨0, 1, [.bigint 5], Xid.frozen⟩
    s.issued[2 ^ 32 - 2]? = some Xid.invalid ∧ s.manager.isActive Xid.invalid = true ∧
      ∃ h h' : Headers, v.header < h.deleters.size ∧
        h.markDeleted v Xid.invalid (fun _ => false) = .ok h' ∧ h'.deleter? v = none := by
  intro s v
  -- The run is too long to be evaluated; how many ids there are says which one is the last.
  have hcounts : s.Counts := Counts.start.after _
  have hlength : s.issued.length = 2 ^ 32 - 2 + 1 :=
    (after_begins {} (2 ^ 32 - 2 + 1)).trans (Nat.zero_add _)
  have hlast : s.manager.isActive Xid.invalid = true := by
    have hbefore := (Counts.start.after (List.replicate (2 ^ 32 - 2) .begin)).next
    rw [after_begins] at hbefore
    have hactive := last_active {} (2 ^ 32 - 2)
    rwa [hbefore] at hactive
  exact ⟨hcounts.get (by omega), hlast, ⟨#[none]⟩, ⟨#[none]⟩, Nat.one_pos, rfl, rfl⟩

end Numbering

end VersionedIndex
