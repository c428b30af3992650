import VersionedIndex.Proofs.Table.Books

namespace VersionedIndex

namespace History

variable {h : History} {v : Version} {x y : Xid}

/-- Of two transactions that have deleted the same version one has aborted. -/
theorem Legal.aborted_of_deleted (hl : h.Legal) (hx : .deleted v x ∈ h) (hy : .deleted v y ∈ h)
    (hne : x ≠ y) : .aborted x ∈ h ∨ .aborted y ∈ h := by
  -- By induction on the history: a deletion follows those of the same version only if their
  -- transactions have aborted by then.
  induction hl with
  | nil => cases hx
  | @cons e h hf _ ih =>
    have hlater {z : Xid} (hz : .aborted z ∈ h) : .aborted z ∈ e :: h := List.mem_cons_of_mem e hz
    rcases List.mem_cons.mp hx with rfl | hx' <;> rcases List.mem_cons.mp hy with hy' | hy'
    · exact absurd (Event.deleted.inj hy').2.symm hne
    · exact Or.inr (hlater ((hf.2.2 y hy').resolve_left hne.symm))
    · subst hy'
      exact Or.inl (hlater ((hf.2.2 x hx').resolve_left hne))
    · exact (ih hx' hy').imp hlater hlater

theorem Legal.deleter_unique (hl : h.Legal) (hx : .deleted v x ∈ h) (hy : .deleted v y ∈ h)
    (hxc : .committed x ∈ h) (hyc : .committed y ∈ h) : x = y := by
  by_contra hne
  rcases hl.aborted_of_deleted hx hy hne with haborted | haborted
  · exact hl.not_aborted_of_committed hxc haborted
  · exact hl.not_aborted_of_committed hyc haborted

end History

/-- The stamp of another transaction that must not be replaced keeps a deletion out. -/
theorem Headers.mark_deleted_of_held {h : Headers} {v : Version} {x y : Xid} {aborted : Xid → Bool}
    (hy : h.deleter? v = some y) (hother : y ≠ x) (hkept : aborted y = false) :
    h.markDeleted v x aborted = .error y := by
  have hheld : ¬(y = x ∨ aborted y = true) := by
    rw [hkept]
    exact not_or_intro hother Bool.false_ne_true
  simp only [markDeleted, hy, if_neg hheld]

namespace TableAction

variable {w : Table.Workspace} {txn : Transaction} {v : Version} {x : Xid}

theorem delete_of_held (hactive : w.manager.isActive txn.xid = true)
    (hx : w.headers.deleter? v = some x) (hother : x ≠ txn.xid)
    (hkept : w.manager.isAborted x = false) : delete txn v w = .error (.writeConflict v.id) w := by
  have hget : (get : TableAction Table.Workspace) w = .ok w w := rfl
  simp only [delete]
  rw [Action.bind_of_ok (ensure_active_of_active hactive), Action.bind_of_ok hget,
    Headers.mark_deleted_of_held hx hother hkept]
  rfl

theorem update_of_held (hactive : w.manager.isActive txn.xid = true)
    (hx : w.headers.deleter? v = some x) (hother : x ≠ txn.xid)
    (hkept : w.manager.isAborted x = false) (row : Row) :
    update txn v row w = .error (.writeConflict v.id) w := by
  have hget : (get : TableAction Table.Workspace) w = .ok w w := rfl
  simp only [update]
  rw [Action.bind_of_ok hget]
  exact Action.bind_of_error (delete_of_held hactive hx hother hkept)

end TableAction

namespace Ledger.Sound

variable {s : Ledger} {v : Version} {x : Xid}

/-- The stamp of a deleter that has committed stands, and the manager knows nothing against it. -/
theorem held_of_committed (h : s.Sound) (hx : .deleted v x ∈ s.history)
    (hcommitted : .committed x ∈ s.history) :
    s.headers.deleter? v = some x ∧ s.manager.isAborted x = false := by
  have hnever : .aborted x ∉ s.history := h.legal.not_aborted_of_committed hcommitted
  refine ⟨h.headers.standing v x hx hnever, Bool.eq_false_iff.mpr fun hmarked => ?_⟩
  exact hnever (h.manager.aborted x hmarked)

end Ledger.Sound

namespace Run

variable {r : Run}

/-- While the ids of transactions last, of the transactions that have deleted or updated a version one
at most commits. Once one has, the version keeps its stamp, and every other transaction that tries to
delete or to update it is told of the conflict and changes nothing. -/
theorem Occurs.no_lost_update (h : Occurs r) (hfew : r.history.begun.length < 2 ^ 32 - 2) :
    (∀ (v : Version) (x y : Xid), .deleted v x ∈ r.history → .deleted v y ∈ r.history → x ≠ y →
      ¬(.committed x ∈ r.history ∧ .committed y ∈ r.history)) ∧
    ∀ (v : Version) (x : Xid), .deleted v x ∈ r.history → .committed x ∈ r.history →
      r.work.headers.deleter? v = some x ∧
      ∀ txn : Transaction, r.work.manager.isActive txn.xid = true →
        (TableAction.delete txn v).outcome r.work = (.error (.writeConflict v.id), r.work) ∧
        ∀ row : Row, (TableAction.update txn v row).outcome r.work =
          (.error (.writeConflict v.id), r.work) := by
  have hsound := h.sound (Nat.lt_of_lt_pred hfew)
  constructor
  · rintro v x y hx hy hne ⟨hxc, hyc⟩
    exact hne (hsound.legal.deleter_unique hx hy hxc hyc)
  · intro v x hx hcommitted
    obtain ⟨hstamp, hkept⟩ := hsound.held_of_committed hx hcommitted
    refine ⟨hstamp, fun txn hactive => ?_⟩
    have hother : x ≠ txn.xid := by
      rintro rfl
      exact ((hsound.manager.active txn.xid).mp hactive).2.1 hcommitted
    constructor
    · rw [Action.outcome, TableAction.delete_of_held hactive hstamp hother hkept]
    · intro row
      rw [Action.outcome, TableAction.update_of_held hactive hstamp hother hkept row]

/-- A transaction deletes a version and aborts, the next one updates it and commits, and a third one
runs that began before. -/
def disputed : Run := sampleStart.after [
  .addIndex (IndexDefinition.plain "up" 1 [0] [.bigint]) {},
  .begin,
  .insert ⟨1, []⟩ [.bigint 5],
  .commit ⟨1, []⟩,
  .begin,
  .begin,
  .begin,
  .delete ⟨2, []⟩ ⟨0, 1, [.bigint 5], 1⟩,
  .abort ⟨2, []⟩,
  .update ⟨3, [2]⟩ ⟨0, 1, [.bigint 5], 1⟩ [.bigint 6],
  .vacuum,
  .commit ⟨3, [2]⟩]

/-- Of the two deleters only the second one has committed, and the third transaction cannot delete or
update the version any more. -/
theorem disputed_no_lost_update :
    let v : Version := ⟨0, 1, [.bigint 5], 1⟩
    let txn : Transaction := ⟨4, [3, 2]⟩
    .deleted v 2 ∈ disputed.history ∧ .deleted v 3 ∈ disputed.history ∧
    ¬(.committed 2 ∈ disputed.history ∧ .committed 3 ∈ disputed.history) ∧
    .committed 3 ∈ disputed.history ∧ .began txn ∈ disputed.history ∧
    (TableAction.delete txn v).outcome disputed.work = (.error (.writeConflict 1), disputed.work) ∧
    (TableAction.update txn v [.bigint 7]).outcome disputed.work =
      (.error (.writeConflict 1), disputed.work) := by
  intro v txn
  have hreaches : Reaches disputed := sample_start_reaches.after (by decide +kernel)
  obtain ⟨hone, hheld⟩ := hreaches.occurs.no_lost_update (by decide +kernel)
  have hfirst : .deleted v 2 ∈ disputed.history := by decide +kernel
  have hsecond : .deleted v 3 ∈ disputed.history := by decide +kernel
  have hcommitted : .committed 3 ∈ disputed.history := by decide +kernel
  obtain ⟨hdelete, hupdate⟩ := (hheld v 3 hsecond hcommitted).2 txn (by decide +kernel)
  exact ⟨hfirst, hsecond, hone v 2 3 hfirst hsecond (by decide), hcommitted, by decide +kernel,
    hdelete, hupdate [.bigint 7]⟩

end Run

end VersionedIndex
