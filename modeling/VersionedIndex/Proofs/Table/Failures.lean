import VersionedIndex.Proofs.Table.Runs
import VersionedIndex.Proofs.Table.Sequences

namespace VersionedIndex

/-- Stamps that have gone do not count when they are neither the reader's own nor committed. -/
theorem Transaction.can_read_of_loosened {txn : Transaction} {m : Manager} {h h' : Headers}
    {aborted : Xid → Bool} (hloose : Headers.Loosened aborted h h')
    (hidle : ∀ x, aborted x = true → x ≠ txn.xid ∧ m.isCommitted x = false) (v : Version)
    (mode : ReadMode) : txn.canRead m h' v mode = txn.canRead m h v mode := by
  rcases hloose v with heq | ⟨hnone, haborted⟩
  · simp only [canRead, heq]
  · cases hdeleter : h.deleter? v with
    | none => simp only [canRead, hnone, hdeleter]
    | some x =>
      obtain ⟨hother, hnever⟩ := hidle x (haborted x hdeleter)
      have hunseen : txn.seesCommitted m x = false := by
        rw [Manager.isCommitted, Bool.or_eq_false_iff] at hnever
        rw [seesCommitted, Manager.isCommitted, hnever.1, hnever.2]
        simp
      -- The deletion stands in none of the modes, so the version does as if it had no stamp.
      have hnot : (x != txn.xid) = true := bne_iff_ne.mpr hother
      cases mode <;> simp [canRead, hnone, hdeleter, hnot, hnever, hunseen]

theorem Manager.aborted_of_finish {m m' : Manager} {x y : Xid} {commit : Bool}
    (hfinish : m.finish x commit = .ok m') (hy : m.isAborted y = true) :
    m'.isAborted y = true := by
  obtain ⟨-, rfl⟩ := finish_eq_ok hfinish
  cases commit with
  | true => exact hy
  | false =>
    rw [is_aborted_iff] at hy ⊢
    exact List.mem_insert_of_mem hy

namespace Call

open TableAction

variable {w : Table.Workspace} {l : List (List Version)} {c : Call}

def manages : Call → Bool
  | begin | commit _ | abort _ => true
  | _ => false

theorem on_manager_settles (h : w.table.Lists l) {act : Manager → Except Error Manager}
    (hact : ∀ {m : Manager} {n : Nat}, act w.manager = .ok m → w.manager.Recalls n → m.Recalls n) :
    Settles l w (onManager act) := by
  cases hrun : act w.manager with
  | error err => exact Or.inl ⟨err, w, on_manager_of_error hrun, .refl h⟩
  | ok manager =>
    refine Or.inr ⟨(), _, on_manager_of_ok hrun, h.in_shape, id, ?_⟩
    exact fun hrecalls _ => hact hrun hrecalls

def Ends (l : List (List Version)) (w : Table.Workspace) (act : TableAction History) : Prop :=
  (∃ err w', act w = .error err w' ∧ Fails (·.Lists l) w w') ∨
  (∃ happened w', act w = .ok happened w' ∧ Keeps happened.begun.length w w')

/-- But for a begin, a call says after an action what has happened, and that is no begin. -/
theorem ends_of_settles {α : Type} {act : TableAction α} (hact : Settles l w act)
    {said : α → History} (hsaid : ∀ a, (said a).begun = []) :
    Ends l w (act >>= fun a => pure (said a)) := by
  rcases hact with ⟨err, w', hfail, hfails⟩ | ⟨a, w', hok, hkeeps⟩
  · exact Or.inl ⟨err, w', Action.bind_of_error hfail, hfails⟩
  · refine Or.inr ⟨said a, w', Action.bind_of_ok hok, ?_⟩
    rw [hsaid a]
    exact hkeeps

theorem perform_ends (h : w.table.Lists l) (hmarks : w.headers.Unmarked)
    (hroom : c.stores = true → w.table.HasSlots) : Ends l w c.perform := by
  cases c with
  | begin =>
    refine Or.inr ⟨[.began w.manager.begin.1], { w with manager := w.manager.begin.2 }, rfl,
      h.in_shape, id, ?_⟩
    exact fun hrecalls hfew => hrecalls.begin hfew
  | commit txn =>
    exact ends_of_settles (on_manager_settles h fun hok hrecalls => hrecalls.finish hok) fun _ => rfl
  | abort txn =>
    exact ends_of_settles (on_manager_settles h fun hok hrecalls => hrecalls.finish hok) fun _ => rfl
  | insert txn row => exact ends_of_settles (insert_settles h (hroom rfl) txn row) fun _ => rfl
  | delete txn v => exact ends_of_settles (delete_settles h txn v) fun _ => rfl
  | update txn v row =>
    exact ends_of_settles (update_settles h (hroom rfl) hmarks txn v row) fun _ => rfl
  | scan txn position => exact ends_of_settles (scan_settles h txn position).discard fun _ => rfl
  | purge v => exact ends_of_settles (purge_settles h v).discard fun _ => rfl
  | vacuum => exact ends_of_settles (vacuum_settles h).discard fun _ => rfl
  | reclaim => exact ends_of_settles (reclaim_settles h).discard fun _ => rfl
  | addIndex d config => exact ends_of_settles (add_index_settles h d config).discard fun _ => rfl

end Call

namespace Run

variable {r r' : Run}

/-- What a run keeps when nothing but the slots of its trees is known to last. -/
structure Sturdy (r : Run) : Prop where
  lists : ∃ l, r.work.table.Lists l
  unmarked : r.work.headers.Unmarked
  recalls : r.history.begun.length < 2 ^ 32 - 1 → r.work.manager.Recalls r.history.begun.length

theorem Sturdy.step (h : Sturdy r) {c : Call} (hroom : c.stores = true → r.work.table.HasSlots) :
    Sturdy (r.step c) := by
  obtain ⟨⟨l, hl⟩, hmarks, hrecalls⟩ := h
  rcases Call.perform_ends hl hmarks hroom with
    ⟨err, work, hfail, hfails⟩ | ⟨happened, work, hok, hkeeps⟩
  · rw [step_of_error hfail]
    exact ⟨⟨l, hfails.table⟩, hmarks.of_loosened hfails.loosened,
      fun hfew => hfails.manager ▸ hrecalls hfew⟩
  · rw [step_of_ok hok]
    refine ⟨⟨_, hkeeps.in_shape, rfl⟩, hkeeps.unmarked hmarks, fun hfew => ?_⟩
    rw [History.begun_append, List.length_append, Nat.add_comm] at hfew ⊢
    exact hkeeps.manager (hrecalls (by omega)) hfew

theorem Attains.sturdy (h : Attains Table.HasSlots r) : Sturdy r := by
  induction h with
  | start hcreate =>
    have hholds := (start_holds hcreate).1
    exact ⟨⟨_, hholds.in_shape, rfl⟩, nofun, fun _ => .start⟩
  | step c _ hroom ih => exact ih.step hroom

structure Loosens (r r' : Run) : Prop where
  manager : r'.work.manager = r.work.manager
  headers : Headers.Loosened r.work.manager.isAborted r.work.headers r'.work.headers

namespace Loosens

/-- Ending a transaction leaves the stamps, and who has aborted before has still aborted. -/
theorem finish (h : Loosens r r') {c : Call} {act : Manager → Except Error Manager}
    {said : History} (hperform : c.perform = (do Call.onManager act; return said))
    (hmore : ∀ {m : Manager} {x : Xid}, act r.work.manager = .ok m →
      r.work.manager.isAborted x = true → m.isAborted x = true) :
    Loosens (r.step c) (r'.step c) := by
  cases hrun : act r.work.manager with
  | error err =>
    have hrun' := hrun
    rw [← h.manager] at hrun'
    rw [step_of_error (hperform ▸ Action.bind_of_error (Call.on_manager_of_error hrun)),
      step_of_error (hperform ▸ Action.bind_of_error (Call.on_manager_of_error hrun'))]
    exact h
  | ok manager =>
    have hrun' := hrun
    rw [← h.manager] at hrun'
    rw [step_of_ok (hperform ▸ Action.bind_of_ok (Call.on_manager_of_ok hrun)),
      step_of_ok (hperform ▸ Action.bind_of_ok (Call.on_manager_of_ok hrun'))]
    exact ⟨rfl, h.headers.mono fun x hx => hmore hrun hx⟩

theorem step (h : Loosens r r') {c : Call} (hc : c.manages = true) :
    Loosens (r.step c) (r'.step c) := by
  cases c with
  | begin => exact ⟨congrArg (·.begin.2) h.manager, h.headers⟩
  | commit txn => exact h.finish rfl Manager.aborted_of_finish
  | abort txn => exact h.finish rfl Manager.aborted_of_finish
  | _ => cases hc

theorem after (h : Loosens r r') {later : List Call} (hlater : ∀ c ∈ later, c.manages = true) :
    Loosens (r.after later) (r'.after later) := by
  induction later generalizing r r' with
  | nil => exact h
  | cons c later ih =>
    rw [List.forall_mem_cons] at hlater
    exact ih (h.step hlater.1) hlater.2

end Loosens

theorem Sturdy.after (h : Sturdy r) {later : List Call} (hlater : ∀ c ∈ later, c.manages = true) :
    Sturdy (r.after later) := by
  induction later generalizing r with
  | nil => exact h
  | cons c later ih =>
    rw [List.forall_mem_cons] at hlater
    refine ih (h.step fun hstores => ?_) hlater.2
    have hmanages := hlater.1
    cases c with
    | insert _ _ | update _ _ _ => cases hmanages
    | _ => cases hstores

/-- Two runs that cannot be told apart by what there is to read: neither by the lists of the trees, nor
by what a transaction reads that is active, now or after others have begun and ended. -/
structure Alike (r r' : Run) : Prop where
  definitions : r'.work.table.definitions = r.work.table.definitions
  versions : r'.work.table.store.trees.map Tree.versions =
    r.work.table.store.trees.map Tree.versions
  counts : r'.work.table.store.trees.map Tree.elementCount =
    r.work.table.store.trees.map Tree.elementCount
  manager : r'.work.manager = r.work.manager
  reads : ∀ {later : List Call}, (∀ c ∈ later, c.manages = true) →
    (r.after later).history.begun.length < 2 ^ 32 - 1 → ∀ {txn : Transaction},
    (r.after later).work.manager.isActive txn.xid = true → ∀ (v : Version) (mode : ReadMode),
    txn.canRead (r'.after later).work.manager (r'.after later).work.headers v mode =
      txn.canRead (r.after later).work.manager (r.after later).work.headers v mode

/-- Nobody can tell whether a call that fails has been made. -/
theorem Attains.alike_of_failure (h : Attains Table.HasSlots r) {c : Call}
    (hroom : c.stores = true → r.work.table.HasSlots) {err : Error}
    (hfail : (c.perform.outcome r.work).1 = .error err) : Alike r (r.step c) := by
  have hsturdy := h.sturdy
  obtain ⟨l, hl⟩ := hsturdy.lists
  rcases Call.perform_ends hl hsturdy.unmarked hroom with
    ⟨err', work, hperform, hfails⟩ | ⟨happened, work, hperform, -⟩
  · have hstep := step_of_error hperform
    have hloosens : Loosens r (r.step c) := by
      rw [hstep]
      exact ⟨hfails.manager, hfails.loosened⟩
    constructor
    case definitions =>
      rw [hstep]
      exact hfails.definitions
    case versions =>
      rw [hstep]
      exact hfails.table.versions_eq.trans hl.versions_eq.symm
    case counts =>
      rw [hstep]
      exact hfails.table.counts_eq.trans hl.counts_eq.symm
    case manager => exact hloosens.manager
    case reads =>
      intro later hlater hfew txn hactive v mode
      have hafter := hloosens.after hlater
      have hrecalls := (hsturdy.after hlater).recalls hfew
      rw [hafter.manager]
      apply Transaction.can_read_of_loosened hafter.headers
      intro x hx
      -- A reader that runs has not aborted, so the stamp that has gone was not its own.
      obtain ⟨hidle, hnever⟩ := hrecalls.of_aborted hx
      refine ⟨?_, hnever⟩
      rintro rfl
      rw [hactive] at hidle
      cases hidle
  · rw [Action.outcome, hperform] at hfail
    cases hfail

def contested : Run := sampleStart.after [
  .addIndex (IndexDefinition.plain "up" 1 [0] [.bigint]) {},
  .addIndex { IndexDefinition.plain "keys" 2 [0] [.bigint] with unique := true } {},
  .begin,
  .insert ⟨1, []⟩ [.bigint 5],
  .insert ⟨1, []⟩ [.bigint 6],
  .commit ⟨1, []⟩,
  .begin,
  .delete ⟨2, []⟩ ⟨0, 1, [.bigint 5], 1⟩,
  .abort ⟨2, []⟩,
  .begin]

/-- The update stamps the first row over the stamp of the aborted transaction, its new version goes into
the first index and is refused by the second, and then only that stamp is gone. -/
theorem refused_update_alike :
    let u : Version := ⟨0, 1, [.bigint 5], 1⟩
    let c := Call.update ⟨3, []⟩ u [.bigint 6]
    (c.perform.outcome contested.work).1 = .error (.duplicateKey "keys" none) ∧
    contested.work.headers.deleter? u = some 2 ∧
    (contested.step c).work.headers.deleter? u = none ∧
    Alike contested (contested.step c) := by
  intro u c
  have hreaches : Reaches contested := sample_start_reaches.after (by decide +kernel)
  have hattains : Attains Table.HasSlots contested := hreaches.attains.mono fun hroom => hroom.trees
  have hfail : (c.perform.outcome contested.work).1 = .error (.duplicateKey "keys" none) := by
    decide +kernel
  refine ⟨hfail, by decide +kernel, by decide +kernel, ?_⟩
  exact hattains.alike_of_failure (fun _ => by decide +kernel) hfail

end Run

end VersionedIndex
