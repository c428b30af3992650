import VersionedIndex.Proofs.Table.Failures
import VersionedIndex.Proofs.Table.Snapshot

namespace VersionedIndex

namespace History

variable {h earlier : History} {txn : Transaction} {v : Version} {x : Xid}

/-- The creator of the version has aborted, or nothing runs and a deletion of it has been committed. -/
def Dead (h : History) (v : Version) : Prop :=
  .aborted v.creator ∈ h ∨ (∀ x, ¬h.Running x) ∧ ∃ x, .deleted v x ∈ h ∧ .committed x ∈ h

/-- What runs now, although nothing ran at some time, has begun since. -/
theorem Running.not_began (hrunning : h.Running txn.xid) (hsuffix : earlier <:+ h)
    (hquiet : ∀ x, ¬earlier.Running x) : .began txn ∉ earlier := by
  intro ht
  apply hquiet txn.xid
  refine ⟨⟨txn, ht, rfl⟩, ?_, ?_⟩
  · exact fun hcommitted => hrunning.2.1 (hsuffix.subset hcommitted)
  · exact fun haborted => hrunning.2.2 (hsuffix.subset haborted)

/-- What has been dead at some time is not read by any transaction that runs then or later. -/
theorem Dead.not_reads (hdead : earlier.Dead v) (hl : h.Legal) (hsuffix : earlier <:+ h)
    (ht : .began txn ∈ h) (hrunning : h.Running txn.xid) : ¬h.Reads txn v := by
  rintro ⟨hcreation, hdeletions⟩
  rcases hdead with haborted | ⟨hquiet, x, hdeleted, hcommitted⟩
  · have hnever : .aborted v.creator ∈ h := hsuffix.subset haborted
    rcases hcreation with hown | hseen
    · rw [hown] at hnever
      exact hrunning.2.2 hnever
    · exact hl.not_aborted_of_committed (mem_of_mem_past hseen) hnever
  · -- The transaction has begun after the deletion had been committed, so it sees that.
    have hpast : earlier <:+ h.past txn :=
      suffix_past hsuffix ht (hrunning.not_began hsuffix hquiet)
    apply hdeletions x (mem_deleters.mpr (hsuffix.subset hdeleted))
    exact Or.inr (hpast.subset hcommitted)

end History

theorem Manager.Records.quiet_iff {m : Manager} {h : History} (hm : m.Records h) :
    m.hasActive = false ↔ ∀ x, ¬h.Running x := by
  rw [Manager.hasActive, Bool.not_eq_false', List.isEmpty_iff, List.eq_nil_iff_forall_not_mem]
  exact forall_congr' fun x => not_congr (hm.snapshot x)

namespace Ledger.Sound

open TableAction

variable {s : Ledger} {v : Version}

theorem is_aborted_creator_iff (h : s.Sound) (hv : v ∈ s.stored) :
    s.manager.isAborted v.creator = true ↔ .aborted v.creator ∈ s.history :=
  ⟨h.manager.aborted v.creator, h.settled v hv v.creator (Or.inl rfl)⟩

/-- The stamp on a stored version tells whether a deletion of it has been committed. -/
theorem committed_stamp_iff (h : s.Sound) (hv : v ∈ s.stored) :
    (s.headers.deleter? v).any s.manager.isCommitted = true ↔
      ∃ x, .deleted v x ∈ s.history ∧ .committed x ∈ s.history := by
  rw [Option.any_eq_true]
  apply exists_congr
  intro x
  constructor
  · rintro ⟨hstamp, hcommitted⟩
    have hmentions : s.Mentions v x := Or.inr hstamp
    exact ⟨h.headers.stamped v x (h.created v hv) hstamp,
      (h.is_committed_iff hv hmentions).mp hcommitted⟩
  · rintro ⟨hdeleted, hcommitted⟩
    have hnever := h.legal.not_aborted_of_committed hcommitted
    have hstamp : s.headers.deleter? v = some x := h.headers.standing v x hdeleted hnever
    exact ⟨hstamp, (h.is_committed_iff hv (Or.inr hstamp)).mpr hcommitted⟩

/-- The manager and the headers tell of the stored versions which of them are dead. -/
theorem is_dead_iff (h : s.Sound) (hv : v ∈ s.stored) :
    isDead s.manager s.headers v = true ↔ s.history.Dead v := by
  rw [isDead, Bool.or_eq_true, Bool.and_eq_true, Bool.not_eq_true', h.is_aborted_creator_iff hv,
    h.manager.quiet_iff, h.committed_stamp_iff hv]
  exact Iff.rfl

/-- Stored versions mention no aborted transaction that has been forgotten. -/
theorem not_mentions_of_forgotten (h : s.Sound) (hv : v ∈ s.stored) {x : Xid}
    (haborted : .aborted x ∈ s.history) (hforgotten : s.manager.isAborted x = false) :
    ¬s.Mentions v x := by
  intro hx
  have hstill := h.settled v hv x hx haborted
  exact Bool.false_ne_true (hforgotten.symm.trans hstill)

end Ledger.Sound

/-- A tree that holds some of the versions that another one holds in the same order lists them as the
other does. -/
theorem Index.Contains.versions_filter {ix ix' : Index} {t t' : Tree} {stored : Multiset Version}
    {p : Version → Prop} [DecidablePred p] (h : ix.Contains t stored)
    (h' : ix'.Contains t' (stored.filter p)) (horder : ix'.order = ix.order) :
    t'.versions = t.versions.filter p := by
  have hsorted := h'.sorted
  rw [horder] at hsorted
  refine (KeyOrder.eq_of_before (h.sorted.filter p) hsorted ?_ fun v => ?_).symm
  · intro v hv
    exact h.accepted (h.mem_versions.mp (List.mem_of_mem_filter hv))
  · rw [List.mem_filter, decide_eq_true_eq, h'.mem_versions, Multiset.mem_filter, h.mem_versions]

namespace Run

variable {r r' : Run}

theorem not_read_of_dead (h : Reaches r) (hfew : r.history.begun.length < 2 ^ 32 - 2)
    {earlier : History} (hsuffix : earlier <:+ r.history) {v : Version} (hdead : earlier.Dead v)
    (hv : r.work.table.Stores v) {txn : Transaction} (ht : .began txn ∈ r.history)
    (hactive : r.work.manager.isActive txn.xid = true) :
    txn.canRead r.work.manager r.work.headers v .read = false := by
  obtain ⟨stored, hholds, -, hsound⟩ := h.sound (Nat.lt_of_lt_pred hfew)
  have hrunning : r.history.Running txn.xid := (hsound.manager.active txn.xid).mp hactive
  apply Bool.eq_false_iff.mpr
  intro hread
  apply hdead.not_reads hsound.legal hsuffix ht hrunning
  exact (hsound.can_read_iff ht hactive (hholds.stores_iff.mp hv)).mp hread

/-- What is read of a version that two runs store goes by what has happened. -/
theorem can_read_of_history_eq (h : Reaches r) (h' : Reaches r') (hsame : r'.history = r.history)
    (hfew : r.history.begun.length < 2 ^ 32 - 2) {v : Version} (hv : r.work.table.Stores v)
    (hv' : r'.work.table.Stores v) {txn : Transaction} (ht : .began txn ∈ r.history)
    (hactive : r.work.manager.isActive txn.xid = true) :
    txn.canRead r'.work.manager r'.work.headers v .read =
      txn.canRead r.work.manager r.work.headers v .read := by
  obtain ⟨stored, hholds, -, hsound⟩ := h.sound (Nat.lt_of_lt_pred hfew)
  obtain ⟨stored', hholds', -, hsound'⟩ := h'.sound (hsame ▸ Nat.lt_of_lt_pred hfew)
  have hrunning : r'.history.Running txn.xid := by
    rw [hsame]
    exact (hsound.manager.active txn.xid).mp hactive
  have hactive' : r'.work.manager.isActive txn.xid = true :=
    (hsound'.manager.active txn.xid).mpr hrunning
  have ht' : .began txn ∈ r'.history := hsame ▸ ht
  apply Bool.eq_iff_iff.mpr
  calc txn.canRead r'.work.manager r'.work.headers v .read = true
      ↔ r'.history.Reads txn v := hsound'.can_read_iff ht' hactive' (hholds'.stores_iff.mp hv')
    _ ↔ r.history.Reads txn v := by rw [hsame]
    _ ↔ txn.canRead r.work.manager r.work.headers v .read = true :=
      (hsound.can_read_iff ht hactive (hholds.stores_iff.mp hv)).symm

/-- The same has happened in two runs, and their managers issue the same ids and let the same
transactions run. -/
structure Abreast (r r' : Run) : Prop where
  history : r'.history = r.history
  next : r'.work.manager.nextXid = r.work.manager.nextXid
  active : r'.work.manager.active = r.work.manager.active

namespace Abreast

theorem begin (h : Abreast r r') : Abreast (r.step .begin) (r'.step .begin) := by
  have hbegun : r'.work.manager.begin.1 = r.work.manager.begin.1 := by
    rw [Manager.begin, Manager.begin, h.next, h.active]
  refine ⟨?_, ?_, ?_⟩
  · change .began r'.work.manager.begin.1 :: r'.history = .began r.work.manager.begin.1 :: r.history
    rw [hbegun, h.history]
  · change r'.work.manager.nextXid + 1 = r.work.manager.nextXid + 1
    rw [h.next]
  · change r'.work.manager.active.insert r'.work.manager.nextXid =
      r.work.manager.active.insert r.work.manager.nextXid
    rw [h.next, h.active]

theorem finish (h : Abreast r r') {c : Call} {x : Xid} {commit : Bool} {said : History}
    (hperform : c.perform = (do Call.onManager (·.finish x commit); return said)) :
    Abreast (r.step c) (r'.step c) := by
  have hsame : r'.work.manager.isActive x = r.work.manager.isActive x := by
    rw [Manager.isActive, Manager.isActive, h.active]
  cases hactive : r.work.manager.isActive x with
  | false =>
    have hclosed (m : Manager) (hm : m.isActive x = false) :
        m.finish x commit = .error (.transactionClosed x) := by
      rw [Manager.finish, hm, if_neg Bool.false_ne_true]
    rw [step_of_error (hperform ▸ Action.bind_of_error (Call.on_manager_of_error (hclosed _ hactive))),
      step_of_error (hperform ▸ Action.bind_of_error
        (Call.on_manager_of_error (hclosed _ (hsame.trans hactive))))]
    exact h
  | true =>
    have hends (m : Manager) (hm : m.isActive x = true) : m.finish x commit = .ok { m with
        active := m.active.erase x
        aborted := if commit then m.aborted else m.aborted.insert x } := by
      rw [Manager.finish, hm, if_pos rfl]
    rw [step_of_ok (hperform ▸ Action.bind_of_ok (Call.on_manager_of_ok (hends _ hactive))),
      step_of_ok (hperform ▸ Action.bind_of_ok
        (Call.on_manager_of_ok (hends _ (hsame.trans hactive))))]
    refine ⟨?_, h.next, ?_⟩
    · change said ++ r'.history = said ++ r.history
      rw [h.history]
    · change r'.work.manager.active.erase x = r.work.manager.active.erase x
      rw [h.active]

theorem step (h : Abreast r r') {c : Call} (hc : c.manages = true) (hallows : r.Allows c) :
    r'.Allows c ∧ Abreast (r.step c) (r'.step c) := by
  cases c with
  | begin => exact ⟨trivial, h.begin⟩
  | commit txn | abort txn =>
    have hbegan : .began txn ∈ r'.history := h.history ▸ hallows
    exact ⟨hbegan, h.finish rfl⟩
  | _ => cases hc

theorem after (h : Abreast r r') {later : List Call} (hlater : ∀ c ∈ later, c.manages = true)
    (hallows : r.AllowsAll later) : r'.AllowsAll later ∧ Abreast (r.after later) (r'.after later) := by
  induction later generalizing r r' with
  | nil => exact ⟨trivial, h⟩
  | cons c later ih =>
    rw [List.forall_mem_cons] at hlater
    obtain ⟨hallows', hstep⟩ := h.step hlater.1 hallows.1
    obtain ⟨hrest, hafter⟩ := ih hstep hlater.2 hallows.2
    exact ⟨⟨hallows', hrest⟩, hafter⟩

end Abreast

theorem table_of_manages {c : Call} (hc : c.manages = true) :
    (r.step c).work.table = r.work.table := by
  have hmanager {act : Manager → Except Error Manager} {said : History}
      (hperform : c.perform = (do Call.onManager act; return said)) :
      (r.step c).work.table = r.work.table := by
    cases hrun : act r.work.manager with
    | error e =>
      rw [step_of_error (hperform ▸ Action.bind_of_error (Call.on_manager_of_error hrun))]
    | ok m => rw [step_of_ok (hperform ▸ Action.bind_of_ok (Call.on_manager_of_ok hrun))]
  cases c with
  | begin => rfl
  | commit txn | abort txn => exact hmanager rfl
  | _ => cases hc

theorem table_after {later : List Call} (hlater : ∀ c ∈ later, c.manages = true) :
    (r.after later).work.table = r.work.table := by
  induction later generalizing r with
  | nil => rfl
  | cons c later ih =>
    rw [List.forall_mem_cons] at hlater
    exact (ih hlater.2).trans (table_of_manages hlater.1)

structure Sheds (lost : Version → Prop) (count : Nat) (t t' : Tree) : Prop where
  sublist : t'.versions.Sublist t.versions
  mem_iff : ∀ v, v ∈ t'.versions ↔ v ∈ t.versions ∧ ¬lost v
  count : count + t'.versions.length = t.versions.length

/-- A run after a vacuum that has removed as many versions. The trees have lost those that were dead.
None of these would be read by a transaction that runs now or later, and what is read of the others
is what would be read of them without the vacuum: if the same happens, and so whatever transactions
begin and end. No version mentions a transaction that has been forgotten, and another vacuum finds
nothing. -/
structure Vacuumed (r r' : Run) (count : Nat) : Prop where
  definitions : r'.work.table.definitions = r.work.table.definitions
  history : r'.history = r.history
  trees : List.Forall₂ (Sheds r.history.Dead count) r.work.table.store.trees
    r'.work.table.store.trees
  unread : ∀ {calls : List Call}, r.AllowsAll calls →
    (r.after calls).history.begun.length < 2 ^ 32 - 2 → ∀ {v : Version}, r.history.Dead v →
    (r.after calls).work.table.Stores v → ∀ {txn : Transaction},
    .began txn ∈ (r.after calls).history → (r.after calls).work.manager.isActive txn.xid = true →
    txn.canRead (r.after calls).work.manager (r.after calls).work.headers v .read = false
  reads : ∀ {calls calls' : List Call}, r.AllowsAll calls → r'.AllowsAll calls' →
    (r'.after calls').history = (r.after calls).history →
    (r.after calls).history.begun.length < 2 ^ 32 - 2 → ∀ {v : Version},
    (r.after calls).work.table.Stores v → (r'.after calls').work.table.Stores v →
    ∀ {txn : Transaction}, .began txn ∈ (r.after calls).history →
    (r.after calls).work.manager.isActive txn.xid = true →
    txn.canRead (r'.after calls').work.manager (r'.after calls').work.headers v .read =
      txn.canRead (r.after calls).work.manager (r.after calls).work.headers v .read
  reads_later : ∀ {later : List Call}, (∀ c ∈ later, c.manages = true) → r.AllowsAll later →
    (r.after later).history.begun.length < 2 ^ 32 - 2 → ∀ {v : Version},
    r'.work.table.Stores v → ∀ {txn : Transaction}, .began txn ∈ (r.after later).history →
    (r.after later).work.manager.isActive txn.xid = true →
    txn.canRead (r'.after later).work.manager (r'.after later).work.headers v .read =
      txn.canRead (r.after later).work.manager (r.after later).work.headers v .read
  forgotten : ∀ {v : Version}, r'.work.table.Stores v → ∀ {x : Xid},
    r.work.manager.isAborted x = true → r'.work.manager.isAborted x = false →
    v.creator ≠ x ∧ r'.work.headers.deleter? v ≠ some x
  again : (TableAction.vacuum.outcome r'.work).1 = .ok 0

theorem Sheds.of_filter {lost : Version → Prop} {dead : Version → Bool} {t t' : Tree}
    (hfilter : t'.versions = t.versions.filter fun v => dead v = false)
    (hdead : ∀ v ∈ t.versions, dead v = true ↔ lost v) :
    Sheds lost (t.versions.filter dead).length t t' := by
  have halive : t'.versions = t.versions.filter fun v => !dead v := by
    rw [hfilter]
    apply List.filter_congr
    intro v _
    cases dead v <;> rfl
  refine ⟨hfilter ▸ List.filter_sublist, fun v => ?_, ?_⟩
  · rw [hfilter, List.mem_filter, decide_eq_true_eq]
    apply and_congr_right
    intro hv
    rw [← hdead v hv, Bool.not_eq_true]
  · rw [halive]
    exact (List.length_eq_length_filter_add dead).symm

open TableAction in
/-- The trees lose what is dead. -/
theorem sheds_of_vacuums {stored : Multiset Version} {w : Table.Workspace}
    (h : r.work.table.Holds stored) (hsound : (r.ledger stored).Sound)
    (hvacuums : Vacuums r.work w stored) :
    List.Forall₂ (Sheds r.history.Dead
        (stored.filter fun v => isDead r.work.manager r.work.headers v = true).card)
      r.work.table.store.trees w.table.store.trees := by
  have hlength : r.work.table.store.trees.length = w.table.store.trees.length := by
    rw [h.in_step.length_eq, hvacuums.holds.in_step.length_eq]
    exact (Table.length_of_definitions hvacuums.definitions).symm
  apply List.forall₂_iff_get.mpr
  refine ⟨hlength, fun i hi hi' => ?_⟩
  obtain ⟨ix, hix⟩ : ∃ ix, r.work.table.indexes[i]? = some ix := by
    rw [h.in_step.length_eq] at hi
    exact ⟨_, List.getElem?_eq_getElem hi⟩
  have hprefix : r.work.table.definitions <+: w.table.definitions :=
    hvacuums.definitions ▸ List.prefix_rfl
  obtain ⟨ix', hix', horder⟩ := Table.index_of_prefix hprefix hix
  obtain ⟨t, ht, -, hcontains⟩ := h.in_step.get hix
  obtain ⟨t', ht', -, hcontains'⟩ := hvacuums.holds.in_step.get hix'
  obtain rfl : t = r.work.table.store.trees[i] := (List.getElem_eq_iff hi).mpr ht |>.symm
  obtain rfl : t' = w.table.store.trees[i] := (List.getElem_eq_iff hi').mpr ht' |>.symm
  have hcount : (stored.filter fun v => isDead r.work.manager r.work.headers v = true).card =
      (r.work.table.store.trees[i].versions.filter
        (isDead r.work.manager r.work.headers)).length := by
    rw [← hcontains.coe_versions, Multiset.filter_coe, Multiset.coe_card]
    simp only [Bool.decide_eq_true]
  rw [hcount]
  refine Sheds.of_filter (hcontains.versions_filter hcontains' horder) fun v hv => ?_
  exact hsound.is_dead_iff (hcontains.mem_versions.mp hv)

/-- A vacuum has no part in what transactions begin and end. -/
theorem abreast_of_vacuums {stored : Multiset Version} {w : Table.Workspace}
    (hvacuums : TableAction.Vacuums r.work w stored) : Abreast r ⟨w, r.history⟩ := by
  refine ⟨rfl, ?_, ?_⟩
  · rw [hvacuums.manager]
    split <;> rfl
  · rw [hvacuums.manager]
    split <;> rfl

/-- Where nothing is dead a vacuum finds nothing. -/
theorem vacuum_finds_nothing {stored : Multiset Version} (h : r.work.table.Holds stored)
    (hsound : (r.ledger stored).Sound) (halive : ∀ v ∈ stored, ¬r.history.Dead v) :
    (TableAction.vacuum.outcome r.work).1 = .ok 0 := by
  obtain ⟨w, hok, -⟩ := TableAction.vacuum_outcome h
  have hnone : stored.filter (fun v =>
      TableAction.isDead r.work.manager r.work.headers v = true) = 0 := by
    apply Multiset.filter_eq_nil.mpr
    intro v hv hdead
    exact halive v hv ((hsound.is_dead_iff hv).mp hdead)
  rw [Action.outcome, hok, hnone]
  rfl

/-- While the ids of transactions last, a vacuum succeeds and returns how many versions were dead. -/
theorem Reaches.vacuum_removes_dead (h : Reaches r)
    (hfew : r.history.begun.length < 2 ^ 32 - 2) :
    ∃ count, (TableAction.vacuum.outcome r.work).1 = .ok count ∧
      Vacuumed r (r.step .vacuum) count := by
  obtain ⟨stored, hholds, -, hsound⟩ := h.sound (Nat.lt_of_lt_pred hfew)
  obtain ⟨w, hok, hvacuums⟩ := TableAction.vacuum_outcome hholds
  let count := (stored.filter fun v =>
    TableAction.isDead r.work.manager r.work.headers v = true).card
  have houtcome : (TableAction.vacuum.outcome r.work).1 = .ok count := by
    rw [Action.outcome, hok]
  have hperform : Call.vacuum.perform r.work = .ok [] w :=
    Action.bind_of_ok (Action.discard_of_ok hok)
  let r' : Run := ⟨w, r.history⟩
  have hstep : r.step .vacuum = r' := step_of_ok hperform
  have hreaches : Reaches r' := hstep ▸ h.step .vacuum trivial
  obtain ⟨stored', hholds', -, hsound'⟩ := hreaches.sound (Nat.lt_of_lt_pred hfew)
  obtain rfl : stored' = stored.filter fun v =>
      TableAction.isDead r.work.manager r.work.headers v = false :=
    hholds'.coe_versions.symm.trans hvacuums.holds.coe_versions
  have hkept {v : Version} (hv : w.table.Stores v) : v ∈ stored ∧ ¬r.history.Dead v := by
    obtain ⟨hstored, halive⟩ := Multiset.mem_filter.mp (hholds'.stores_iff.mp hv)
    refine ⟨hstored, fun hdead => ?_⟩
    have hmarked := (hsound.is_dead_iff hstored).mpr hdead
    exact Bool.false_ne_true (halive.symm.trans hmarked)
  refine ⟨count, houtcome, ?_⟩
  rw [hstep]
  constructor
  case definitions => exact hvacuums.definitions
  case history => rfl
  case trees => exact sheds_of_vacuums hholds hsound hvacuums
  case unread =>
    intro calls hallows hfew' v hdead hv txn ht hactive
    exact not_read_of_dead (h.after hallows) hfew' (r.history_suffix_after calls) hdead hv ht hactive
  case reads =>
    intro calls calls' hallows hallows' hsame hfew' v hv hv' txn ht hactive
    exact can_read_of_history_eq (h.after hallows) (hreaches.after hallows') hsame hfew' hv hv' ht
      hactive
  case reads_later =>
    intro later hlater hallows hfew' v hv txn ht hactive
    obtain ⟨hallows', hafter⟩ := (abreast_of_vacuums hvacuums).after hlater hallows
    refine can_read_of_history_eq (h.after hallows) (hreaches.after hallows') hafter.history hfew'
      ?_ ?_ ht hactive
    · rw [table_after hlater, hholds.stores_iff]
      exact (hkept hv).1
    · rw [table_after hlater]
      exact hv
  case forgotten =>
    intro v hv x hknown hforgotten
    have haborted : .aborted x ∈ r.history := hsound.manager.aborted x hknown
    have hnone := hsound'.not_mentions_of_forgotten (hholds'.stores_iff.mp hv) haborted hforgotten
    exact ⟨fun hcreator => hnone (Or.inl hcreator), fun hstamp => hnone (Or.inr hstamp)⟩
  case again =>
    exact vacuum_finds_nothing hholds' hsound' fun v hv => (hkept (hholds'.stores_iff.mpr hv)).2

/-- A transaction has inserted three rows and committed. The next one has deleted the first row, inserted
another one and aborted, and a third one has deleted the second row and committed. -/
def littered : Run := sampleStart.after [
  .addIndex (IndexDefinition.plain "up" 1 [0] [.bigint]) {},
  .addIndex { IndexDefinition.plain "keys" 2 [0] [.bigint] with unique := true } {},
  .begin,
  .insert ⟨1, []⟩ [.bigint 5],
  .insert ⟨1, []⟩ [.bigint 6],
  .insert ⟨1, []⟩ [.bigint 7],
  .commit ⟨1, []⟩,
  .begin,
  .delete ⟨2, []⟩ ⟨0, 1, [.bigint 5], 1⟩,
  .insert ⟨2, []⟩ [.bigint 8],
  .abort ⟨2, []⟩,
  .begin,
  .delete ⟨3, []⟩ ⟨1, 2, [.bigint 6], 1⟩,
  .commit ⟨3, []⟩]

/-- The vacuum removes the second row and the one of the aborted transaction, which it has the manager
forget, and who begins then reads the other two rows. -/
theorem littered_vacuum_removes_dead :
    (TableAction.vacuum.outcome littered.work).1 = .ok 2 ∧
    Vacuumed littered (littered.step .vacuum) 2 ∧
    littered.work.manager.aborted = [2] ∧ (littered.step .vacuum).work.manager.aborted = [] ∧
    ((TableAction.scan ⟨4, []⟩ 1).outcome ((littered.step .vacuum).step .begin).work).1 =
      .ok [⟨0, 1, [.bigint 5], 1⟩, ⟨2, 3, [.bigint 7], 1⟩] := by
  have hreaches : Reaches littered := sample_start_reaches.after (by decide +kernel)
  obtain ⟨count, hcount, hvacuumed⟩ := hreaches.vacuum_removes_dead (by decide +kernel)
  have htwo : (TableAction.vacuum.outcome littered.work).1 = .ok 2 := by decide +kernel
  obtain rfl : count = 2 := Except.ok.inj (hcount.symm.trans htwo)
  exact ⟨htwo, hvacuumed, by decide +kernel, by decide +kernel, by decide +kernel⟩

end Run

end VersionedIndex
