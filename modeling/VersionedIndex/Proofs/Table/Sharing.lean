import VersionedIndex.Proofs.Table.Snapshot

/-! Tables with one manager. A vacuum of one table has the manager forget aborted transactions that
other tables may still mention; who begins then takes them to have committed. -/

namespace VersionedIndex

namespace Ledger

variable {s s' : Ledger} {author : Option Xid} {purges : Bool}

def bare (s : Ledger) : Ledger := { s with definitions := [], stored := 0 }

/-- What happens to the headers and to the manager does not depend on the table. -/
theorem Change.bare (hchange : s.Change author purges s') :
    Changes author true s.bare s'.bare := by
  cases hchange with
  | began => exact .single .began
  | committed hauthor hfinish => exact .single (.committed hauthor hfinish)
  | aborted hauthor hfinish => exact .single (.aborted hauthor hfinish)
  | created hauthor hactive hcreate _ =>
    refine .tail (.single (.created hauthor hactive hcreate fun _ => nofun)) ?_
    exact .dropped (Multiset.zero_le _) fun _ _ => Or.inr (Or.inl rfl)
  | deleted hauthor hactive hv hmark => exact .single (.deleted hauthor hactive hv hmark)
  | loosened hloose hsize => exact .single (.loosened hloose hsize)
  | forgot hquiet _ =>
    exact .single (.forgot hquiet fun v hv => absurd hv (Multiset.notMem_zero v))
  | dropped _ _ => exact .refl
  | indexed _ => exact .refl

theorem Changes.bare (hchanges : Changes author purges s s') :
    Changes author true s.bare s'.bare := by
  induction hchanges with
  | refl => exact .refl
  | tail _ hchange ih => exact ih.trans hchange.bare

structure Extends (s s' : Ledger) : Prop where
  history : ∀ e ∈ s.history, e ∈ s'.history
  size_le : s.headers.deleters.size ≤ s'.headers.deleters.size
  stored : ∀ v ∈ s'.stored, v ∈ s.stored ∨
    s.headers.deleters.size ≤ v.header ∧ .created v ∈ s'.history

theorem Extends.refl (s : Ledger) : s.Extends s := ⟨fun _ => id, Nat.le_refl _, fun _ => Or.inl⟩

theorem Extends.trans {a b c : Ledger} (hab : a.Extends b) (hbc : b.Extends c) : a.Extends c := by
  refine ⟨fun e he => hbc.history e (hab.history e he), hab.size_le.trans hbc.size_le,
    fun v hv => ?_⟩
  rcases hbc.stored v hv with hold | ⟨hnew, hcreated⟩
  · exact (hab.stored v hold).imp_right fun hnew => ⟨hnew.1, hbc.history _ hnew.2⟩
  · exact Or.inr ⟨hab.size_le.trans hnew, hcreated⟩

theorem Change.extends (hchange : s.Change author purges s') : s.Extends s' := by
  have hmore (e : Event) : ∀ e' ∈ s.history, e' ∈ e :: s.history := fun _ => List.mem_cons_of_mem e
  cases hchange with
  | began => exact ⟨hmore _, Nat.le_refl _, fun _ => Or.inl⟩
  | committed _ _ => exact ⟨hmore _, Nat.le_refl _, fun _ => Or.inl⟩
  | aborted _ _ => exact ⟨hmore _, Nat.le_refl _, fun _ => Or.inl⟩
  | @created txn id row v headers _ _ hcreate _ =>
    obtain rfl : v = (s.headers.create id row txn.xid).1 := congrArg Prod.fst hcreate
    obtain rfl : headers = (s.headers.create id row txn.xid).2 := congrArg Prod.snd hcreate
    refine ⟨hmore _, ?_, fun u hu => ?_⟩
    · rw [Headers.size_create]
      exact Nat.le_succ _
    · rcases Multiset.mem_cons.mp hu with rfl | hold
      · exact Or.inr ⟨Nat.le_refl _, List.mem_cons_self⟩
      · exact Or.inl hold
  | deleted _ _ _ hmark =>
    refine ⟨hmore _, ?_, fun _ => Or.inl⟩
    rw [(Headers.mark_deleted_cases hmark).1, Headers.size_stamp]
  | loosened _ hsize => exact ⟨fun _ => id, hsize, fun _ => Or.inl⟩
  | dropped hle _ =>
    exact ⟨fun _ => id, Nat.le_refl _, fun _ hv => Or.inl (Multiset.mem_of_le hle hv)⟩
  | forgot _ _ => exact ⟨fun _ => id, Nat.le_refl _, fun _ => Or.inl⟩
  | indexed _ => exact ⟨fun _ => id, Nat.le_refl _, fun _ => Or.inl⟩

theorem Changes.extends (hchanges : Changes author purges s s') : s.Extends s' := by
  induction hchanges with
  | refl => exact .refl s
  | tail _ hchange ih => exact ih.trans hchange.extends

end Ledger

structure Database where
  tables : List Table
  headers : Headers
  manager : Manager
  history : History

namespace Database

def run (db : Database) (tb : Table) : Run := ⟨⟨tb, db.headers, db.manager⟩, db.history⟩

def step (db : Database) (i : Nat) (c : Call) : Database :=
  match db.tables[i]? with
  | none => db
  | some tb =>
    let r := (db.run tb).step c
    ⟨db.tables.set i r.work.table, r.work.headers, r.work.manager, r.history⟩

def scan (db : Database) (j : Nat) (txn : Transaction) (position : Nat) :
    Option (Except Error (List Version)) :=
  db.tables[j]?.map fun tb => ((TableAction.scan txn position).outcome (db.run tb).work).1

def scanNext (db : Database) (j position : Nat) : Option (Except Error (List Version)) :=
  (db.step j .begin).scan j db.manager.begin.1 position

inductive Reaches : Database → Prop
  | start {tables : List Table} :
    (∀ tb ∈ tables, ∃ name columns config, Table.create name columns config = .ok tb) →
    Reaches ⟨tables, {}, {}, []⟩
  | step {db : Database} {i : Nat} {tb : Table} (c : Call) :
    Reaches db → db.tables[i]? = some tb → (db.run tb).Allows c → Reaches (db.step i c)

variable {db : Database} {i j position : Nat} {tb : Table} {c : Call} {v : Version}

theorem step_eq (hi : db.tables[i]? = some tb) (c : Call) :
    db.step i c = ⟨db.tables.set i ((db.run tb).step c).work.table,
      ((db.run tb).step c).work.headers, ((db.run tb).step c).work.manager,
      ((db.run tb).step c).history⟩ := by
  simp only [step, hi]

theorem tables_step_of_ne (hij : i ≠ j) : (db.step i c).tables[j]? = db.tables[j]? := by
  simp only [step]
  split
  · rfl
  · exact List.getElem?_set_ne hij

theorem tables_step_self (hi : db.tables[i]? = some tb) :
    (db.step i c).tables[i]? = some ((db.run tb).step c).work.table := by
  rw [step_eq hi]
  exact List.getElem?_set_self (List.getElem?_eq_some_iff.mp hi).1

theorem history_suffix_step (db : Database) (i : Nat) (c : Call) :
    db.history <:+ (db.step i c).history := by
  simp only [step]
  split
  · exact List.suffix_rfl
  · exact (db.run _).history_suffix_step c

theorem scan_eq (hj : db.tables[j]? = some tb) (txn : Transaction) (position : Nat) :
    db.scan j txn position = some ((TableAction.scan txn position).outcome (db.run tb).work).1 := by
  rw [scan, hj]
  rfl

theorem scan_next_eq (hj : db.tables[j]? = some tb) (position : Nat) :
    db.scanNext j position = some ((TableAction.scan db.manager.begin.1 position).outcome
      ⟨tb, db.headers, db.manager.begin.2⟩).1 := by
  have hj' : (db.step j .begin).tables[j]? = some tb := tables_step_self hj
  rw [scanNext, scan_eq hj', step_eq hj]
  rfl

def ledger (db : Database) : Ledger := ⟨[], 0, db.headers, db.manager, db.history⟩

structure Sound (db : Database) : Prop where
  shared : db.ledger.Sound
  marks : db.headers.Unmarked
  holds : ∀ {i : Nat} {tb : Table}, db.tables[i]? = some tb → ∃ stored, tb.Holds stored
  created : ∀ {i : Nat} {tb : Table} {v : Version}, db.tables[i]? = some tb → tb.Stores v →
    .created v ∈ db.history
  apart : ∀ {i j : Nat} {tb tb' : Table} {v : Version}, db.tables[i]? = some tb →
    db.tables[j]? = some tb' → tb.Stores v → tb'.Stores v → i = j

namespace Sound

theorem stores_step (h : db.Sound) (hi : db.tables[i]? = some tb) (hallows : (db.run tb).Allows c)
    {k : Nat} {tb' : Table} (hk : (db.step i c).tables[k]? = some tb') (hv : tb'.Stores v) :
    (∃ old, db.tables[k]? = some old ∧ old.Stores v) ∨
    k = i ∧ db.headers.deleters.size ≤ v.header ∧ .created v ∈ (db.step i c).history := by
  by_cases hik : i = k
  · subst hik
    obtain ⟨stored, hholds⟩ := h.holds hi
    obtain ⟨stored', hholds', hchanges⟩ :=
      Run.step_comes (r := db.run tb) hholds h.marks hallows
    rw [tables_step_self hi] at hk
    rw [← Option.some.inj hk, hholds'.stores_iff] at hv
    rcases hchanges.extends.stored v hv with hold | hnew
    · exact Or.inl ⟨tb, hi, hholds.stores_iff.mpr hold⟩
    · rw [step_eq hi]
      exact Or.inr ⟨rfl, hnew⟩
  · rw [tables_step_of_ne hik] at hk
    exact Or.inl ⟨tb', hk, hv⟩

theorem step (h : db.Sound) (hi : db.tables[i]? = some tb) (hallows : (db.run tb).Allows c)
    (hfew : (db.step i c).history.begun.length < 2 ^ 32 - 1) : (db.step i c).Sound := by
  obtain ⟨stored, hholds⟩ := h.holds hi
  obtain ⟨stored', hholds', hchanges⟩ := Run.step_comes (r := db.run tb) hholds h.marks hallows
  have hknown {k : Nat} {old : Table} {u : Version} (hk : db.tables[k]? = some old)
      (hu : old.Stores u) : u.header < db.headers.deleters.size :=
    h.shared.headers.known u (h.created hk hu)
  refine ⟨?_, ?_, fun {k tb'} hk => ?_, fun {k tb' v} hk hv => ?_,
    fun {k l tb' tb'' v} hk hl hv hv' => ?_⟩
  · rw [step_eq hi] at hfew ⊢
    exact (hchanges.bare.preserve (P := fun _ => True) (fun _ _ _ _ => trivial) h.shared hfew
      trivial).1
  · rw [step_eq hi]
    exact hchanges.unmarked h.marks
  · by_cases hik : i = k
    · subst hik
      rw [tables_step_self hi] at hk
      exact ⟨stored', Option.some.inj hk ▸ hholds'⟩
    · rw [tables_step_of_ne hik] at hk
      exact h.holds hk
  · rcases h.stores_step hi hallows hk hv with ⟨old, hold, hv⟩ | ⟨-, -, hcreated⟩
    · exact (db.history_suffix_step i c).subset (h.created hold hv)
    · exact hcreated
  · rcases h.stores_step hi hallows hk hv with ⟨old, hold, hv⟩ | ⟨rfl, hnew, -⟩ <;>
      rcases h.stores_step hi hallows hl hv' with ⟨old', hold', hv'⟩ | ⟨rfl, hnew', -⟩
    · exact h.apart hold hold' hv hv'
    · exact absurd (hknown hold hv) (Nat.not_lt.mpr hnew')
    · exact absurd (hknown hold' hv') (Nat.not_lt.mpr hnew)
    · rfl

end Sound

theorem Reaches.sound (h : Reaches db) (hfew : db.history.begun.length < 2 ^ 32 - 1) :
    db.Sound := by
  induction h with
  | @start tables hcreate =>
    have hholds {i : Nat} {tb : Table} (hi : tables[i]? = some tb) : tb.Holds 0 := by
      obtain ⟨name, columns, config, hok⟩ := hcreate tb (List.mem_of_getElem? hi)
      exact (Run.start_holds hok).1
    have hnone {i : Nat} {tb : Table} {v : Version} (hi : tables[i]? = some tb) : ¬tb.Stores v := by
      rw [(hholds hi).stores_iff]
      exact Multiset.notMem_zero v
    exact ⟨Ledger.sound_empty, nofun, fun hi => ⟨0, hholds hi⟩, fun hi hv => absurd hv (hnone hi),
      fun hi _ hv => absurd hv (hnone hi)⟩
  | @step db i tb c _ hi hallows ih =>
    have hle := History.begun_le_of_suffix (db.history_suffix_step i c)
    exact (ih (Nat.lt_of_le_of_lt hle hfew)).step hi hallows hfew

def after (db : Database) (calls : List (Nat × Call)) : Database :=
  calls.foldl (fun db call => db.step call.1 call.2) db

def AllowsAll : Database → List (Nat × Call) → Prop
  | _, [] => True
  | db, (i, c) :: calls =>
    (∃ tb ∈ db.tables[i]?, (db.run tb).Allows c) ∧ (db.step i c).AllowsAll calls

theorem Reaches.after (h : Reaches db) {calls : List (Nat × Call)} (hallows : db.AllowsAll calls) :
    Reaches (db.after calls) := by
  induction calls generalizing db with
  | nil => exact h
  | cons call calls ih =>
    obtain ⟨⟨tb, hi, hcall⟩, hrest⟩ := hallows
    exact ih (h.step call.2 hi hcall) hrest

instance decidableAllowsAll : (db : Database) → DecidablePred db.AllowsAll
  | _, [] => inferInstanceAs (Decidable True)
  | db, (i, c) :: calls =>
    have := decidableAllowsAll (db.step i c) calls
    inferInstanceAs (Decidable
      ((∃ tb ∈ db.tables[i]?, (db.run tb).Allows c) ∧ (db.step i c).AllowsAll calls))

/-- What is read of a version depends on a transaction that aborted and is remembered: on its creator, or
on the one whose stamp it has. -/
def Depends (db : Database) (v : Version) : Prop :=
  match db.headers.deleter? v with
  | none => db.manager.isAborted v.creator = true
  | some x => db.manager.isAborted v.creator = false ∧ db.manager.isAborted x = true

theorem is_aborted_forget (m : Manager) (x : Xid) :
    (m.forgetAborted m.aborted).isAborted x = false := by
  rw [Bool.eq_false_iff, ne_eq, Manager.is_aborted_iff, Manager.forgetAborted, List.mem_filter]
  rintro ⟨hx, hnot⟩
  rw [List.contains_eq_mem, decide_eq_true hx] at hnot
  cases hnot

/-- When nothing runs, who begins next sees the transactions that are not known to have aborted. -/
theorem sees_committed_next (h : db.ledger.Sound)
    (hfew : db.history.begun.length < 2 ^ 32 - 2) (hquiet : db.manager.hasActive = false)
    {txn : Transaction} (ht : .began txn ∈ db.history) :
    db.manager.begin.1.seesCommitted db.manager.begin.2 txn.xid = !db.manager.isAborted txn.xid := by
  obtain ⟨hfrozen, hinvalid, hissued⟩ := h.ordinary ht
  have hnone : db.manager.active = [] := by
    rwa [Manager.hasActive, Bool.not_eq_false', List.isEmpty_iff] at hquiet
  have hlt : txn.xid < db.manager.begin.1.xid := hissued
  have hnext : txn.xid < db.manager.begin.2.nextXid := by
    have hnumber : db.manager.nextXid.toNat = db.history.begun.length + 1 := h.manager.next
    change txn.xid < db.manager.nextXid + 1
    rw [UInt32.lt_iff_toNat_lt, UInt32.toNat_add, UInt32.toNat_one, Nat.mod_eq_of_lt (by omega)]
    exact Nat.lt_succ_of_lt (UInt32.lt_iff_toNat_lt.mp hlt)
  have hprogress : db.manager.begin.1.inProgress.contains txn.xid = false := by
    change db.manager.active.contains txn.xid = false
    rw [hnone]
    rfl
  have hended : db.manager.begin.2.isActive txn.xid = false := by
    rw [Bool.eq_false_iff, ne_eq, Manager.is_active_iff]
    change txn.xid ∉ db.manager.active.insert db.manager.nextXid
    rw [hnone, List.insert_nil, List.mem_singleton]
    exact UInt32.ne_of_lt hlt
  simp only [Transaction.seesCommitted, Manager.isCommitted, beq_false_of_ne hfrozen, bne,
    beq_false_of_ne hinvalid, decide_eq_true hlt, decide_eq_true hnext, hprogress, hended,
    Bool.false_or, Bool.not_false, Bool.true_and]
  rfl

/-- When nothing runs, who begins next reads a stored version by what is known to have aborted. -/
theorem Sound.can_read_next (h : db.Sound) (hfew : db.history.begun.length < 2 ^ 32 - 2)
    (hquiet : db.manager.hasActive = false) (hj : db.tables[j]? = some tb) (hv : tb.Stores v) :
    db.manager.begin.1.canRead db.manager.begin.2 db.headers v .read =
      (!db.manager.isAborted v.creator && match db.headers.deleter? v with
        | none => true
        | some x => db.manager.isAborted x) := by
  have hcreated : .created v ∈ db.history := h.created hj hv
  have hsees {x : Xid} (hx : ∃ txn, .began txn ∈ db.history ∧ txn.xid = x) :
      x ≠ db.manager.begin.1.xid ∧
      db.manager.begin.1.seesCommitted db.manager.begin.2 x = !db.manager.isAborted x := by
    obtain ⟨txn, ht, rfl⟩ := hx
    exact ⟨UInt32.ne_of_lt (h.shared.ordinary ht).2.2, sees_committed_next h.shared hfew hquiet ht⟩
  obtain ⟨hcreator, hcreation⟩ := hsees (h.shared.legal.began_of_created hcreated)
  simp only [Transaction.canRead, beq_false_of_ne hcreator, hcreation, Bool.false_or]
  cases hdeleter : db.headers.deleter? v with
  | none => rfl
  | some x =>
    have hdeleted := h.shared.headers.stamped v x hcreated hdeleter
    obtain ⟨hother, hdeletion⟩ := hsees (h.shared.legal.began_of_deleted hdeleted)
    simp only [bne, beq_false_of_ne hother, hdeletion, Bool.not_false, Bool.true_and, Bool.not_not]

/-- Two scans of one table yield the same when they can read the same of it. -/
theorem scan_eq_scan_iff {stored : Multiset Version} (h : tb.Holds stored) {ix : Index}
    (hix : tb.indexes[position]? = some ix) (txn : Transaction) (headers headers' : Headers)
    (manager manager' : Manager) :
    ((TableAction.scan txn position).outcome ⟨tb, headers', manager'⟩).1 =
        ((TableAction.scan txn position).outcome ⟨tb, headers, manager⟩).1 ↔
      ∀ v, tb.Stores v →
        txn.canRead manager' headers' v .read = txn.canRead manager headers v .read := by
  obtain ⟨t, ht, hcontains, hscan⟩ :=
    TableAction.scan_of_holds (w := ⟨tb, headers, manager⟩) h txn hix
  obtain ⟨t', ht', -, hscan'⟩ :=
    TableAction.scan_of_holds (w := ⟨tb, headers', manager'⟩) h txn hix
  obtain rfl := Option.some.inj (ht.symm.trans ht')
  have hmem (v : Version) : tb.Stores v ↔ v ∈ t.versions := by
    rw [h.stores_iff, hcontains.mem_versions]
  simp only [hscan, hscan', hmem, Except.ok.injEq]
  refine ⟨fun hsame v hv => ?_, List.filter_congr⟩
  have hfiltered := congrArg (v ∈ ·) hsame
  simpa only [List.mem_filter, hv, true_and, eq_iff_iff, Bool.coe_iff_coe] using hfiltered

/-- A vacuum of one table leaves the stamps on what the others store. -/
theorem Sound.vacuum_outcome (h : db.Sound) (hi : db.tables[i]? = some tb) :
    (db.step i .vacuum).history = db.history ∧
    ((db.step i .vacuum).manager =
      if tb.indexes.isEmpty || db.manager.hasActive then db.manager
      else db.manager.forgetAborted db.manager.aborted) ∧
    ∀ {j : Nat} {other : Table} {v : Version}, i ≠ j → db.tables[j]? = some other →
      other.Stores v → (db.step i .vacuum).headers.deleter? v = db.headers.deleter? v := by
  obtain ⟨stored, hholds⟩ := h.holds hi
  obtain ⟨w, hok, hvacuums⟩ := TableAction.vacuum_outcome (w := (db.run tb).work) hholds
  have hperform : Call.vacuum.perform (db.run tb).work = .ok [] w :=
    Action.bind_of_ok (Action.discard_of_ok hok)
  rw [step_eq hi, Run.step_of_ok hperform]
  refine ⟨rfl, hvacuums.manager, fun {j other v} hij hj hv => ?_⟩
  refine hvacuums.untouched v fun u hu hheader => ?_
  -- With the same header it would be the same version, and in two tables.
  rw [← hholds.stores_iff] at hu
  obtain rfl := h.shared.legal.created_unique (h.created hj hv) (h.created hi hu) hheader
  exact hij (h.apart hi hj hu hv)

/-- When a vacuum has the manager forget, who begins next reads a version of another table as before if
that did not depend on what is forgotten. -/
theorem Sound.can_read_forgotten_iff (h : db.Sound) (hfew : db.history.begun.length < 2 ^ 32 - 2)
    (hij : i ≠ j) (hi : db.tables[i]? = some tb) (hindexed : tb.indexes.isEmpty = false)
    (hquiet : db.manager.hasActive = false) {other : Table} (hj : db.tables[j]? = some other)
    (hv : other.Stores v) :
    db.manager.begin.1.canRead (db.step i .vacuum).manager.begin.2 (db.step i .vacuum).headers v
        .read = db.manager.begin.1.canRead db.manager.begin.2 db.headers v .read ↔
      ¬db.Depends v := by
  obtain ⟨hhistory, hmanager, hstamps⟩ := h.vacuum_outcome hi
  rw [hindexed, hquiet, Bool.or_false, if_neg Bool.false_ne_true] at hmanager
  have hsound' : (db.step i .vacuum).Sound :=
    h.step hi trivial (hhistory ▸ Nat.lt_of_lt_pred hfew)
  have hj' : (db.step i .vacuum).tables[j]? = some other := (tables_step_of_ne hij).trans hj
  have hquiet' : (db.step i .vacuum).manager.hasActive = false := hmanager ▸ hquiet
  have hread := hsound'.can_read_next (hhistory ▸ hfew) hquiet' hj' hv
  rw [hstamps hij hj hv, hmanager] at hread
  rw [hmanager, h.can_read_next hfew hquiet hj hv]
  refine (Eq.congr_left hread).trans ?_
  simp only [is_aborted_forget, Depends]
  cases db.headers.deleter? v with
  | none => simp
  | some x => simp

/-- While the ids of transactions last, a vacuum of one table does not change what running transactions
read from another one. For a transaction that begins after it the vacuum changes nothing either if
its table has no index, if something runs, or if what is read of the other table depends on no
transaction that aborted; and otherwise it does. -/
theorem Reaches.vacuum_elsewhere_iff (h : Reaches db)
    (hfew : db.history.begun.length < 2 ^ 32 - 2) {vacuumed other : Table} (hij : i ≠ j)
    (hi : db.tables[i]? = some vacuumed) (hj : db.tables[j]? = some other)
    (hposition : position < other.indexes.length) :
    (∀ txn : Transaction, db.manager.isActive txn.xid = true →
      (db.step i .vacuum).scan j txn position = db.scan j txn position) ∧
    ((db.step i .vacuum).scanNext j position = db.scanNext j position ↔
      vacuumed.indexes = [] ∨ db.manager.hasActive = true ∨
        ∀ v, other.Stores v → ¬db.Depends v) := by
  have hsound := h.sound (Nat.lt_of_lt_pred hfew)
  obtain ⟨stored, hholds⟩ := hsound.holds hj
  have hix := List.getElem?_eq_getElem hposition
  have hj' : (db.step i .vacuum).tables[j]? = some other := (tables_step_of_ne hij).trans hj
  obtain ⟨-, hmanager, hstamps⟩ := hsound.vacuum_outcome hi
  have hsame {txn : Transaction} {manager : Manager} (v : Version) (hv : other.Stores v) :
      txn.canRead manager (db.step i .vacuum).headers v .read =
        txn.canRead manager db.headers v .read := by
    simp only [Transaction.canRead, hstamps hij hj hv]
  constructor
  · intro txn hactive
    have hsome : db.manager.hasActive = true := by
      rw [Manager.hasActive, Bool.not_eq_true', List.isEmpty_eq_false_iff]
      exact List.ne_nil_of_mem (Manager.is_active_iff.mp hactive)
    rw [hsome, Bool.or_true, if_pos rfl] at hmanager
    rw [scan_eq hj', scan_eq hj, run, run, hmanager]
    exact congrArg some ((scan_eq_scan_iff hholds hix txn ..).mpr hsame)
  · have hbegin : (db.step i .vacuum).manager.begin.1 = db.manager.begin.1 := by
      rw [hmanager]
      split
      · rfl
      · rfl
    rw [scan_next_eq hj', scan_next_eq hj, Option.some.injEq, hbegin,
      scan_eq_scan_iff hholds hix]
    cases hindexed : vacuumed.indexes.isEmpty with
    | true =>
      rw [hindexed, Bool.true_or, if_pos rfl] at hmanager
      rw [hmanager]
      exact iff_of_true hsame (Or.inl (List.isEmpty_iff.mp hindexed))
    | false =>
      cases hquiet : db.manager.hasActive with
      | true =>
        rw [hquiet, Bool.or_true, if_pos rfl] at hmanager
        rw [hmanager]
        exact iff_of_true hsame (Or.inr (Or.inl rfl))
      | false =>
        rw [List.isEmpty_eq_false_iff] at hindexed
        simp only [hindexed, Bool.false_eq_true, false_or]
        refine forall_congr' fun v => forall_congr' fun hv => ?_
        exact hsound.can_read_forgotten_iff hfew hij hi (List.isEmpty_eq_false_iff.mpr hindexed)
          hquiet hj hv

def sampleStart : Database where
  tables := [
    { name := "vacuumed", columns := [.bigint], indexes := [], store := ⟨[], {}⟩ },
    { name := "other", columns := [.bigint], indexes := [], store := ⟨[], {}⟩ }]
  headers := {}
  manager := {}
  history := []

def sampleCalls : List (Nat × Call) := [
  (0, .addIndex (IndexDefinition.plain "keys" 1 [0] [.bigint]) {}),
  (1, .addIndex (IndexDefinition.plain "keys" 2 [0] [.bigint]) {}),
  (1, .begin),
  (1, .insert ⟨1, []⟩ [.bigint 5]),
  (1, .commit ⟨1, []⟩),
  (1, .begin),
  (1, .insert ⟨2, []⟩ [.bigint 6]),
  (1, .delete ⟨2, []⟩ ⟨0, 1, [.bigint 5], 1⟩),
  (1, .abort ⟨2, []⟩)]

def sample : Database := sampleStart.after sampleCalls

theorem sample_reaches : Reaches sample := by
  have hcreate : ∀ tb ∈ sampleStart.tables, Table.create tb.name tb.columns {} = .ok tb := by
    decide +kernel
  have hstart : Reaches sampleStart := .start fun tb htb => ⟨tb.name, tb.columns, {}, hcreate tb htb⟩
  exact hstart.after (by decide +kernel)

/-- After a vacuum of the first table the deletion in the second one takes effect, and the version that
the aborted transaction has created can be read. -/
theorem sample_vacuum_revives :
    let u : Version := ⟨0, 1, [.bigint 5], 1⟩
    let v : Version := ⟨1, 2, [.bigint 6], 2⟩
    Reaches sample ∧ sample.history.begun.length < 2 ^ 32 - 2 ∧
    .committed u.creator ∈ sample.history ∧ .aborted v.creator ∈ sample.history ∧
    sample.scanNext 1 0 = some (.ok [u]) ∧ (sample.step 0 .vacuum).scanNext 1 0 = some (.ok [v]) :=
  ⟨sample_reaches, by decide +kernel, by decide +kernel, by decide +kernel, by decide +kernel,
    by decide +kernel⟩

/-- What is read of the sample's second table depends on the transaction that aborted. -/
theorem sample_vacuum_elsewhere :
    ¬((sample.step 0 .vacuum).scanNext 1 0 = sample.scanNext 1 0) ∧
    ∃ other, sample.tables[1]? = some other ∧ ∃ v, other.Stores v ∧ sample.Depends v := by
  obtain ⟨vacuumed, hi⟩ : ∃ tb, sample.tables[0]? = some tb :=
    Option.isSome_iff_exists.mp (by decide +kernel)
  obtain ⟨other, hj⟩ : ∃ tb, sample.tables[1]? = some tb :=
    Option.isSome_iff_exists.mp (by decide +kernel)
  have hposition : 0 < other.indexes.length := by
    have hall : ∀ tb ∈ sample.tables, 0 < tb.indexes.length := by decide +kernel
    exact hall other (List.mem_of_getElem? hj)
  have hdiffer : ¬((sample.step 0 .vacuum).scanNext 1 0 = sample.scanNext 1 0) := by
    decide +kernel
  have hiff := (sample_reaches.vacuum_elsewhere_iff (by decide +kernel) Nat.zero_ne_one hi hj
    hposition).2
  rw [hiff] at hdiffer
  refine ⟨fun hsame => hdiffer (hiff.mp hsame), other, hj, ?_⟩
  push Not at hdiffer
  exact hdiffer.2.2

end Database

end VersionedIndex
