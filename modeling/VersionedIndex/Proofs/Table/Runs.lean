import VersionedIndex.Proofs.Table.Ledger
import VersionedIndex.Proofs.Table.Upkeep

namespace VersionedIndex

inductive Call where
  | begin
  | commit (txn : Transaction)
  | abort (txn : Transaction)
  | insert (txn : Transaction) (row : Row)
  | delete (txn : Transaction) (v : Version)
  | update (txn : Transaction) (v : Version) (row : Row)
  | scan (txn : Transaction) (position : Nat)
  | purge (v : Version)
  | vacuum
  | reclaim
  | addIndex (d : IndexDefinition) (config : IndexConfig)

namespace Call

def onManager (act : Manager → Except Error Manager) : TableAction Unit := fun w =>
  match act w.manager with
  | .ok manager => .ok () { w with manager }
  | .error e => .error e w

theorem on_manager_of_ok {act : Manager → Except Error Manager} {w : Table.Workspace}
    {manager : Manager} (h : act w.manager = .ok manager) :
    onManager act w = .ok () { w with manager } := by
  simp only [onManager, h]

theorem on_manager_of_error {act : Manager → Except Error Manager} {w : Table.Workspace} {e : Error}
    (h : act w.manager = .error e) : onManager act w = .error e w := by
  simp only [onManager, h]

def perform : Call → TableAction History
  | begin => modifyGet fun w =>
    ([.began w.manager.begin.1], { w with manager := w.manager.begin.2 })
  | commit txn => do
    onManager (·.commit txn)
    return [.committed txn.xid]
  | abort txn => do
    onManager (·.abort txn)
    return [.aborted txn.xid]
  | insert txn row => do return [.created (← TableAction.insert txn row)]
  | delete txn v => do
    TableAction.delete txn v
    return [.deleted v txn.xid]
  | update txn v row => do
    let new ← TableAction.update txn v row
    return [.created new, .deleted v txn.xid]
  | scan txn position => do
    discard (TableAction.scan txn position)
    return []
  | purge v => do
    discard (TableAction.purge v)
    return []
  | vacuum => do
    discard TableAction.vacuum
    return []
  | reclaim => do
    discard TableAction.reclaim
    return []
  | addIndex d config => do
    discard (TableAction.addIndex d config)
    return []

def author : Call → Option Xid
  | commit txn | abort txn | insert txn _ | delete txn _ | update txn _ _ => some txn.xid
  | _ => none

def stores : Call → Bool
  | insert _ _ | update _ _ _ => true
  | _ => false

def purges : Call → Bool
  | purge _ => true
  | _ => false

end Call

structure Run where
  work : Table.Workspace
  history : History

namespace Run

def step (r : Run) (c : Call) : Run :=
  match c.perform r.work with
  | .ok happened work => ⟨work, happened ++ r.history⟩
  | .error _ work => ⟨work, r.history⟩

/-- The call can be made: its transaction has begun at some time, its version has been created at some
time, and what it may store finds room (`HasRoom`: slots in all trees and a next row id). -/
def Allows (r : Run) : Call → Prop
  | .commit txn | .abort txn | .scan txn _ => .began txn ∈ r.history
  | .insert txn _ => .began txn ∈ r.history ∧ r.work.table.HasRoom
  | .delete txn v => .began txn ∈ r.history ∧ .created v ∈ r.history
  | .update txn v _ =>
    .began txn ∈ r.history ∧ .created v ∈ r.history ∧ r.work.table.HasRoom
  | _ => True

inductive Reaches : Run → Prop
  | start {name : String} {columns : List ColumnType} {config : StoreConfig} {table : Table} :
    Table.create name columns config = .ok table →
    Reaches ⟨{ table, headers := {}, manager := {} }, []⟩
  | step {r : Run} (c : Call) : Reaches r → r.Allows c → Reaches (r.step c)

/-- The runs in which calls may name any transaction and any version, as long as `room` is true of the
table before each call that may store something. -/
inductive Attains (room : Table → Prop) : Run → Prop
  | start {name : String} {columns : List ColumnType} {config : StoreConfig} {table : Table} :
    Table.create name columns config = .ok table →
    Attains room ⟨{ table, headers := {}, manager := {} }, []⟩
  | step {r : Run} (c : Call) : Attains room r → (c.stores = true → room r.work.table) →
    Attains room (r.step c)

def ledger (r : Run) (stored : Multiset Version) : Ledger where
  definitions := r.work.table.definitions
  stored
  headers := r.work.headers
  manager := r.work.manager
  history := r.history

theorem step_of_ok {r : Run} {c : Call} {happened : History} {work : Table.Workspace}
    (h : c.perform r.work = .ok happened work) : r.step c = ⟨work, happened ++ r.history⟩ := by
  rw [step, h]

theorem step_of_error {r : Run} {c : Call} {e : Error} {work : Table.Workspace}
    (h : c.perform r.work = .error e work) : r.step c = ⟨work, r.history⟩ := by
  rw [step, h]

theorem history_suffix_step (r : Run) (c : Call) : r.history <:+ (r.step c).history := by
  simp only [step]
  split
  · exact List.suffix_append ..
  · exact List.suffix_rfl

/-- The table of a run holds versions, and its ledger has come about from another one by the small
changes of a call. -/
def Comes (c : Call) (s : Ledger) (r : Run) : Prop :=
  ∃ stored, r.work.table.Holds stored ∧ Ledger.Changes c.author c.purges s (r.ledger stored)

variable {r : Run} {stored : Multiset Version}

/-- A call that fails loosens stamps at most. -/
theorem comes_of_fails {c : Call} {e : Error} {work : Table.Workspace}
    (hperform : c.perform r.work = .error e work)
    (hfails : TableAction.Fails (·.Holds stored) r.work work) :
    Comes c (r.ledger stored) (r.step c) := by
  refine ⟨stored, ?_, ?_⟩
  · rw [step_of_error hperform]
    exact hfails.table
  · have hledger : (r.step c).ledger stored =
        { r.ledger stored with headers := work.headers } := by
      rw [step_of_error hperform, ledger, hfails.definitions, hfails.manager]
      rfl
    rw [hledger]
    exact .single (.loosened hfails.loosened hfails.size_le)

/-- A call that leaves everything but the trees and what indexes remember of scans. -/
theorem comes_of_same {c : Call} {work : Table.Workspace}
    (hperform : c.perform r.work = .ok [] work) (hholds : work.table.Holds stored)
    (hdefs : work.table.definitions = r.work.table.definitions)
    (hheaders : work.headers = r.work.headers) (hmanager : work.manager = r.work.manager) :
    Comes c (r.ledger stored) (r.step c) := by
  refine ⟨stored, ?_, ?_⟩
  · rw [step_of_ok hperform]
    exact hholds
  · have hledger : (r.step c).ledger stored = r.ledger stored := by
      rw [step_of_ok hperform, ledger, hdefs, hheaders, hmanager]
      rfl
    rw [hledger]

theorem begin_comes (h : r.work.table.Holds stored) :
    Comes .begin (r.ledger stored) (r.step .begin) :=
  ⟨stored, h, .single .began⟩

theorem commit_comes (h : r.work.table.Holds stored) (txn : Transaction) :
    Comes (.commit txn) (r.ledger stored) (r.step (.commit txn)) := by
  cases hfinish : r.work.manager.commit txn with
  | error err =>
    exact comes_of_fails (Action.bind_of_error (Call.on_manager_of_error hfinish)) (.refl h)
  | ok manager =>
    have hok : (Call.commit txn).perform r.work =
        .ok [.committed txn.xid] { r.work with manager } :=
      Action.bind_of_ok (Call.on_manager_of_ok hfinish)
    rw [step_of_ok hok]
    exact ⟨stored, h, .single (.committed rfl hfinish)⟩

theorem abort_comes (h : r.work.table.Holds stored) (txn : Transaction) :
    Comes (.abort txn) (r.ledger stored) (r.step (.abort txn)) := by
  cases hfinish : r.work.manager.abort txn with
  | error err =>
    exact comes_of_fails (Action.bind_of_error (Call.on_manager_of_error hfinish)) (.refl h)
  | ok manager =>
    have hok : (Call.abort txn).perform r.work =
        .ok [.aborted txn.xid] { r.work with manager } :=
      Action.bind_of_ok (Call.on_manager_of_ok hfinish)
    rw [step_of_ok hok]
    exact ⟨stored, h, .single (.aborted rfl hfinish)⟩

/-- An insert that succeeds is one small change of a ledger with the same definitions. -/
theorem changes_of_inserts {author : Option Xid} {purges : Bool} {txn : Transaction} {row : Row}
    {v : Version} {w w' : Table.Workspace} (hinserts : TableAction.Inserts txn row v w w' stored)
    (hauthor : author = some txn.xid) (history : History) :
    Ledger.Changes author purges (ledger ⟨w, history⟩ stored)
      (ledger ⟨w', .created v :: history⟩ (v ::ₘ stored)) := by
  have hdefs : w'.table.definitions = w.table.definitions :=
    congrArg (List.map Index.definition) hinserts.indexes
  rw [ledger, ledger, hdefs, hinserts.manager]
  refine .single (.created hauthor hinserts.active hinserts.created fun ix hix => ?_)
  obtain ⟨old, hold, rfl⟩ := List.mem_map.mp hix
  exact hinserts.vacant old hold

theorem insert_comes (h : r.work.table.Holds stored) (hroom : r.work.table.HasRoom)
    (txn : Transaction) (row : Row) :
    Comes (.insert txn row) (r.ledger stored) (r.step (.insert txn row)) := by
  rcases TableAction.insert_outcome h hroom txn row with
    ⟨err, w, hfail, hfails⟩ | ⟨v, w, hok, hinserts⟩
  · exact comes_of_fails (Action.bind_of_error hfail) hfails
  · have hperform : (Call.insert txn row).perform r.work = .ok [.created v] w :=
      Action.bind_of_ok hok
    rw [step_of_ok hperform]
    exact ⟨v ::ₘ stored, hinserts.holds, changes_of_inserts hinserts rfl r.history⟩

theorem delete_comes (h : r.work.table.Holds stored) (txn : Transaction) {v : Version}
    (hv : .created v ∈ r.history) :
    Comes (.delete txn v) (r.ledger stored) (r.step (.delete txn v)) := by
  rcases TableAction.delete_outcome txn v r.work with
    ⟨err, hfail⟩ | ⟨headers, hok, hactive, hmark⟩
  · exact comes_of_fails (Action.bind_of_error hfail) (.refl h)
  · have hperform : (Call.delete txn v).perform r.work =
        .ok [.deleted v txn.xid] { r.work with headers } := Action.bind_of_ok hok
    rw [step_of_ok hperform]
    exact ⟨stored, h, .single (.deleted rfl hactive hv hmark)⟩

/-- An update that succeeds is a deletion and then an insert. -/
theorem update_comes (h : r.work.table.Holds stored) (hroom : r.work.table.HasRoom)
    (hmarks : r.work.headers.Unmarked) (txn : Transaction) {v : Version}
    (hv : .created v ∈ r.history) (row : Row) :
    Comes (.update txn v row) (r.ledger stored) (r.step (.update txn v row)) := by
  rcases TableAction.update_outcome h hroom hmarks txn v row with
    ⟨err, w, hfail, hfails⟩ | ⟨headers, new, w, hok, hmark, hinserts⟩
  · exact comes_of_fails (Action.bind_of_error hfail) hfails
  · have hperform : (Call.update txn v row).perform r.work =
        .ok [.created new, .deleted v txn.xid] w := Action.bind_of_ok hok
    rw [step_of_ok hperform]
    refine ⟨new ::ₘ stored, hinserts.holds, ?_⟩
    have hdeleted : (r.ledger stored).Change (some txn.xid) false _ :=
      .deleted rfl hinserts.active hv hmark
    exact .head hdeleted (changes_of_inserts hinserts rfl (.deleted v txn.xid :: r.history))

theorem scan_comes (h : r.work.table.Holds stored) (txn : Transaction) (position : Nat) :
    Comes (.scan txn position) (r.ledger stored) (r.step (.scan txn position)) := by
  rcases TableAction.scan_cases h.in_shape txn position with
    ⟨err, hfail⟩ | ⟨rows, indexes, hdefs, hok⟩
  · exact comes_of_fails (Action.bind_of_error (Action.discard_of_error hfail)) (.refl h)
  · exact comes_of_same (Action.bind_of_ok (Action.discard_of_ok hok)) (h.of_definitions hdefs)
      hdefs rfl rfl

/-- A purge drops what has the row of the version. -/
theorem purge_comes (h : r.work.table.Holds stored) (v : Version) :
    Comes (.purge v) (r.ledger stored) (r.step (.purge v)) := by
  obtain ⟨removed, ts, hok, hholds, -⟩ := TableAction.purge_outcome h v
  have hperform : (Call.purge v).perform r.work = .ok [] (r.work.withTrees ts) :=
    Action.bind_of_ok (Action.discard_of_ok hok)
  rw [step_of_ok hperform]
  exact ⟨_, hholds, .single (.dropped (Multiset.filter_le _ _) fun _ _ => Or.inr (Or.inl rfl))⟩

/-- A vacuum drops what is dead, clears stamps, and forgets the aborted transactions when it may. -/
theorem vacuum_comes (h : r.work.table.Holds stored) :
    Comes .vacuum (r.ledger stored) (r.step .vacuum) := by
  obtain ⟨w, hok, hvacuums⟩ := TableAction.vacuum_outcome h
  have hperform : Call.vacuum.perform r.work = .ok [] w :=
    Action.bind_of_ok (Action.discard_of_ok hok)
  rw [step_of_ok hperform]
  let alive := stored.filter fun v => TableAction.isDead r.work.manager r.work.headers v = false
  refine ⟨alive, hvacuums.holds, ?_⟩
  -- A vacuum is three small changes, of which the last may be missing.
  have hdropped : (r.ledger stored).Change none false { r.ledger stored with stored := alive } := by
    refine .dropped (Multiset.filter_le _ _) fun v hv => ?_
    cases hdead : TableAction.isDead r.work.manager r.work.headers v with
    | true => exact Or.inr (Or.inr hdead)
    | false => exact Or.inl (Multiset.mem_filter.mpr ⟨hv, hdead⟩)
  have hcleared : Ledger.Change none false { r.ledger stored with stored := alive }
      { r.ledger stored with stored := alive, headers := w.headers } :=
    .loosened hvacuums.loosened hvacuums.size_eq.ge
  refine .head hdropped (.head hcleared ?_)
  rw [ledger, ledger, hvacuums.definitions, hvacuums.manager]
  split
  · exact .refl
  · next hquiet =>
    rw [Bool.or_eq_true, not_or] at hquiet
    refine .single (.forgot (Bool.eq_false_iff.mpr hquiet.2) fun v hv => ?_)
    obtain ⟨hstored, halive⟩ := Multiset.mem_filter.mp hv
    refine ⟨?_, hvacuums.cleared v hstored halive⟩
    rw [TableAction.isDead, Bool.or_eq_false_iff] at halive
    exact halive.1

theorem reclaim_comes (h : r.work.table.Holds stored) :
    Comes .reclaim (r.ledger stored) (r.step .reclaim) := by
  obtain ⟨count, ts, hok, hholds⟩ := TableAction.reclaim_outcome h
  have hperform : Call.reclaim.perform r.work = .ok [] (r.work.withTrees ts) :=
    Action.bind_of_ok (Action.discard_of_ok hok)
  exact comes_of_same hperform hholds rfl rfl rfl

theorem add_index_comes (h : r.work.table.Holds stored) (d : IndexDefinition)
    (config : IndexConfig) :
    Comes (.addIndex d config) (r.ledger stored) (r.step (.addIndex d config)) := by
  rcases TableAction.add_index_outcome h d config with
    ⟨err, w, hfail, hfails⟩ | ⟨ix, w, hok, -, hadds⟩
  · exact comes_of_fails (Action.bind_of_error (Action.discard_of_error hfail)) hfails
  · have hperform : (Call.addIndex d config).perform r.work = .ok [] w :=
      Action.bind_of_ok (Action.discard_of_ok hok)
    rw [step_of_ok hperform]
    refine ⟨stored, hadds.holds, ?_⟩
    rw [ledger, ledger, hadds.definitions, hadds.headers, hadds.manager]
    exact .single (.indexed hadds.distinct)

/-- Every call keeps the table in order and makes small changes to its ledger. -/
theorem step_comes (h : r.work.table.Holds stored) (hmarks : r.work.headers.Unmarked) {c : Call}
    (hallows : r.Allows c) : Comes c (r.ledger stored) (r.step c) := by
  cases c with
  | begin => exact begin_comes h
  | commit txn => exact commit_comes h txn
  | abort txn => exact abort_comes h txn
  | insert txn row => exact insert_comes h hallows.2 txn row
  | delete txn v => exact delete_comes h txn hallows.2
  | update txn v row => exact update_comes h hallows.2.2 hmarks txn hallows.2.1 row
  | scan txn position => exact scan_comes h txn position
  | purge v => exact purge_comes h v
  | vacuum => exact vacuum_comes h
  | reclaim => exact reclaim_comes h
  | addIndex d config => exact add_index_comes h d config

theorem start_table {name : String} {columns : List ColumnType} {config : StoreConfig}
    {table : Table} (hcreate : Table.create name columns config = .ok table) :
    table = { name, columns, indexes := [], store := { trees := [], config } } := by
  simp only [Table.create, Store.create] at hcreate
  cases hconfig : config.validate with
  | error err =>
    rw [hconfig] at hcreate
    cases hcreate
  | ok =>
    rw [hconfig] at hcreate
    cases hcreate
    rfl

theorem start_holds {name : String} {columns : List ColumnType} {config : StoreConfig}
    {table : Table} (hcreate : Table.create name columns config = .ok table) :
    table.Holds 0 ∧ table.definitions = [] := by
  rw [start_table hcreate]
  exact ⟨⟨.nil, fun _ => rfl, by simp, by simp, by simp⟩, rfl⟩

/-- Along a run the table holds versions. While the ids of transactions last, its ledger is sound and
has every property that a new table has and that small changes of sound ledgers keep. -/
theorem Reaches.invariant {P : Ledger → Prop} (hstart : P .empty)
    (hstep : ∀ {author : Option Xid} {purges : Bool} {s s' : Ledger}, s.Sound → s'.Sound →
      s.Change author purges s' → P s → P s')
    {r : Run} (h : Reaches r) :
    ∃ stored, r.work.table.Holds stored ∧ r.work.headers.Unmarked ∧
      (r.history.begun.length < 2 ^ 32 - 1 →
        (r.ledger stored).Sound ∧ P (r.ledger stored)) := by
  -- By induction on the run; each call is a row of small changes, along which `P` is kept.
  induction h with
  | @start name columns config table hcreate =>
    obtain ⟨hholds, hdefs⟩ := start_holds hcreate
    refine ⟨0, hholds, nofun, fun _ => ?_⟩
    rw [ledger, hdefs]
    exact ⟨Ledger.sound_empty, hstart⟩
  | @step r c _ hallows ih =>
    obtain ⟨stored, hholds, hmarks, hledger⟩ := ih
    obtain ⟨stored', hholds', hchanges⟩ := step_comes hholds hmarks hallows
    refine ⟨stored', hholds', hchanges.unmarked hmarks, fun hfew => ?_⟩
    obtain ⟨hsound, hp⟩ := hledger (Nat.lt_of_le_of_lt hchanges.begun_le hfew)
    exact hchanges.preserve hstep hsound hfew hp

theorem Reaches.sound {r : Run} (h : Reaches r) (hfew : r.history.begun.length < 2 ^ 32 - 1) :
    ∃ stored, r.work.table.Holds stored ∧ r.work.headers.Unmarked ∧ (r.ledger stored).Sound := by
  obtain ⟨stored, hholds, hmarks, hledger⟩ := h.invariant (P := fun _ => True) trivial
    fun _ _ _ _ => trivial
  exact ⟨stored, hholds, hmarks, (hledger hfew).1⟩

theorem Reaches.attains {r : Run} (h : Reaches r) : Attains Table.HasRoom r := by
  induction h with
  | start hcreate => exact .start hcreate
  | step c _ hallows ih =>
    apply ih.step c
    intro hstores
    cases c with
    | insert txn row => exact hallows.2
    | update txn v row => exact hallows.2.2
    | _ => cases hstores

theorem Attains.mono {room room' : Table → Prop} {r : Run} (h : Attains room r)
    (hless : ∀ {tb : Table}, room tb → room' tb) : Attains room' r := by
  induction h with
  | start hcreate => exact .start hcreate
  | step c _ hroom ih => exact ih.step c fun hstores => hless (hroom hstores)

/-- Whatever a call names, there is a history in which it could be made. -/
theorem exists_allows (work : Table.Workspace) (c : Call)
    (hroom : c.stores = true → work.table.HasRoom) : ∃ h : History, (Run.mk work h).Allows c := by
  cases c with
  | commit txn | abort txn | scan txn _ => exact ⟨[.began txn], List.mem_singleton_self _⟩
  | insert txn _ => exact ⟨[.began txn], List.mem_singleton_self _, hroom rfl⟩
  | delete txn v => exact ⟨[.began txn, .created v], by simp [Allows]⟩
  | update txn v _ => exact ⟨[.began txn, .created v], by simp, by simp, hroom rfl⟩
  | begin | purge _ | vacuum | reclaim | addIndex _ _ => exact ⟨[], trivial⟩

/-- What a call does goes by the table, the headers and the manager alone. -/
theorem work_step (work : Table.Workspace) (h h' : History) (c : Call) :
    ((Run.mk work h).step c).work = ((Run.mk work h').step c).work := by
  simp only [step]
  cases c.perform work <;> rfl

theorem Attains.holds {r : Run} (h : Attains Table.HasRoom r) :
    ∃ stored, r.work.table.Holds stored ∧ r.work.headers.Unmarked := by
  induction h with
  | start hcreate => exact ⟨0, (start_holds hcreate).1, nofun⟩
  | @step r c _ hroom ih =>
    obtain ⟨stored, hholds, hmarks⟩ := ih
    -- The history is not what keeps a table in order, so it may be one that allows the call.
    obtain ⟨past, hallows⟩ := exists_allows r.work c hroom
    obtain ⟨stored', hholds', hchanges⟩ := step_comes (r := ⟨r.work, past⟩) hholds hmarks hallows
    have hwork : (r.step c).work = ((Run.mk r.work past).step c).work :=
      work_step r.work r.history past c
    rw [hwork]
    exact ⟨stored', hholds', hchanges.unmarked hmarks⟩

def after (r : Run) (calls : List Call) : Run := calls.foldl step r

def AllowsAll : Run → List Call → Prop
  | _, [] => True
  | r, c :: calls => r.Allows c ∧ (r.step c).AllowsAll calls

theorem Reaches.after {r : Run} (h : Reaches r) {calls : List Call} (hallows : r.AllowsAll calls) :
    Reaches (r.after calls) := by
  induction calls generalizing r with
  | nil => exact h
  | cons c calls ih => exact ih (h.step c hallows.1) hallows.2

theorem history_suffix_after (r : Run) (calls : List Call) :
    r.history <:+ (r.after calls).history := by
  induction calls generalizing r with
  | nil => exact List.suffix_rfl
  | cons c calls ih => exact (r.history_suffix_step c).trans (ih (r.step c))

instance (r : Run) : DecidablePred r.Allows
  | .commit _ | .abort _ | .scan _ _ => inferInstanceAs (Decidable (_ ∈ _))
  | .insert _ _ | .delete _ _ => inferInstanceAs (Decidable (_ ∧ _))
  | .update _ _ _ => inferInstanceAs (Decidable (_ ∧ _ ∧ _))
  | .begin | .purge _ | .vacuum | .reclaim | .addIndex _ _ => inferInstanceAs (Decidable True)

instance decidableAllowsAll : (r : Run) → DecidablePred r.AllowsAll
  | _, [] => inferInstanceAs (Decidable True)
  | r, c :: calls =>
    have := decidableAllowsAll (r.step c) calls
    inferInstanceAs (Decidable (r.Allows c ∧ (r.step c).AllowsAll calls))

def sampleStart : Run where
  work := {
    table := { name := "sample", columns := [.bigint], indexes := [], store := ⟨[], {}⟩ }
    headers := {}
    manager := {} }
  history := []

theorem sample_start_reaches : Reaches sampleStart := by
  have hcreate : Table.create "sample" [.bigint] {} = .ok sampleStart.work.table := by
    decide +kernel
  exact .start hcreate

def sampleCalls : List Call := [
  .addIndex { IndexDefinition.plain "keys" 1 [0] [.bigint] with unique := true } {},
  .begin,
  .insert ⟨1, []⟩ [.bigint 5],
  .commit ⟨1, []⟩,
  .begin,
  .begin,
  .update ⟨3, [2]⟩ ⟨0, 1, [.bigint 5], 1⟩ [.bigint 5]]

def sample : Run := sampleStart.after sampleCalls

theorem sample_reaches : Reaches sample := sample_start_reaches.after (by decide +kernel)

end Run

end VersionedIndex
