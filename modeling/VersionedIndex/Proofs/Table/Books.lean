import VersionedIndex.Proofs.Table.Runs

namespace VersionedIndex

namespace Action

variable {σ τ α β : Type} {part : σ → τ} {act : Action σ α} {s s' : σ}

def Keeps (part : σ → τ) (act : Action σ α) : Prop := ∀ s, part (act.outcome s).2 = part s

theorem keeps_pure (a : α) : Keeps part (pure a : Action σ α) := fun _ => rfl

theorem keeps_throw (e : Error) : Keeps part (throw e : Action σ α) := fun _ => rfl

theorem keeps_examine (read : σ → Except Error α) : Keeps part (examine read) := by
  intro s
  cases hread : read s with
  | ok a => rw [outcome, examine_of_ok hread]
  | error e => rw [outcome, examine_of_error hread]

theorem keeps_zoom {ρ : Type} {here : σ → ρ} {replace : σ → ρ → σ}
    (happart : ∀ s t, part (replace s t) = part s) (act : Action ρ α) :
    Keeps part (zoom here replace act) := by
  intro s
  simp only [outcome, zoom]
  cases act (here s) with
  | ok a t => exact happart s t
  | error e t => exact happart s t

namespace Keeps

theorem of_ok (h : Keeps part act) {a : α} (hrun : act s = .ok a s') : part s' = part s := by
  have hkeeps := h s
  rw [outcome, hrun] at hkeeps
  exact hkeeps

theorem of_error (h : Keeps part act) {e : Error} (hrun : act s = .error e s') :
    part s' = part s := by
  have hkeeps := h s
  rw [outcome, hrun] at hkeeps
  exact hkeeps

theorem bind (h : Keeps part act) {f : α → Action σ β} (hf : ∀ a, Keeps part (f a)) :
    Keeps part (act >>= f) := by
  intro s
  cases hrun : act s with
  | ok a t =>
    rw [outcome, bind_of_ok hrun]
    exact (hf a t).trans (h.of_ok hrun)
  | error e t =>
    rw [outcome, bind_of_error hrun]
    exact h.of_error hrun

theorem discard (h : Keeps part act) : Keeps part (discard act) := h.bind fun _ => keeps_pure ()

theorem tryCatch (h : Keeps part act) {handler : Error → Action σ α}
    (hhandler : ∀ e, Keeps part (handler e)) : Keeps part (tryCatch act handler) := by
  intro s
  cases hrun : act s with
  | ok a t =>
    rw [outcome, try_of_ok hrun]
    exact h.of_ok hrun
  | error e t =>
    rw [outcome, try_of_error hrun]
    exact (hhandler e t).trans (h.of_error hrun)

end Keeps

end Action

namespace TableAction

open VersionedIndex.Action

variable {w w' : Table.Workspace}

def books (w : Table.Workspace) : Headers × Manager := (w.headers, w.manager)

theorem on_store_keeps {α : Type} (act : StoreAction α) : Keeps books (onStore act) := by
  have happart (w : Table.Workspace) (store : Store) :
      books { w with table := { w.table with store } } = books w := rfl
  exact keeps_zoom happart act

theorem on_index_keeps {α : Type} (ix : Index) (act : IndexAction α) :
    Keeps books (onIndex ix act) := by
  have happart (w : Table.Workspace) (ix : Index) : books { w with table :=
      { w.table with indexes := w.table.indexes.set ix.position ix } } = books w := rfl
  exact keeps_zoom happart act

theorem get_keeps : Keeps books (get : TableAction Table.Workspace) := fun _ => rfl

theorem visibility_keeps (txn : Transaction) : Keeps books (visibility txn) := fun _ => rfl

theorem scan_all_keeps (see : Option Visibility) (position : Nat) :
    Keeps books (scanAll see position) := by
  refine (keeps_examine _).bind fun ix => (keeps_examine _).bind fun tree => ?_
  exact (on_index_keeps ix _).bind fun cursor => keeps_pure _

theorem scan_keeps (txn : Transaction) (position : Nat) : Keeps books (scan txn position) :=
  (visibility_keeps txn).bind fun see => scan_all_keeps (some see) position

theorem fill_keeps (ix : Index) (versions : List Version) : Keeps books (fill ix versions) := by
  induction versions with
  | nil => exact keeps_pure ()
  | cons v rest ih => exact (on_store_keeps _).bind fun _ => ih

theorem add_index_keeps (d : IndexDefinition) (config : IndexConfig) :
    Keeps books (addIndex d config) := by
  have hadd (position : Nat) (ix : Index) : Keeps books (do
      modify fun w : Table.Workspace => { w with table :=
        { w.table with indexes := w.table.indexes ++ [ix] } }
      return position : TableAction Nat) := fun _ => rfl
  refine get_keeps.bind fun w => (keeps_examine _).bind fun ix => (keeps_examine _).bind fun _ => ?_
  refine (on_store_keeps _).bind fun _ => ?_
  split
  · refine (scan_all_keeps none 0).bind fun versions => Keeps.bind ?_ fun _ => hadd _ ix
    exact (fill_keeps ix versions).tryCatch fun e => (on_store_keeps _).bind fun _ => keeps_throw e
  · exact hadd _ ix

theorem withdraw_keeps (v : Version) (indexes : List Index) : Keeps books (withdraw v indexes) := by
  induction indexes with
  | nil => exact keeps_pure ()
  | cons ix rest ih =>
    refine Keeps.bind ?_ fun _ => ih
    exact (on_store_keeps _).discard.tryCatch fun _ => keeps_pure ()

theorem insert_into_keeps (txn : Transaction) (v : Version) (done indexes : List Index) :
    Keeps books (insertInto txn v done indexes) := by
  induction indexes generalizing done with
  | nil => exact keeps_pure ()
  | cons ix rest ih =>
    refine (visibility_keeps txn).bind fun see => Keeps.bind ?_ fun _ => ih (done ++ [ix])
    exact (on_store_keeps _).tryCatch fun e => (withdraw_keeps v done).bind fun _ => keeps_throw e

theorem purge_keeps (v : Version) : Keeps books (purge v) := by
  refine get_keeps.bind fun w => ?_
  induction w.table.indexes with
  | nil => exact keeps_pure false
  | cons ix rest ih => exact (on_store_keeps _).bind fun _ => ih.bind fun _ => keeps_pure _

theorem purge_all_keeps (dead : List Version) :
    Keeps books (dead.forM fun v => discard (purge v)) := by
  induction dead with
  | nil => exact keeps_pure ()
  | cons v dead ih => exact (purge_keeps v).discard.bind fun _ => ih

/-- Stamps of aborted transactions may have gone, and if nothing runs the manager may have forgotten who
has aborted. -/
structure Tidies (w w' : Table.Workspace) : Prop where
  loosened : Headers.Loosened w.manager.isAborted w.headers w'.headers
  size_le : w.headers.deleters.size ≤ w'.headers.deleters.size
  manager : w'.manager = w.manager ∨ w.manager.hasActive = false ∧
    w'.manager = w.manager.forgetAborted w.manager.aborted

theorem Tidies.of_books (h : books w' = books w) : Tidies w w' := by
  obtain ⟨hheaders, hmanager⟩ := Prod.mk.inj h
  exact ⟨.of_deleter_eq fun u => hheaders ▸ rfl, (congrArg (·.deleters.size) hheaders).ge,
    Or.inl hmanager⟩

/-- A header that is not in use yet makes no difference. -/
theorem Tidies.of_issued {txn : Transaction} {row : Row}
    (h : books w' = books (issued txn row w)) : Tidies w w' := by
  obtain ⟨hheaders, hmanager⟩ := Prod.mk.inj h
  refine ⟨.of_deleter_eq fun u => ?_, ?_, Or.inl hmanager⟩
  · rw [hheaders]
    exact deleter_issued txn row w u
  · rw [hheaders]
    exact Nat.le_of_succ_le (Headers.size_create w.headers w.table.nextRowId row txn.xid).ge

/-- An insert fails, or it writes its version down whatever the trees make of it. -/
theorem insert_books (txn : Transaction) (row : Row) (w : Table.Workspace) :
    (∃ err w', insert txn row w = .error err w' ∧ w'.manager = w.manager ∧ Tidies w w') ∨
    ∃ w', insert txn row w = .ok (issue txn row w) w' ∧ w.manager.isActive txn.xid = true ∧
      books w' = books (issued txn row w) := by
  rcases insert_cases txn row w with ⟨err, hfail, -⟩ | ⟨hactive, -, -, hrun⟩
  · exact Or.inl ⟨err, w, hfail, rfl, .of_books rfl⟩
  · have hkeeps := insert_into_keeps txn (issue txn row w) [] w.table.indexes
    cases hinto : insertInto txn (issue txn row w) [] w.table.indexes (issued txn row w) with
    | ok a w' =>
      exact Or.inr ⟨w', hrun.trans (bind_of_ok hinto), hactive, hkeeps.of_ok hinto⟩
    | error e w' =>
      have hbooks := hkeeps.of_error hinto
      exact Or.inl ⟨e, w', hrun.trans (bind_of_error hinto), (Prod.mk.inj hbooks).2,
        .of_issued hbooks⟩

/-- An update fails, or it stamps its version and writes the new one down. -/
theorem update_books (hmarks : w.headers.Unmarked) (txn : Transaction) (v : Version) (row : Row) :
    (∃ err w', update txn v row w = .error err w' ∧ Tidies w w') ∨
    ∃ headers w', update txn v row w = .ok (issue txn row { w with headers }) w' ∧
      w.manager.isActive txn.xid = true ∧
      w.headers.markDeleted v txn.xid w.manager.isAborted = .ok headers ∧
      books w' = books (issued txn row { w with headers }) := by
  rcases update_cases txn v row w with ⟨err, hfail⟩ | ⟨headers, hactive, hmark, hok, hfail⟩
  · exact Or.inl ⟨err, w, hfail, .of_books rfl⟩
  · rcases insert_books txn row { w with headers } with
      ⟨err, w', hinsert, hmanager, htidies⟩ | ⟨w', hinsert, -, hbooks⟩
    · exact Or.inl ⟨err, _, hfail err w' hinsert,
        Headers.loosened_of_update hmarks hmark htidies.loosened,
        Headers.size_of_update hmark htidies.size_le, Or.inl hmanager⟩
    · exact Or.inr ⟨headers, w', hok _ w' hinsert, hactive, hmark, hbooks⟩

/-- However far a vacuum gets, it only tidies up. -/
theorem vacuum_tidies (w : Table.Workspace) :
    ∃ w', ((∃ err, vacuum w = .error err w') ∨ ∃ count, vacuum w = .ok count w') ∧
      Tidies w w' := by
  have hget : (get : TableAction Table.Workspace) w = .ok w w := rfl
  simp only [vacuum, List.partition_eq_filter_filter]
  rw [bind_of_ok hget]
  cases w.table.indexes.isEmpty with
  | true => exact ⟨w, Or.inr ⟨0, rfl⟩, .of_books rfl⟩
  | false =>
    rw [if_neg Bool.false_ne_true]
    cases hscan : scanAll none 0 w with
    | error e w₁ =>
      exact ⟨w₁, Or.inl ⟨e, bind_of_error hscan⟩, .of_books ((scan_all_keeps none 0).of_error hscan)⟩
    | ok versions w₁ =>
      obtain ⟨hheaders, hmanager⟩ := Prod.mk.inj ((scan_all_keeps none 0).of_ok hscan)
      rw [bind_of_ok hscan]
      let alive := versions.filter (not ∘ isDead w.manager w.headers)
      let w₂ : Table.Workspace :=
        { w₁ with headers := alive.foldl (clearAborted w.manager) w₁.headers }
      have hclear : (modify fun work : Table.Workspace => { work with
          headers := alive.foldl (clearAborted w.manager) work.headers } : TableAction Unit) w₁ =
        .ok () w₂ := rfl
      rw [bind_of_ok hclear]
      obtain ⟨hloose, hsize, -⟩ := clear_all_loosens w.manager w.headers alive
      have hcleared : w₂.headers = alive.foldl (clearAborted w.manager) w.headers := by
        rw [← hheaders]
      rw [← hcleared] at hloose hsize
      have hpurges := purge_all_keeps (versions.filter (isDead w.manager w.headers))
      cases hpurge : (versions.filter (isDead w.manager w.headers)).forM
          (fun v => discard (purge v)) w₂ with
      | error e w₃ =>
        obtain ⟨hheaders', hmanager'⟩ := Prod.mk.inj (hpurges.of_error hpurge)
        rw [← hheaders'] at hloose hsize
        exact ⟨w₃, Or.inl ⟨e, bind_of_error hpurge⟩, hloose, hsize.ge,
          Or.inl (hmanager'.trans hmanager)⟩
      | ok _ w₃ =>
        obtain ⟨hheaders', hmanager'⟩ := Prod.mk.inj (hpurges.of_ok hpurge)
        rw [← hheaders'] at hloose hsize
        rw [bind_of_ok hpurge]
        cases hactive : w.manager.hasActive with
        | true => exact ⟨w₃, Or.inr ⟨_, rfl⟩, hloose, hsize.ge, Or.inl (hmanager'.trans hmanager)⟩
        | false =>
          refine ⟨_, Or.inr ⟨_, rfl⟩, hloose, hsize.ge, Or.inr ⟨hactive, ?_⟩⟩
          exact congrArg (Manager.forgetAborted · w.manager.aborted) (hmanager'.trans hmanager)

end TableAction

namespace Run

open TableAction

variable {r : Run} {c : Call}

def Names (r : Run) : Call → Prop
  | .commit txn | .abort txn | .scan txn _ | .insert txn _ => .began txn ∈ r.history
  | .delete txn v | .update txn v _ => .began txn ∈ r.history ∧ .created v ∈ r.history
  | _ => True

/-- The runs whose calls name transactions that have begun and versions that have been created. The
trees need not have room, so they may come to be in any state. -/
inductive Occurs : Run → Prop
  | start {name : String} {columns : List ColumnType} {config : StoreConfig} {table : Table} :
    Table.create name columns config = .ok table →
    Occurs ⟨{ table, headers := {}, manager := {} }, []⟩
  | step {r : Run} (c : Call) : Occurs r → r.Names c → Occurs (r.step c)

def accounts (w : Table.Workspace) (history : History) : Ledger where
  definitions := []
  stored := 0
  headers := w.headers
  manager := w.manager
  history := history

variable {w w' : Table.Workspace} {author : Option Xid}

theorem accounts_congr (h : books w' = books w) (history : History) :
    accounts w' history = accounts w history := by
  obtain ⟨hheaders, hmanager⟩ := Prod.mk.inj h
  rw [accounts, accounts, hheaders, hmanager]

theorem accounts_of_tidies (h : Tidies w w') (history : History) :
    Ledger.Changes author true (accounts w history) (accounts w' history) := by
  have hloosened : Ledger.Change author true (accounts w history)
      { accounts w history with headers := w'.headers } := .loosened h.loosened h.size_le
  have hafter : accounts w' history =
      { accounts w history with headers := w'.headers, manager := w'.manager } := rfl
  rw [hafter]
  rcases h.manager with hsame | ⟨hquiet, hforgets⟩
  · rw [hsame]
    exact .single hloosened
  · rw [hforgets]
    -- Here no version counts as stored, so none mentions who is forgotten.
    exact .head hloosened (.single (.forgot hquiet fun v hv => absurd hv (Multiset.notMem_zero v)))

/-- A version that has been written down need not be stored. -/
theorem accounts_of_issued {txn : Transaction} {row : Row}
    (hactive : w.manager.isActive txn.xid = true)
    (hbooks : books w' = books (issued txn row w)) (history : History) :
    Ledger.Changes (some txn.xid) true (accounts w history)
      (accounts w' (.created (issue txn row w) :: history)) := by
  have hcreate : (issue txn row w, (issued txn row w).headers) =
      w.headers.create w.table.nextRowId row txn.xid := rfl
  have hcreated : Ledger.Change (some txn.xid) true (accounts w history) _ :=
    .created rfl hactive hcreate fun ix hix => absurd hix List.not_mem_nil
  rw [accounts_congr hbooks]
  exact .head hcreated (.single (.dropped (Multiset.zero_le _) fun _ _ => Or.inr (Or.inl rfl)))

theorem accounts_of_silent {α : Type} {act : TableAction α}
    (hperform : c.perform = (do discard act; return []))
    (hact : ∃ work, ((∃ err, act r.work = .error err work) ∨ ∃ a, act r.work = .ok a work) ∧
      Tidies r.work work) :
    Ledger.Changes author true (accounts r.work r.history)
      (accounts (r.step c).work (r.step c).history) := by
  obtain ⟨work, ⟨err, hrun⟩ | ⟨a, hrun⟩, htidies⟩ := hact
  · rw [step_of_error (hperform ▸ Action.bind_of_error (Action.discard_of_error hrun))]
    exact accounts_of_tidies htidies r.history
  · rw [step_of_ok (hperform ▸ Action.bind_of_ok (Action.discard_of_ok hrun))]
    exact accounts_of_tidies htidies r.history

theorem tidies_of_keeps {α : Type} {act : TableAction α} (hact : Action.Keeps books act)
    (w : Table.Workspace) :
    ∃ w', ((∃ err, act w = .error err w') ∨ ∃ a, act w = .ok a w') ∧ Tidies w w' := by
  cases hrun : act w with
  | ok a w' => exact ⟨w', Or.inr ⟨a, rfl⟩, .of_books (hact.of_ok hrun)⟩
  | error e w' => exact ⟨w', Or.inl ⟨e, rfl⟩, .of_books (hact.of_error hrun)⟩

/-- Every call makes small changes to the books, whatever it does to the trees. -/
theorem accounts_step (hmarks : r.work.headers.Unmarked) (hnames : r.Names c) :
    Ledger.Changes c.author true (accounts r.work r.history)
      (accounts (r.step c).work (r.step c).history) := by
  cases c with
  | begin => exact .single .began
  | commit txn =>
    cases hfinish : r.work.manager.commit txn with
    | error err =>
      rw [step_of_error (Action.bind_of_error (Call.on_manager_of_error hfinish))]
    | ok manager =>
      rw [step_of_ok (Action.bind_of_ok (Call.on_manager_of_ok hfinish))]
      exact .single (.committed rfl hfinish)
  | abort txn =>
    cases hfinish : r.work.manager.abort txn with
    | error err =>
      rw [step_of_error (Action.bind_of_error (Call.on_manager_of_error hfinish))]
    | ok manager =>
      rw [step_of_ok (Action.bind_of_ok (Call.on_manager_of_ok hfinish))]
      exact .single (.aborted rfl hfinish)
  | insert txn row =>
    rcases insert_books txn row r.work with ⟨err, work, hfail, -, htidies⟩ | ⟨work, hok, hactive, hbooks⟩
    · rw [step_of_error (Action.bind_of_error hfail)]
      exact accounts_of_tidies htidies r.history
    · rw [step_of_ok (Action.bind_of_ok hok)]
      exact accounts_of_issued hactive hbooks r.history
  | delete txn v =>
    rcases delete_outcome txn v r.work with ⟨err, hfail⟩ | ⟨headers, hok, hactive, hmark⟩
    · rw [step_of_error (Action.bind_of_error hfail)]
    · rw [step_of_ok (Action.bind_of_ok hok)]
      exact .single (.deleted rfl hactive hnames.2 hmark)
  | update txn v row =>
    rcases update_books hmarks txn v row with
      ⟨err, work, hfail, htidies⟩ | ⟨headers, work, hok, hactive, hmark, hbooks⟩
    · rw [step_of_error (Action.bind_of_error hfail)]
      exact accounts_of_tidies htidies r.history
    · rw [step_of_ok (Action.bind_of_ok hok)]
      have hdeleted : Ledger.Change (some txn.xid) true (accounts r.work r.history) _ :=
        .deleted rfl hactive hnames.2 hmark
      exact .head hdeleted (accounts_of_issued (w := { r.work with headers }) hactive hbooks
        (.deleted v txn.xid :: r.history))
  | scan txn position =>
    exact accounts_of_silent rfl (tidies_of_keeps (scan_keeps txn position) r.work)
  | purge v => exact accounts_of_silent rfl (tidies_of_keeps (purge_keeps v) r.work)
  | vacuum => exact accounts_of_silent rfl (vacuum_tidies r.work)
  | reclaim => exact accounts_of_silent rfl (tidies_of_keeps (on_store_keeps _) r.work)
  | addIndex d config =>
    exact accounts_of_silent rfl (tidies_of_keeps (add_index_keeps d config) r.work)

theorem Occurs.sound (h : Occurs r) (hfew : r.history.begun.length < 2 ^ 32 - 1) :
    (accounts r.work r.history).Sound := by
  have hinvariant : r.work.headers.Unmarked ∧ (r.history.begun.length < 2 ^ 32 - 1 →
      (accounts r.work r.history).Sound) := by
    clear hfew
    induction h with
    | start _ => exact ⟨nofun, fun _ => Ledger.sound_empty⟩
    | @step r c _ hnames ih =>
      obtain ⟨hmarks, hsound⟩ := ih
      have hchanges := accounts_step hmarks hnames
      refine ⟨hchanges.unmarked hmarks, fun hfew => ?_⟩
      have hbefore := hsound (Nat.lt_of_le_of_lt hchanges.begun_le hfew)
      exact (hchanges.preserve (P := fun _ => True) (fun _ _ _ _ => trivial) hbefore hfew trivial).1
  exact hinvariant.2 hfew

theorem Reaches.occurs (h : Reaches r) : Occurs r := by
  induction h with
  | start hcreate => exact .start hcreate
  | step c _ hallows ih =>
    apply ih.step c
    cases c with
    | insert txn row => exact hallows.1
    | update txn v row => exact ⟨hallows.1, hallows.2.1⟩
    | _ => exact hallows

end Run

end VersionedIndex
