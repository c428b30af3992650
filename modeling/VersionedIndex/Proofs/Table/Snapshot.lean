import VersionedIndex.Proofs.Table.Runs

namespace VersionedIndex

theorem Table.index_of_prefix {tb tb' : Table} (h : tb.definitions <+: tb'.definitions)
    {position : Nat} {ix : Index} (hix : tb.indexes[position]? = some ix) :
    ∃ ix', tb'.indexes[position]? = some ix' ∧ ix'.order = ix.order := by
  obtain ⟨added, hadded⟩ := h
  have hdef : tb.definitions[position]? = some ix.definition := by
    rw [Table.definitions, List.getElem?_map, hix]
    rfl
  have hlt := (List.getElem?_eq_some_iff.mp hdef).1
  rw [← List.getElem?_append_left hlt, hadded, Table.definitions, List.getElem?_map,
    Option.map_eq_some_iff] at hdef
  obtain ⟨ix', hix', hsame⟩ := hdef
  have horder : ix'.definition.order = ix.definition.order := by rw [hsame]
  exact ⟨ix', hix', horder⟩

namespace History

variable {h : History} {txn : Transaction} {v : Version}

theorem not_reads_of_running (hcreator : h.Running v.creator) (hother : v.creator ≠ txn.xid) :
    ¬h.Reads txn v := by
  rintro ⟨hown | hcommitted, -⟩
  · exact hother hown
  · exact hcreator.not_committed hcommitted

end History

namespace Ledger

variable {s s' : Ledger} {v : Version} {txn : Transaction} {author : Option Xid}

theorem Sound.not_reads_of_dead (h : s.Sound) (hrunning : s.history.Running txn.xid)
    (hdead : TableAction.isDead s.manager s.headers v = true) : ¬s.history.Reads txn v := by
  have hactive := (h.manager.active txn.xid).mpr hrunning
  have hsome : s.manager.hasActive = true := by
    rw [Manager.hasActive, Bool.not_eq_true', List.isEmpty_eq_false_iff]
    exact List.ne_nil_of_mem (Manager.is_active_iff.mp hactive)
  rw [TableAction.isDead, hsome, Bool.not_true, Bool.false_and, Bool.or_false] at hdead
  have haborted := h.manager.aborted v.creator hdead
  rintro ⟨hown | hcommitted, -⟩
  · rw [hown] at haborted
    exact hrunning.2.2 haborted
  · exact h.legal.not_aborted_of_committed (History.mem_of_mem_past hcommitted) haborted

structure Undisturbed (txn : Transaction) (s s' : Ledger) : Prop where
  began : .began txn ∈ s'.history
  running : s'.history.Running txn.xid
  definitions : s.definitions <+: s'.definitions
  reads : ∀ v, v ∈ s'.stored ∧ s'.history.Reads txn v ↔ v ∈ s.stored ∧ s.history.Reads txn v

namespace Undisturbed

theorem refl (ht : .began txn ∈ s.history) (hrunning : s.history.Running txn.xid) :
    Undisturbed txn s s :=
  ⟨ht, hrunning, List.prefix_rfl, fun _ => Iff.rfl⟩

theorem trans {a b c : Ledger} (hab : Undisturbed txn a b) (hbc : Undisturbed txn b c) :
    Undisturbed txn a c :=
  ⟨hbc.began, hbc.running, hab.definitions.trans hbc.definitions,
    fun v => (hbc.reads v).trans (hab.reads v)⟩

/-- An event that is not by the transaction. Whatever versions it adds, the transaction does not read
them. -/
theorem of_event {e : Event} (hl : s'.history.Legal) (hevent : s'.history = e :: s.history)
    (ht : .began txn ∈ s.history) (hrunning : s.history.Running txn.xid)
    (hcommit : e ≠ .committed txn.xid) (habort : e ≠ .aborted txn.xid)
    (hdelete : ∀ v, e ≠ .deleted v txn.xid) (hdefs : s'.definitions = s.definitions)
    (hkept : ∀ v ∈ s.stored, v ∈ s'.stored)
    (hadded : ∀ v ∈ s'.stored, v ∈ s.stored ∨ ¬s.history.Reads txn v) : Undisturbed txn s s' := by
  have hreads (v : Version) : s'.history.Reads txn v ↔ s.history.Reads txn v := by
    rw [hevent] at hl ⊢
    exact History.reads_cons_iff hl ht hdelete
  refine ⟨?_, ?_, ?_, fun v => ?_⟩
  · rw [hevent]
    exact List.mem_cons_of_mem e ht
  · rw [hevent]
    exact hrunning.cons hcommit habort
  · rw [hdefs]
  · rw [hreads]
    refine and_congr_left fun hread => ⟨fun hv => ?_, hkept v⟩
    exact (hadded v hv).resolve_right (not_not_intro hread)

end Undisturbed

/-- A small change by anyone else does not disturb a running transaction. -/
theorem Change.undisturbed (hchange : s.Change author false s') (h : s.Sound) (h' : s'.Sound)
    (ht : .began txn ∈ s.history) (hrunning : s.history.Running txn.xid)
    (hother : author ≠ some txn.xid) : Undisturbed txn s s' := by
  have hne {x : Xid} (hauthor : author = some x) : x ≠ txn.xid := by
    rintro rfl
    exact hother hauthor
  have hsame (v : Version) (hv : v ∈ s.stored) : v ∈ s.stored ∨ ¬s.history.Reads txn v :=
    Or.inl hv
  cases hchange with
  | began =>
    exact .of_event h'.legal rfl ht hrunning nofun nofun (fun _ => nofun) rfl (fun _ hv => hv) hsame
  | committed hauthor _ =>
    refine .of_event h'.legal rfl ht hrunning (fun he => ?_) nofun (fun _ => nofun) rfl
      (fun _ hv => hv) hsame
    exact hne hauthor (Event.committed.inj he)
  | aborted hauthor _ =>
    refine .of_event h'.legal rfl ht hrunning nofun (fun he => ?_) (fun _ => nofun) rfl
      (fun _ hv => hv) hsame
    exact hne hauthor (Event.aborted.inj he)
  | deleted hauthor _ _ _ =>
    refine .of_event h'.legal rfl ht hrunning nofun nofun (fun v he => ?_) rfl (fun _ hv => hv) hsame
    exact hne hauthor (Event.deleted.inj he).2
  | @created author id row v headers hauthor hactive hcreate _ =>
    obtain rfl : v = (s.headers.create id row author.xid).1 := congrArg Prod.fst hcreate
    refine .of_event h'.legal rfl ht hrunning nofun nofun (fun _ => nofun) rfl
      (fun _ hv => Multiset.mem_cons_of_mem hv) fun u hu => ?_
    rcases Multiset.mem_cons.mp hu with rfl | hold
    · exact Or.inr (History.not_reads_of_running ((h.manager.active _).mp hactive) (hne hauthor))
    · exact Or.inl hold
  | dropped hle hdead =>
    refine ⟨ht, hrunning, List.prefix_rfl, fun v => and_congr_left fun hread => ?_⟩
    refine ⟨fun hv => Multiset.mem_of_le hle hv, fun hv => ?_⟩
    -- What a running transaction reads is not dead, so it stays.
    rcases hdead v hv with hstays | hpurges | hdead
    · exact hstays
    · cases hpurges
    · exact absurd hread (h.not_reads_of_dead hrunning hdead)
  | indexed _ => exact ⟨ht, hrunning, List.prefix_append _ _, fun _ => Iff.rfl⟩
  | loosened _ _ => exact ⟨ht, hrunning, List.prefix_rfl, fun _ => Iff.rfl⟩
  | forgot _ _ => exact ⟨ht, hrunning, List.prefix_rfl, fun _ => Iff.rfl⟩

theorem Changes.undisturbed (hchanges : Changes author false s s') (h : s.Sound)
    (hfew : s'.history.begun.length < 2 ^ 32 - 1) (ht : .began txn ∈ s.history)
    (hrunning : s.history.Running txn.xid) (hother : author ≠ some txn.xid) :
    s'.Sound ∧ Undisturbed txn s s' :=
  hchanges.preserve
    (fun ha hb hchange hs => hs.trans (hchange.undisturbed ha hb hs.began hs.running hother))
    h hfew (.refl ht hrunning)

end Ledger

namespace Run

variable {r : Run} {stored : Multiset Version} {txn : Transaction}

/-- A scan by a running transaction yields what it reads, in the order of the index. -/
theorem scan_reads (h : r.work.table.Holds stored) (hsound : (r.ledger stored).Sound)
    (ht : .began txn ∈ r.history) (hrunning : r.history.Running txn.xid) {position : Nat}
    {ix : Index} (hix : r.work.table.indexes[position]? = some ix) :
    ∃ rows, ((TableAction.scan txn position).outcome r.work).1 = .ok rows ∧
      rows.Pairwise ix.order.Before ∧ (∀ v ∈ rows, ix.order.Accepts v.data) ∧
      ∀ v, v ∈ rows ↔ v ∈ stored ∧ r.history.Reads txn v := by
  obtain ⟨t, -, hcontains, hscan⟩ := TableAction.scan_of_holds h txn hix
  refine ⟨_, hscan, hcontains.sorted.filter _, fun v hv => ?_, fun v => ?_⟩
  · exact hcontains.accepted (hcontains.mem_versions.mp (List.mem_of_mem_filter hv))
  · rw [List.mem_filter, hcontains.mem_versions]
    apply and_congr_right
    intro hv
    exact hsound.can_read_iff ht ((hsound.manager.active txn.xid).mpr hrunning) hv

/-- While the ids of transactions last, a scan by a running transaction yields exactly the stored
versions that the transaction or one that had committed before it began has created and none of these
has deleted, each once and in the order of the index. No call of another transaction changes what it
yields. -/
theorem Reaches.scan_reads_snapshot (h : Reaches r) (hfew : r.history.begun.length < 2 ^ 32 - 2)
    (ht : .began txn ∈ r.history) (hactive : r.work.manager.isActive txn.xid = true)
    {position : Nat} {ix : Index} (hix : r.work.table.indexes[position]? = some ix) :
    (∃ rows, ((TableAction.scan txn position).outcome r.work).1 = .ok rows ∧
      rows.Pairwise ix.order.Before ∧ rows.Nodup ∧
      ∀ v, v ∈ rows ↔ r.work.table.Stores v ∧ r.history.Reads txn v) ∧
    ∀ c : Call, r.Allows c → c.author ≠ some txn.xid → c.purges = false →
      (r.step c).history.begun.length < 2 ^ 32 - 2 →
      ((TableAction.scan txn position).outcome (r.step c).work).1 =
        ((TableAction.scan txn position).outcome r.work).1 := by
  obtain ⟨stored, hholds, hmarks, hsound⟩ := h.sound (Nat.lt_of_lt_pred hfew)
  have hrunning : r.history.Running txn.xid := (hsound.manager.active txn.xid).mp hactive
  obtain ⟨rows, hscan, hsorted, haccepted, hmem⟩ := scan_reads hholds hsound ht hrunning hix
  constructor
  · refine ⟨rows, hscan, hsorted, KeyOrder.nodup_of_before hsorted haccepted, fun v => ?_⟩
    rw [hmem, hholds.stores_iff]
  · intro c hallows hother hpurges hfew'
    obtain ⟨stored', hholds', hchanges⟩ := step_comes hholds hmarks hallows
    rw [hpurges] at hchanges
    obtain ⟨hsound', hsame⟩ :=
      hchanges.undisturbed hsound (Nat.lt_of_lt_pred hfew') ht hrunning hother
    obtain ⟨ix', hix', horder⟩ := Table.index_of_prefix hsame.definitions hix
    obtain ⟨rows', hscan', hsorted', -, hmem'⟩ :=
      scan_reads hholds' hsound' hsame.began hsame.running hix'
    rw [horder] at hsorted'
    -- Both scans are in strict order, so it is enough that they have the same members.
    rw [hscan, hscan', KeyOrder.eq_of_before hsorted hsorted' haccepted fun v => ?_]
    rw [hmem, hmem']
    exact (hsame.reads v).symm

/-- The older transaction of the sample reads the version that has been replaced, also once the
replacement has been committed. -/
theorem sample_scan_reads_snapshot :
    ∃ rows, rows = [⟨0, 1, [.bigint 5], 1⟩] ∧
      ((TableAction.scan ⟨2, []⟩ 0).outcome sample.work).1 = .ok rows ∧
      (∀ v, v ∈ rows ↔ sample.work.table.Stores v ∧ sample.history.Reads ⟨2, []⟩ v) ∧
      ((TableAction.scan ⟨2, []⟩ 0).outcome (sample.step (.commit ⟨3, [2]⟩)).work).1 =
        .ok rows := by
  obtain ⟨ix, hix⟩ : ∃ ix, sample.work.table.indexes[0]? = some ix :=
    Option.isSome_iff_exists.mp (by decide +kernel)
  have hbegan : .began ⟨2, []⟩ ∈ sample.history := by decide +kernel
  obtain ⟨⟨rows, hscan, -, -, hmem⟩, hothers⟩ :=
    sample_reaches.scan_reads_snapshot (by decide +kernel) hbegan (by decide +kernel) hix
  have hrows : ((TableAction.scan ⟨2, []⟩ 0).outcome sample.work).1 =
      .ok [⟨0, 1, [.bigint 5], 1⟩] := by
    decide +kernel
  refine ⟨rows, ?_, hscan, hmem, ?_⟩
  · rw [hscan] at hrows
    exact Except.ok.inj hrows
  · rw [hothers (.commit ⟨3, [2]⟩) (by decide +kernel) (by decide +kernel) rfl (by decide +kernel)]
    exact hscan

end Run

end VersionedIndex
