import VersionedIndex.Proofs.Table.Unique

/-! Duplicates that may still go away. A conflict is called pending when the transaction reads no
version with the key, whether or not one has been committed since it began. -/

namespace VersionedIndex

open Std

namespace Index

variable {ix : Index} {t : Tree} {s : Shape} {v : Version} {stored : Multiset Version} {err : Error}
  {sight : Visibility} {p q : Prop}

def Answers (ix : Index) (err : Error) (pending : Prop) : Prop :=
  (err = .pendingDuplicate ix.name ↔ pending) ∧ (err = .duplicateKey ix.name ix.constraint ↔ ¬pending)

namespace Answers

theorem of_true (h : p) : ix.Answers (.pendingDuplicate ix.name) p :=
  ⟨iff_of_true rfl h, iff_of_false nofun (not_not_intro h)⟩

theorem of_false (h : ¬p) : ix.Answers (.duplicateKey ix.name ix.constraint) p :=
  ⟨iff_of_false nofun h, iff_of_true rfl h⟩

theorem congr (h : ix.Answers err p) (hpq : p ↔ q) : ix.Answers err q :=
  ⟨h.1.trans hpq, h.2.trans (not_congr hpq)⟩

end Answers

namespace Sorts

/-- At an item with the key of `v` the conflict is pending if the index reports such and no stored
version with the key can be read. -/
theorem conflict_answers (h : ix.Sorts t s) (hv : ix.order.Suits v.data) {e : Item}
    (he : e ∈ s.items) (hkey : ix.order.compareRows v.data e.version.data = .eq)
    (hconflict : ix.conflict (some sight) t e.id = .ok err) :
    ix.Answers err (ix.config.reportPendingDuplicates = true ∧ ∀ u ∈ s.stored,
      ix.order.compareRows v.data u.data = .eq → sight.canRead u .read = false) := by
  cases hreport : ix.config.reportPendingDuplicates with
  | false =>
    simp only [conflict, hreport] at hconflict
    cases hconflict
    exact Answers.of_false fun hpending => Bool.false_ne_true hpending.1
  | true =>
    obtain ⟨found, hany, hiff⟩ := any_equal (sight.canRead · .read) h.holds he h.suited h.key_sorted
    rw [KeyOrder.compareRows_eq_of_suits hv (h.suited e he)] at hkey
    simp only [conflict, hreport, hany, bind, Except.bind] at hconflict
    cases found with
    | true =>
      cases hconflict
      obtain ⟨e', he', hkey', hread⟩ := hiff.mp rfl
      apply Answers.of_false
      rintro ⟨-, hunread⟩
      have hequal : ix.order.compareRows v.data e'.version.data = .eq := by
        rw [KeyOrder.compareRows_eq_of_suits hv (h.suited e' he')]
        exact TransCmp.eq_trans hkey hkey'
      have hnot := hunread e'.version (Shape.mem_stored.mpr ⟨e', he', rfl⟩) hequal
      rw [hread] at hnot
      cases hnot
    | false =>
      cases hconflict
      refine .of_true ⟨rfl, fun u hu hequal => Bool.eq_false_iff.mpr fun hread => ?_⟩
      obtain ⟨e', he', rfl⟩ := Shape.mem_stored.mp hu
      rw [KeyOrder.compareRows_eq_of_suits hv (h.suited e' he')] at hequal
      have hsame := TransCmp.eq_trans (OrientedCmp.eq_symm hkey) hequal
      exact Bool.false_ne_true (hiff.mpr ⟨e', he', hsame, hread⟩)

end Sorts

/-- A refused version is kept out by a stored one, and the refusal is pending if the index reports such
and no stored version with the key can be read. -/
theorem Contains.refusal_answers (h : ix.Contains t stored) (hroom : t.HasRoom)
    (hv : ix.order.Accepts v.data) {t' : Tree}
    (hfail : ix.insert (some sight) v t = .error err t') :
    (∃ u ∈ stored, ix.KeepsOut (some sight) v u) ∧
    ix.Answers err (ix.config.reportPendingDuplicates = true ∧ ∀ u ∈ stored,
      ix.order.compareRows v.data u.data = .eq → sight.canRead u .read = false) := by
  obtain ⟨s, hs, rfl⟩ := h
  rcases hs.sorts.insert (some sight) hroom hv.suits with
    ⟨root, err', hroot, hplace, hfail'⟩ | ⟨t'', -, -, hok, -⟩
  · cases hfail.symm.trans hfail'
    obtain ⟨e, he, hconflict, hkey, -⟩ := hs.sorts.refused_at hroot hplace
    exact ⟨(hs.sorts.kept_out_of_refused hv.suits hroot hplace).2,
      hs.sorts.conflict_answers hv.suits he hkey hconflict⟩
  · cases hok.symm.trans hfail

end Index

/-- Of the indexes of the table `ix` is the first one whose tree refuses the row as a new version of the
transaction, and `err` is what it says. -/
def Table.Workspace.Refuses (w : Table.Workspace) (txn : Transaction) (row : Row) (ix : Index)
    (err : Error) : Prop :=
  let see := some (txn.visibility w.manager w.headers)
  let v := TableAction.issue txn row w
  ∃ (before after : List (Index × Tree)) (t : Tree),
    w.table.indexes.zip w.table.store.trees = before ++ (ix, t) :: after ∧
    (∀ other ∈ before, ∃ t', other.1.insert see v other.2 = .ok () t') ∧
    ix.insert see v t = .error err t

theorem Table.Workspace.Refuses.exists_tree {w : Table.Workspace} {txn : Transaction} {row : Row}
    {ix : Index} {err : Error} (h : w.Refuses txn row ix err) :
    ∃ t, (ix, t) ∈ w.table.indexes.zip w.table.store.trees ∧
      ix.insert (some (txn.visibility w.manager w.headers)) (TableAction.issue txn row w) t =
        .error err t := by
  obtain ⟨before, after, t, hzip, -, hrefused⟩ := h
  exact ⟨t, hzip ▸ by simp, hrefused⟩

theorem Table.Workspace.Refuses.mem {w : Table.Workspace} {txn : Transaction} {row : Row} {ix : Index}
    {err : Error} (h : w.Refuses txn row ix err) : ix ∈ w.table.indexes := by
  obtain ⟨t, hmem, -⟩ := h.exists_tree
  exact (List.of_mem_zip hmem).1

def Table.HasKey (tb : Table) (ix : Index) (row : Row) (u : Version) : Prop :=
  tb.Stores u ∧ ix.order.compareRows row u.data = .eq

namespace TableAction

open Table

variable {w w' : Workspace} {txn : Transaction} {row : Row} {v : Version} {err : Error}

theorem withdraw_ends (v : Version) (indexes : List Index) (w : Workspace) :
    ∃ w', withdraw v indexes w = .ok () w' := by
  induction indexes generalizing w with
  | nil => exact ⟨w, rfl⟩
  | cons ix rest ih =>
    simp only [withdraw]
    cases hrun : discard (onStore (Store.onTree ix (TreeAction.removeRow v.id))) w with
    | ok _ w' =>
      rw [Action.bind_of_ok (Action.try_of_ok hrun)]
      exact ih w'
    | error e w' =>
      rw [Action.bind_of_ok ((Action.try_of_error hrun).trans rfl)]
      exact ih w'

/-- Where an insert into indexes fails, one of them has refused the version after those before it had
taken it, and that is the error. -/
theorem insert_into_refused {P : Nat → Index → Tree → Prop} {done rest : List Index}
    {p q : List Tree} (hrest : Stand P p.length rest q) (hw : w.table.store.trees = p ++ q)
    (hinsert : ∀ {k : Nat} {ix : Index} {t : Tree}, P k ix t →
      (∃ err, ix.insert (some (txn.visibility w.manager w.headers)) v t = .error err t) ∨
      ∃ t', ix.insert (some (txn.visibility w.manager w.headers)) v t = .ok () t')
    (hfail : insertInto txn v done rest w = .error err w') :
    ∃ (before after : List (Index × Tree)) (ix : Index) (t : Tree),
      rest.zip q = before ++ (ix, t) :: after ∧
      (∀ other ∈ before, ∃ t',
        other.1.insert (some (txn.visibility w.manager w.headers)) v other.2 = .ok () t') ∧
      ix.insert (some (txn.visibility w.manager w.headers)) v t = .error err t := by
  generalize hk : p.length = k at hrest
  -- By induction on the indexes that are left; the trees that have been changed move over to `p`.
  induction hrest generalizing done p w with
  | nil => cases hfail
  | @cons k ix ixs t ts hpos hP hrest ih =>
    have hsee : visibility txn w = .ok (txn.visibility w.manager w.headers) w := rfl
    simp only [insertInto] at hfail
    rw [Action.bind_of_ok hsee] at hfail
    rcases hinsert hP with ⟨e, hrefused⟩ | ⟨t', hok⟩
    · have hrun := on_tree_of_error hw (hpos.trans hk.symm) hrefused
      obtain ⟨back, hback⟩ := withdraw_ends v done w
      rw [Action.bind_of_error ((Action.try_of_error hrun).trans
        ((Action.bind_of_ok hback).trans rfl))] at hfail
      cases hfail
      exact ⟨[], ixs.zip ts, ix, t, rfl, fun _ hother => absurd hother List.not_mem_nil, hrefused⟩
    · have hrun := on_tree_of_ok hw (hpos.trans hk.symm) hok
      rw [Action.bind_of_ok (Action.try_of_ok hrun)] at hfail
      obtain ⟨before, after, ix', t'', hzip, hbefore, hrefused⟩ :=
        ih (w := w.withTrees (p ++ t' :: ts)) (List.append_cons _ _ _) hinsert hfail
          (by rw [List.length_append, hk]; rfl)
      refine ⟨(ix, t) :: before, after, ix', t'', ?_, ?_, hrefused⟩
      · rw [List.zip_cons_cons, hzip, List.cons_append]
      · exact List.forall_mem_cons.mpr ⟨⟨t', hok⟩, hbefore⟩

/-- The header that an insert uses up changes nothing of what is seen. -/
theorem visibility_issued (txn : Transaction) (row : Row) (w : Workspace) :
    txn.visibility (issued txn row w).manager (issued txn row w).headers =
      txn.visibility w.manager w.headers := by
  have hread (u : Version) (mode : ReadMode) :
      txn.canRead (issued txn row w).manager (issued txn row w).headers u mode =
        txn.canRead w.manager w.headers u mode := by
    simp only [Transaction.canRead, deleter_issued]
    rfl
  simp only [Transaction.visibility, Visibility.mk.injEq, and_true]
  exact funext fun u => funext fun mode => hread u mode

variable {stored : Multiset Version}

/-- An insert that finds a duplicate is one of a running transaction and of a row that the table accepts,
and some index has refused it. -/
theorem insert_refused (h : w.table.Holds stored) (hroom : w.table.HasRoom)
    (hfail : insert txn row w = .error err w') (hduplicate : err.isDuplicate = true) :
    w.manager.isActive txn.xid = true ∧ w.table.validate row = .ok () ∧
      ∃ ix, w.Refuses txn row ix err := by
  rcases insert_cases txn row w with ⟨err', hfail', hother⟩ | ⟨hactive, hvalid, -, hrun⟩
  · cases hfail.symm.trans hfail'
    rw [hduplicate] at hother
    cases hother
  · refine ⟨hactive, hvalid, ?_⟩
    have hfresh : ∀ u ∈ stored, u.id ≠ (issue txn row w).id := h.fresh rfl
    have hready : Stand (fun _ ix t => ix.Contains t stored ∧ t.HasRoom ∧
        ix.order.Accepts (issue txn row w).data) 0 w.table.indexes w.table.store.trees :=
      h.in_step.imp fun hix ht hcontains => ⟨hcontains, hroom.trees _ ht, h.accepts hix hvalid⟩
    rw [hrun] at hfail
    cases hinto : insertInto txn (issue txn row w) [] w.table.indexes (issued txn row w) with
    | ok _ _ =>
      rw [Action.bind_of_ok hinto] at hfail
      cases hfail
    | error e w'' =>
      rw [Action.bind_of_error hinto] at hfail
      cases hfail
      obtain ⟨before, after, ix, t, hzip, hbefore, hrefused⟩ :=
        insert_into_refused (w := issued txn row w) (p := []) hready rfl
          (fun ⟨hcontains, hspace, hv⟩ =>
            (hcontains.insert _ hspace hv hfresh).imp_right fun ⟨t', hok, _⟩ => ⟨t', hok⟩)
          hinto
      rw [visibility_issued] at hbefore hrefused
      exact ⟨ix, before, after, t, hzip, hbefore, hrefused⟩

end TableAction

namespace History

variable {h : History} {txn : Transaction} {v : Version}

def CommittedSince (h : History) (txn : Transaction) (x : Xid) : Prop :=
  .committed x ∈ h ∧ .committed x ∉ h.past txn

theorem sees_iff_counts {x : Xid} (hsettled : ¬h.CommittedSince txn x) :
    h.Sees txn x ↔ h.Counts txn.xid x := by
  refine or_congr_right ⟨mem_of_mem_past, fun hcommitted => ?_⟩
  by_contra hlate
  exact hsettled ⟨hcommitted, hlate⟩

/-- A version is read if and only if it can be referred to, unless somebody who has created it or who has
deleted it has committed since. -/
theorem reads_iff_refers (hcreated : h.Refers txn.xid v → ¬h.CommittedSince txn v.creator)
    (hdeleted : h.Reads txn v → ∀ x, .deleted v x ∈ h → ¬h.CommittedSince txn x) :
    h.Reads txn v ↔ h.Refers txn.xid v := by
  constructor
  · intro hread
    refine ⟨hread.1.imp_right mem_of_mem_past, fun x hx hcounts => ?_⟩
    have hsettled := hdeleted hread x (mem_deleters.mp hx)
    exact hread.2 x hx ((sees_iff_counts hsettled).mpr hcounts)
  · intro hrefers
    refine ⟨(sees_iff_counts (hcreated hrefers)).mpr hrefers.1, fun x hx hsees => ?_⟩
    exact hrefers.2 x hx (hsees.imp_right mem_of_mem_past)

end History

namespace Ledger

variable {s : Ledger} {v : Version} {txn : Transaction}

/-- A running transaction can refer to the versions that occupy their keys and that it has created
itself or that have been committed. -/
theorem Sound.refers_iff_occupies (h : s.Sound) (hactive : s.manager.isActive txn.xid = true)
    (hv : v ∈ s.stored) :
    s.history.Refers txn.xid v ↔
      txn.canRead s.manager s.headers v .duplicate = true ∧ s.history.Counts txn.xid v.creator := by
  have hrunning := (h.manager.active txn.xid).mp hactive
  have hcreated : (v.creator == txn.xid || s.manager.isCommitted v.creator) = true ↔
      s.history.Counts txn.xid v.creator := by
    rw [Bool.or_eq_true, beq_iff_eq, h.is_committed_iff hv (Or.inl rfl), History.Counts]
  -- Who counts has not aborted, and deletions count alike in both modes.
  have hended (hcounts : s.history.Counts txn.xid v.creator) :
      (!s.manager.isAborted v.creator) = true := by
    rw [Bool.not_eq_true', Bool.eq_false_iff]
    intro hmarked
    have haborted := h.manager.aborted v.creator hmarked
    rcases hcounts with hown | hcommitted
    · exact hrunning.2.2 (hown ▸ haborted)
    · exact h.legal.not_aborted_of_committed hcommitted haborted
  rw [← h.can_refer_iff hactive hv, Transaction.canRead, Transaction.canRead, Bool.and_eq_true,
    Bool.and_eq_true, hcreated]
  constructor
  · rintro ⟨hcounts, hstands⟩
    exact ⟨⟨hended hcounts, hstands⟩, hcounts⟩
  · rintro ⟨⟨-, hstands⟩, hcounts⟩
    exact ⟨hcounts, hstands⟩

end Ledger

namespace Run

variable {r : Run} {txn : Transaction} {row : Row} {ix : Index}

def Unread (r : Run) (txn : Transaction) (ix : Index) (row : Row) : Prop :=
  ∀ u, r.work.table.HasKey ix row u → ¬r.history.Reads txn u

/-- All versions that keep the transaction from the key are by other ones that have not committed. -/
def Pending (r : Run) (txn : Transaction) (ix : Index) (row : Row) : Prop :=
  ∀ u, r.work.table.HasKey ix row u →
    txn.canRead r.work.manager r.work.headers u .duplicate = true →
    u.creator ≠ txn.xid ∧ .committed u.creator ∉ r.history

/-- Since the transaction has begun nobody has committed who has created a version that keeps it from the
key, or who has deleted a version with the key that it reads. -/
def Settled (r : Run) (txn : Transaction) (ix : Index) (row : Row) : Prop :=
  ∀ u, r.work.table.HasKey ix row u →
    (txn.canRead r.work.manager r.work.headers u .duplicate = true →
      ¬r.history.CommittedSince txn u.creator) ∧
    (r.history.Reads txn u → ∀ x, .deleted u x ∈ r.history → ¬r.history.CommittedSince txn x)

theorem unread_iff_pending {stored : Multiset Version} (h : r.work.table.Holds stored)
    (hsound : (r.ledger stored).Sound) (hactive : r.work.manager.isActive txn.xid = true)
    (hsettled : r.Settled txn ix row) : r.Unread txn ix row ↔ r.Pending txn ix row := by
  refine forall₂_congr fun u hu => ?_
  obtain ⟨hcreated, hdeleted⟩ := hsettled u hu
  have hoccupies : r.history.Refers txn.xid u ↔
      txn.canRead r.work.manager r.work.headers u .duplicate = true ∧
        r.history.Counts txn.xid u.creator :=
    hsound.refers_iff_occupies hactive (h.stores_iff.mp hu.1)
  have hreads : r.history.Reads txn u ↔ r.history.Refers txn.xid u :=
    History.reads_iff_refers (fun hrefers => hcreated (hoccupies.mp hrefers).1) hdeleted
  rw [hreads, hoccupies, not_and]
  exact imp_congr_right fun _ => not_or

/-- While the ids of transactions last, an insert that finds a duplicate has been refused by a unique
index, in which some version keeps the transaction from the key, and the error tells of a pending
duplicate if and only if the index is to report these and the transaction reads no version with the
key. Where what matters of these versions has been settled before the transaction began, or has not been
settled yet, that is to say that all those which keep it from the key are by other transactions that have
not committed. -/
theorem Reaches.pending_iff_unread (h : Reaches r) (hfew : r.history.begun.length < 2 ^ 32 - 1)
    (hallows : r.Allows (.insert txn row)) {err : Error}
    (hfail : ((TableAction.insert txn row).outcome r.work).1 = .error err)
    (hduplicate : err.isDuplicate = true) :
    ∃ ix, r.work.Refuses txn row ix err ∧ ix.unique = true ∧ ix.order.hasNull row = false ∧
      (∃ u, r.work.table.HasKey ix row u ∧
        txn.canRead r.work.manager r.work.headers u .duplicate = true) ∧
      ix.Answers err (ix.config.reportPendingDuplicates = true ∧ r.Unread txn ix row) ∧
      (r.Settled txn ix row →
        ix.Answers err (ix.config.reportPendingDuplicates = true ∧ r.Pending txn ix row)) := by
  obtain ⟨stored, hholds, -, hsound⟩ := h.sound hfew
  obtain ⟨hbegan, hroom⟩ := hallows
  obtain ⟨hactive, hvalid, ix, hrefuses⟩ :=
    TableAction.insert_refused hholds hroom (Action.error_of_outcome hfail) hduplicate
  obtain ⟨t, hmem, hrefused⟩ := hrefuses.exists_tree
  obtain ⟨hix, ht⟩ := List.of_mem_zip hmem
  obtain ⟨-, hcontains⟩ := hholds.in_step.of_mem_zip hmem
  obtain ⟨⟨u, hu, hkey, hout⟩, hanswers⟩ :=
    hcontains.refusal_answers (hroom.trees t ht) (hholds.accepts hix hvalid) hrefused
  have hfresh : u.id ≠ (TableAction.issue txn row r.work).id := hholds.fresh rfl u hu
  obtain ⟨hunique, hnull, hoccupies⟩ := hout.resolve_left hfresh
  have hread : ix.Answers err (ix.config.reportPendingDuplicates = true ∧ r.Unread txn ix row) := by
    refine hanswers.congr (and_congr_right fun _ => ?_)
    simp only [Unread, Table.HasKey, hholds.stores_iff, and_imp]
    refine forall₃_congr fun u hu _ => ?_
    rw [← Bool.not_eq_true]
    exact not_congr (hsound.can_read_iff hbegan hactive hu)
  refine ⟨ix, hrefuses, hunique, hnull, ⟨u, ⟨hholds.stores_iff.mpr hu, hkey⟩, ?_⟩, hread, ?_⟩
  · exact hoccupies _ rfl rfl
  · intro hsettled
    exact hread.congr (and_congr_right fun _ => unread_iff_pending hholds hsound hactive hsettled)

def reportingIndex : Call :=
  .addIndex { IndexDefinition.plain "keys" 1 [0] [.bigint] with unique := true }
    { reportPendingDuplicates := true }

def rivals : Run := sampleStart.after [reportingIndex, .begin, .begin, .insert ⟨1, []⟩ [.bigint 5]]

theorem rivals_reaches : Reaches rivals := sample_start_reaches.after (by decide +kernel)

/-- The other one is told that the key is pending, and nobody has committed. -/
theorem rivals_pending :
    let txn : Transaction := ⟨2, [1]⟩
    ((TableAction.insert txn [.bigint 5]).outcome rivals.work).1 =
      .error (.pendingDuplicate "keys") ∧
    ∃ ix, rivals.work.Refuses txn [.bigint 5] ix (.pendingDuplicate "keys") ∧
      (∃ u, rivals.work.table.HasKey ix [.bigint 5] u ∧
        txn.canRead rivals.work.manager rivals.work.headers u .duplicate = true) ∧
      rivals.Unread txn ix [.bigint 5] ∧ rivals.Pending txn ix [.bigint 5] := by
  intro txn
  have hfail : ((TableAction.insert txn [.bigint 5]).outcome rivals.work).1 =
      .error (.pendingDuplicate "keys") := by
    decide +kernel
  obtain ⟨ix, hrefuses, -, -, hoccupied, hread, hsettles⟩ :=
    rivals_reaches.pending_iff_unread (by decide +kernel) (by decide +kernel) hfail rfl
  have hname : ix.name = "keys" := by
    have hall : ∀ ix ∈ rivals.work.table.indexes, ix.name = "keys" := by decide +kernel
    exact hall ix hrefuses.mem
  have hsettled : rivals.Settled txn ix [.bigint 5] := by
    have hnobody : ∀ e ∈ rivals.history, ∀ x, e ≠ .committed x := by
      have hall : rivals.history =
          [.created ⟨0, 1, [.bigint 5], 1⟩, .began ⟨2, [1]⟩, .began ⟨1, []⟩] := by decide +kernel
      simp [hall]
    have hnever (x : Xid) : ¬rivals.history.CommittedSince txn x :=
      fun hsince => hnobody _ hsince.1 x rfl
    exact fun u _ => ⟨fun _ => hnever u.creator, fun _ x _ => hnever x⟩
  rw [← hname] at hread hsettles
  exact ⟨hfail, ix, hrefuses, hoccupied, (hread.1.mp rfl).2, ((hsettles hsettled).1.mp rfl).2⟩

def overtaken : Run := rivals.step (.commit ⟨1, []⟩)

/-- A version is deleted while a transaction runs that reads it, and another one inserts its key
again. -/
def outlived : Run := sampleStart.after [
  reportingIndex,
  .begin,
  .insert ⟨1, []⟩ [.bigint 5],
  .commit ⟨1, []⟩,
  .begin,
  .begin,
  .delete ⟨3, [2]⟩ ⟨0, 1, [.bigint 5], 1⟩,
  .commit ⟨3, [2]⟩,
  .begin,
  .insert ⟨4, [2]⟩ [.bigint 5]]

/-- In a run an insert that finds a duplicate has been refused by one of the indexes. -/
theorem Reaches.exists_refuses (h : Reaches r) (hfew : r.history.begun.length < 2 ^ 32 - 1)
    (hallows : r.Allows (.insert txn row)) {err : Error}
    (hfail : ((TableAction.insert txn row).outcome r.work).1 = .error err)
    (hduplicate : err.isDuplicate = true) :
    ∃ ix ∈ r.work.table.indexes, r.work.Refuses txn row ix err := by
  obtain ⟨stored, hholds, -, -⟩ := h.sound hfew
  obtain ⟨-, -, ix, hrefuses⟩ :=
    TableAction.insert_refused hholds hallows.2 (Action.error_of_outcome hfail) hduplicate
  exact ⟨ix, hrefuses.mem, hrefuses⟩

/-- Whoever keeps the other from the key has committed since, and still the key is called pending. And
it is not called pending although whoever keeps the old reader from the key has not committed, as that
reader reads the version that is gone. -/
theorem pending_misjudged :
    (Reaches overtaken ∧ overtaken.work.manager.isActive 2 = true ∧
      ∃ ix, overtaken.work.Refuses ⟨2, [1]⟩ [.bigint 5] ix (.pendingDuplicate "keys") ∧
        ix.unique = true ∧ ix.config.reportPendingDuplicates = true ∧
        ¬overtaken.Pending ⟨2, [1]⟩ ix [.bigint 5]) ∧
    Reaches outlived ∧ outlived.work.manager.isActive 2 = true ∧
      ∃ ix, outlived.work.Refuses ⟨2, []⟩ [.bigint 5] ix (.duplicateKey "keys" none) ∧
        ix.unique = true ∧ ix.config.reportPendingDuplicates = true ∧
        outlived.Pending ⟨2, []⟩ ix [.bigint 5] := by
  constructor
  · have hreaches : Reaches overtaken := rivals_reaches.step _ (by decide +kernel)
    have hfail : ((TableAction.insert ⟨2, [1]⟩ [.bigint 5]).outcome overtaken.work).1 =
        .error (.pendingDuplicate "keys") := by
      decide +kernel
    obtain ⟨ix, hix, hrefuses⟩ :=
      hreaches.exists_refuses (by decide +kernel) (by decide +kernel) hfail rfl
    let u : Version := ⟨0, 1, [.bigint 5], 1⟩
    have hall : ∀ ix ∈ overtaken.work.table.indexes, ix.unique = true ∧
        ix.config.reportPendingDuplicates = true ∧
        ix.order.compareRows [.bigint 5] u.data = .eq := by
      decide +kernel
    obtain ⟨hunique, hreport, hkey⟩ := hall ix hix
    refine ⟨hreaches, by decide +kernel, ix, hrefuses, hunique, hreport, fun hpending => ?_⟩
    have hstored : overtaken.work.table.Stores u := by decide +kernel
    have hcommitted : .committed 1 ∈ overtaken.history := by decide +kernel
    exact (hpending u ⟨hstored, hkey⟩ (by decide +kernel)).2 hcommitted
  · have hreaches : Reaches outlived := sample_start_reaches.after (by decide +kernel)
    have hfail : ((TableAction.insert ⟨2, []⟩ [.bigint 5]).outcome outlived.work).1 =
        .error (.duplicateKey "keys" none) := by
      decide +kernel
    obtain ⟨ix, hix, hrefuses⟩ :=
      hreaches.exists_refuses (by decide +kernel) (by decide +kernel) hfail rfl
    have hall : ∀ ix ∈ outlived.work.table.indexes, ix.unique = true ∧
        ix.config.reportPendingDuplicates = true := by
      decide +kernel
    obtain ⟨hunique, hreport⟩ := hall ix hix
    refine ⟨hreaches, by decide +kernel, ix, hrefuses, hunique, hreport, ?_⟩
    have hothers : ∀ t ∈ outlived.work.table.store.trees, ∀ u ∈ t.versions,
        Transaction.canRead ⟨2, []⟩ outlived.work.manager outlived.work.headers u .duplicate = true →
        u.creator ≠ 2 ∧ .committed u.creator ∉ outlived.history := by
      decide +kernel
    rintro u ⟨⟨t, ht, hu⟩, -⟩ hoccupies
    exact hothers t ht u hu hoccupies

end Run

end VersionedIndex
