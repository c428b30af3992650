import VersionedIndex.Table.Vacuum

namespace VersionedIndex

namespace Headers

variable {h h' : Headers} {u v : Version} {x y : Xid} {aborted : Xid → Bool}

theorem deleter_create (h : Headers) (id : RowId) (data : Row) (creator : Xid) (u : Version) :
    (h.create id data creator).2.deleter? u = h.deleter? u := by
  simp only [create, deleter?, Array.getElem?_push]
  split
  · next hsize => rw [hsize, Array.getElem?_eq_none (Nat.le_refl _)]; rfl
  · rfl

theorem size_create (h : Headers) (id : RowId) (data : Row) (creator : Xid) :
    (h.create id data creator).2.deleters.size = h.deleters.size + 1 := Array.size_push ..

theorem size_stamp (h : Headers) (v : Version) (deleter : Option Xid) :
    (h.stamp v deleter).deleters.size = h.deleters.size := Array.size_setIfInBounds ..

theorem header_lt_of_deleter (hv : h.deleter? v = some x) : v.header < h.deleters.size := by
  apply Nat.lt_of_not_le
  intro hout
  rw [deleter?, Array.getElem?_eq_none hout] at hv
  cases hv

theorem deleter_stamp (hv : v.header < h.deleters.size) (deleter : Option Xid) :
    (h.stamp v deleter).deleter? u = if u.header = v.header then deleter else h.deleter? u := by
  simp only [stamp, deleter?, Array.getElem?_setIfInBounds]
  by_cases hu : u.header = v.header
  · rw [if_pos hu.symm, if_pos hv, if_pos hu]
    rfl
  · rw [if_neg (Ne.symm hu), if_neg hu]

theorem deleter_stamp_of_ne (hu : u.header ≠ v.header) (deleter : Option Xid) :
    (h.stamp v deleter).deleter? u = h.deleter? u := by
  rw [stamp, deleter?, Array.getElem?_setIfInBounds_ne hu.symm, deleter?]

/-- A stamp goes where there is none, where it stands already, or over one that may be replaced. -/
theorem mark_deleted_cases (hmark : h.markDeleted v x aborted = .ok h') :
    h' = h.stamp v (if x = Xid.invalid then none else some x) ∧
      ∀ y, h.deleter? v = some y → y = x ∨ aborted y = true := by
  simp only [markDeleted] at hmark
  cases hdeleter : h.deleter? v with
  | none =>
    rw [hdeleter] at hmark
    exact ⟨(Except.ok.inj hmark).symm, nofun⟩
  | some holder =>
    rw [hdeleter] at hmark
    simp only at hmark
    split at hmark
    · next hfree =>
      refine ⟨(Except.ok.inj hmark).symm, ?_⟩
      rintro y hy
      rw [← Option.some.inj hy]
      exact hfree
    · cases hmark

def Loosened (aborted : Xid → Bool) (h h' : Headers) : Prop :=
  ∀ u, h'.deleter? u = h.deleter? u ∨
    h'.deleter? u = none ∧ ∀ x, h.deleter? u = some x → aborted x = true

namespace Loosened

theorem refl (aborted : Xid → Bool) (h : Headers) : Loosened aborted h h := fun _ => Or.inl rfl

theorem of_deleter_eq (heq : ∀ u, h'.deleter? u = h.deleter? u) : Loosened aborted h h' :=
  fun u => Or.inl (heq u)

theorem trans {h'' : Headers} (hab : Loosened aborted h h') (hbc : Loosened aborted h' h'') :
    Loosened aborted h h'' := by
  intro u
  rcases hbc u with heq | ⟨hnone, haborted⟩
  · rw [heq]
    exact hab u
  · rcases hab u with heq | ⟨hnone', haborted'⟩
    · exact Or.inr ⟨hnone, heq ▸ haborted⟩
    · exact Or.inr ⟨hnone, haborted'⟩

theorem mono {aborted' : Xid → Bool} (hab : Loosened aborted h h')
    (hmore : ∀ x, aborted x = true → aborted' x = true) : Loosened aborted' h h' := by
  intro u
  rcases hab u with heq | ⟨hnone, haborted⟩
  · exact Or.inl heq
  · exact Or.inr ⟨hnone, fun x hx => hmore x (haborted x hx)⟩

theorem deleter_of_some (hab : Loosened aborted h h') (hu : h'.deleter? u = some x) :
    h.deleter? u = some x := by
  rcases hab u with heq | ⟨hnone, -⟩
  · rw [← heq, hu]
  · rw [hnone] at hu
    cases hu

theorem deleter_of_not_aborted (hab : Loosened aborted h h') (hu : h.deleter? u = some x)
    (hx : aborted x = false) : h'.deleter? u = some x := by
  rcases hab u with heq | ⟨-, haborted⟩
  · rw [heq, hu]
  · rw [haborted x hu] at hx
    cases hx

end Loosened

theorem clear_deleted_loosens (haborted : ∀ y, h.deleter? v = some y → aborted y = true) :
    Loosened aborted h (h.clearDeleted v x) := by
  intro u
  simp only [clearDeleted]
  split
  · next hx =>
    rw [deleter_stamp (header_lt_of_deleter hx)]
    split
    · next hu =>
      have hsame : h.deleter? u = h.deleter? v := by rw [deleter?, hu, deleter?]
      exact Or.inr ⟨rfl, hsame ▸ haborted⟩
    · exact Or.inl rfl
  · exact Or.inl rfl

theorem deleter_clear_deleted_of_ne (hu : u.header ≠ v.header) :
    (h.clearDeleted v x).deleter? u = h.deleter? u := by
  rw [clearDeleted]
  split
  · exact deleter_stamp_of_ne hu none
  · rfl

theorem size_clear_deleted (h : Headers) (v : Version) (x : Xid) :
    (h.clearDeleted v x).deleters.size = h.deleters.size := by
  simp only [clearDeleted]
  split
  · exact size_stamp h v none
  · rfl

theorem deleter_clear_deleted (h : Headers) (v : Version) (x : Xid) :
    (h.clearDeleted v x).deleter? v ≠ some x := by
  simp only [clearDeleted]
  split
  · next hx =>
    rw [deleter_stamp (header_lt_of_deleter hx), if_pos rfl]
    exact nofun
  · next hx => exact hx

def Unmarked (h : Headers) : Prop := ∀ v, h.deleter? v ≠ some Xid.invalid

theorem Unmarked.of_loosened (hh : h.Unmarked) (hloose : Loosened aborted h h') : h'.Unmarked :=
  fun u hu => hh u (hloose.deleter_of_some hu)

theorem deleter_of_mark (hmark : h.markDeleted v x aborted = .ok h') (hu : h'.deleter? u = some y) :
    u.header ≠ v.header ∧ h.deleter? u = some y ∨
      u.header = v.header ∧ y = x ∧ x ≠ Xid.invalid := by
  obtain ⟨rfl, -⟩ := mark_deleted_cases hmark
  by_cases hsame : u.header = v.header
  · have hv : v.header < h.deleters.size := by
      rw [← hsame, ← size_stamp h v]
      exact header_lt_of_deleter hu
    rw [deleter_stamp hv, if_pos hsame] at hu
    split at hu
    · cases hu
    · next hx => exact Or.inr ⟨hsame, (Option.some.inj hu).symm, hx⟩
  · rw [deleter_stamp_of_ne hsame] at hu
    exact Or.inl ⟨hsame, hu⟩

theorem Unmarked.of_mark (hh : h.Unmarked) (hmark : h.markDeleted v x aborted = .ok h') :
    h'.Unmarked := by
  intro u hu
  rcases deleter_of_mark hmark hu with ⟨-, hold⟩ | ⟨-, hx, hne⟩
  · exact hh u hold
  · exact hne hx.symm

/-- Stamping a version once more with the same transaction changes no deleter. -/
theorem deleter_of_mark_again (hmark : h.markDeleted v x aborted = .ok h')
    (hbefore : h.deleter? v = some x) (hx : x ≠ Xid.invalid) (u : Version) :
    h'.deleter? u = h.deleter? u := by
  obtain ⟨rfl, -⟩ := mark_deleted_cases hmark
  rw [deleter_stamp (header_lt_of_deleter hbefore), if_neg hx]
  split
  · next hu => rw [← hbefore, deleter?, deleter?, hu]
  · rfl

/-- Undoing a stamp that was not there before leaves the stamps as they were, but for one of an
aborted transaction that it had replaced. -/
theorem loosened_of_undone {h₁ : Headers} (hmark : h.markDeleted v x aborted = .ok h')
    (hrest : Loosened aborted h' h₁) (hbefore : h.deleter? v ≠ some x) :
    Loosened aborted h (h₁.clearDeleted v x) := by
  obtain ⟨hstamp, hreplaced⟩ := mark_deleted_cases hmark
  intro u
  -- The stamp belongs to the header, so all versions that share it have to be looked at together.
  by_cases hu : u.header = v.header
  · refine Or.inr ⟨Option.eq_none_iff_forall_ne_some.mpr fun y hy => ?_, fun z hz => ?_⟩
    · have hclear : Loosened (fun _ => true) h₁ (h₁.clearDeleted v x) :=
        clear_deleted_loosens fun _ _ => rfl
      have hstamped := hrest.deleter_of_some (hclear.deleter_of_some hy)
      rcases deleter_of_mark hmark hstamped with ⟨hne, -⟩ | ⟨-, rfl, -⟩
      · exact hne hu
      · rw [deleter?, hu, ← deleter?] at hy
        exact deleter_clear_deleted h₁ v y hy
    · rw [deleter?, hu, ← deleter?] at hz
      rcases hreplaced z hz with rfl | haborted
      · exact absurd hz hbefore
      · exact haborted
  · have hsame : h'.deleter? u = h.deleter? u := by rw [hstamp, deleter_stamp_of_ne hu]
    rw [deleter_clear_deleted_of_ne hu, ← hsame]
    exact hrest u

/-- A stamp that is taken off again, unless it was there before, leaves the others as they were. -/
theorem loosened_of_update {h₁ : Headers} (hh : h.Unmarked)
    (hmark : h.markDeleted v x aborted = .ok h') (hrest : Loosened aborted h' h₁) :
    Loosened aborted h (if h.deleter? v = some x then h₁ else h₁.clearDeleted v x) := by
  split
  · next hbefore =>
    have hagain := deleter_of_mark_again hmark hbefore fun hx => hh v (hx ▸ hbefore)
    exact (Loosened.of_deleter_eq hagain).trans hrest
  · next hbefore => exact loosened_of_undone hmark hrest hbefore

theorem size_of_update {h₁ : Headers} (hmark : h.markDeleted v x aborted = .ok h')
    (hle : h'.deleters.size ≤ h₁.deleters.size) :
    h.deleters.size ≤
      (if h.deleter? v = some x then h₁ else h₁.clearDeleted v x).deleters.size := by
  rw [(mark_deleted_cases hmark).1, size_stamp] at hle
  split
  · exact hle
  · rw [size_clear_deleted]
    exact hle

end Headers

namespace TableAction

variable {m : Manager} {h : Headers} {v : Version}

/-- Clearing the stamp of a version leaves none of an aborted transaction on it. -/
theorem clear_aborted_loosens (m : Manager) (h : Headers) (v : Version) :
    Headers.Loosened m.isAborted h (clearAborted m h v) ∧
      ∀ x, (clearAborted m h v).deleter? v = some x → m.isAborted x = false := by
  simp only [clearAborted]
  cases hdeleter : h.deleter? v with
  | none => exact ⟨.refl _ h, fun x hx => by rw [hdeleter] at hx; cases hx⟩
  | some y =>
    dsimp only
    cases hy : m.isAborted y with
    | false =>
      rw [if_neg Bool.false_ne_true]
      refine ⟨.refl _ h, fun x hx => ?_⟩
      rw [hdeleter] at hx
      exact Option.some.inj hx ▸ hy
    | true =>
      rw [if_pos rfl]
      have hloose : Headers.Loosened m.isAborted h (h.clearDeleted v y) := by
        apply Headers.clear_deleted_loosens
        intro z hz
        rw [hdeleter] at hz
        exact Option.some.inj hz ▸ hy
      refine ⟨hloose, fun x hx => ?_⟩
      have hback := hloose.deleter_of_some hx
      rw [hdeleter] at hback
      obtain rfl := Option.some.inj hback
      exact absurd hx (Headers.deleter_clear_deleted h v y)

theorem size_clear_aborted (m : Manager) (h : Headers) (v : Version) :
    (clearAborted m h v).deleters.size = h.deleters.size := by
  simp only [clearAborted]
  split
  · split
    · exact Headers.size_clear_deleted h v _
    · rfl
  · rfl

theorem deleter_clear_aborted_of_ne {u : Version} (hu : u.header ≠ v.header) :
    (clearAborted m h v).deleter? u = h.deleter? u := by
  simp only [clearAborted]
  split
  · split
    · exact Headers.deleter_clear_deleted_of_ne hu
    · rfl
  · rfl

/-- Only the headers of the versions at hand are touched. -/
theorem deleter_clear_all_of_ne {u : Version} {alive : List Version}
    (hu : ∀ v ∈ alive, u.header ≠ v.header) :
    (alive.foldl (clearAborted m) h).deleter? u = h.deleter? u := by
  induction alive generalizing h with
  | nil => rfl
  | cons v alive ih =>
    rw [List.forall_mem_cons] at hu
    exact (ih hu.2).trans (deleter_clear_aborted_of_ne hu.1)

theorem clear_all_loosens (m : Manager) (h : Headers) (alive : List Version) :
    Headers.Loosened m.isAborted h (alive.foldl (clearAborted m) h) ∧
      (alive.foldl (clearAborted m) h).deleters.size = h.deleters.size ∧
      ∀ v ∈ alive, ∀ x, (alive.foldl (clearAborted m) h).deleter? v = some x →
        m.isAborted x = false := by
  induction alive generalizing h with
  | nil => exact ⟨.refl _ h, rfl, by simp⟩
  | cons v alive ih =>
    obtain ⟨hfirst, hclean⟩ := clear_aborted_loosens m h v
    obtain ⟨hrest, hsize, hrestclean⟩ := ih (clearAborted m h v)
    refine ⟨hfirst.trans hrest, hsize.trans (size_clear_aborted m h v), ?_⟩
    refine List.forall_mem_cons.mpr ⟨fun x hx => ?_, hrestclean⟩
    exact hclean x (hrest.deleter_of_some hx)

end TableAction

end VersionedIndex
