import VersionedIndex.Json.Text

namespace VersionedIndex.Json

def Piece.Proper : Piece → Prop
  | .plain c => c ≠ '"' ∧ c ≠ '\\'
  | .short c => c ∈ shortEscapes.map (·.2)
  | .unit _ => True

namespace Written

def Proper (w : Written) : Prop := ∀ p ∈ w, p.Proper

theorem hexValue_digitChar : ∀ n < 16, hexValue? (Nat.digitChar n) = some n := by decide

/-- The four digits of a unit stand for that unit. -/
theorem unit_of_digits (u : UInt16) :
    unit? (Nat.digitChar (u.toNat >>> 12 % 16)) (Nat.digitChar (u.toNat >>> 8 % 16))
      (Nat.digitChar (u.toNat >>> 4 % 16)) (Nat.digitChar (u.toNat >>> 0 % 16)) = some u := by
  have hdigit (n : Nat) : hexValue? (Nat.digitChar (n % 16)) = some (n % 16) :=
    hexValue_digitChar _ (Nat.mod_lt _ (by decide))
  have hsum : (u.toNat >>> 12 % 16 * 16 + u.toNat >>> 8 % 16) * 256 +
      u.toNat >>> 4 % 16 * 16 + u.toNat >>> 0 % 16 = u.toNat := by
    have hlt := u.toNat_lt
    simp only [Nat.shiftRight_eq_div_pow]
    omega
  simp only [unit?, hdigit, Option.bind_eq_bind, Option.bind_some, hsum, UInt16.ofNat_toNat]
  rfl

/-- A piece in front is read by itself. -/
theorem scan_piece {p : Piece} (hp : p.Proper) (cs : List Char) :
    scan (renderPiece p ++ cs) = (scan cs).map fun r => (p :: r.1, r.2) := by
  cases p with
  | plain c =>
    obtain ⟨hquote, hbackslash⟩ := hp
    rw [renderPiece, List.singleton_append, scan]
    · cases scan cs <;> rfl
    all_goals simp [hquote, hbackslash]
  | short c =>
    have hletters : (shortEscapes.map (·.2)).all fun c => decide (shortLetter c ≠ 'u' ∧
        (shortEscapes.find? (·.1 == shortLetter c)).map (·.2) = some c) := by decide
    obtain ⟨hunit, hfind⟩ := of_decide_eq_true (List.all_eq_true.mp hletters c hp)
    obtain ⟨escape, hescape, rfl⟩ := Option.map_eq_some_iff.mp hfind
    rw [renderPiece, List.cons_append, List.singleton_append, scan]
    · rw [hescape]
      cases scan cs <;> rfl
    all_goals simp [hunit]
  | unit u =>
    change scan ('\\' :: 'u' :: Nat.digitChar (u.toNat >>> 12 % 16) ::
      Nat.digitChar (u.toNat >>> 8 % 16) :: Nat.digitChar (u.toNat >>> 4 % 16) ::
      Nat.digitChar (u.toNat >>> 0 % 16) :: cs) = _
    rw [scan, unit_of_digits]
    cases scan cs <;> rfl

/-- A string up to its closing quote is read as it was written. -/
theorem scan_render {w : Written} (hw : w.Proper) (rest : List Char) :
    scan (w.flatMap renderPiece ++ '"' :: rest) = some (w, rest) := by
  induction w with
  | nil => rfl
  | cons p w ih =>
    rw [Proper, List.forall_mem_cons] at hw
    rw [List.flatMap_cons, List.append_assoc, scan_piece hw.1, ih hw.2]
    rfl

/-- A character has a short escape, or is written as a unit for being a control character, or stands
for itself. -/
theorem ofChar_cases (c : Char) :
    (ofChar c = .short c ∧ c ∈ shortEscapes.map (·.2)) ∨
      (ofChar c = .unit (.ofNat c.toNat) ∧ c.toNat < 0x20) ∨
      ofChar c = .plain c ∧ ¬ c.toNat < 0x20 ∧ c ≠ '"' ∧ c ≠ '\\' := by
  rw [ofChar]
  split
  · next hshort =>
    obtain ⟨p, hp, hc⟩ := List.any_eq_true.mp hshort.2
    exact Or.inl ⟨rfl, List.mem_map.mpr ⟨p, hp, by simpa using hc⟩⟩
  · next hshort =>
    split
    · next hcontrol => exact Or.inr (Or.inl ⟨rfl, hcontrol⟩)
    · next hcontrol =>
      refine Or.inr (Or.inr ⟨rfl, hcontrol, ?_, ?_⟩) <;> rintro rfl <;> exact hshort (by decide)

theorem ofChar_proper (c : Char) : (ofChar c).Proper := by
  obtain ⟨h, hmem⟩ | ⟨h, -⟩ | ⟨h, -, hplain⟩ := ofChar_cases c <;> rw [h]
  · exact hmem
  · trivial
  · exact hplain

theorem ofText_proper (text : String) : (ofText text).Proper := by
  intro p hp
  obtain ⟨c, -, rfl⟩ := List.mem_map.mp hp
  exact ofChar_proper c

theorem chars_unit {u : UInt16} (hleading : isLeading u = false) (htrailing : isTrailing u = false)
    (w : Written) : chars? (.unit u :: w) = (chars? w).map (.ofNat u.toNat :: ·) := by
  cases w with
  | nil => simp [chars?, hleading, htrailing]
  | cons p w => cases p <;> simp [chars?, hleading, htrailing]

theorem control_unit {c : Char} (hc : c.toNat < 0x20) :
    isLeading (.ofNat c.toNat) = false ∧ isTrailing (.ofNat c.toNat) = false ∧
      Char.ofNat (UInt16.ofNat c.toNat).toNat = c := by
  have hunits : ∀ n < 0x20, isLeading (.ofNat n) = false ∧ isTrailing (.ofNat n) = false ∧
      (UInt16.ofNat n).toNat = n := by decide
  obtain ⟨hleading, htrailing, hvalue⟩ := hunits c.toNat hc
  exact ⟨hleading, htrailing, by rw [hvalue, Char.ofNat_toNat]⟩

/-- The way in which a character is written stands for that character, whatever follows. -/
theorem chars_ofChar (c : Char) (w : Written) :
    chars? (ofChar c :: w) = (chars? w).map (c :: ·) := by
  obtain ⟨h, -⟩ | ⟨h, hcontrol⟩ | ⟨h, hcontrol, -⟩ := ofChar_cases c <;> rw [h]
  · rfl
  · obtain ⟨hleading, htrailing, hvalue⟩ := control_unit hcontrol
    rw [chars_unit hleading htrailing, hvalue]
  · rw [chars?, if_neg hcontrol]
    rfl

/-- What is written for a text stands for that text. -/
@[simp] theorem text_ofText (text : String) : (ofText text).text? = some text := by
  have hchars (cs : List Char) : chars? (cs.map ofChar) = some cs := by
    induction cs with
    | nil => rfl
    | cons c cs ih => rw [List.map_cons, chars_ofChar, ih, Option.map_some]
  rw [text?, ofText, hchars, Option.map_some, String.ofList_toList]

end Written

end VersionedIndex.Json
