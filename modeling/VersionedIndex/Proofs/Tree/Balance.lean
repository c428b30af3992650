import VersionedIndex.Proofs.Tree.Links
import VersionedIndex.Tree.Attach

/-! How the way up after a change restores the balance. Each step ends at a balanced tree or hands
the same situation to the node above. -/

namespace VersionedIndex

def Leans (b : Int8) (near far : Nat) : Prop :=
  (b = 0 ∧ near = far) ∨ (b = 1 ∧ far = near + 1) ∨ (b = -1 ∧ near = far + 1)

namespace Side

theorem mul_sign_eq_one {side : Side} {b : Int8} : b * side.sign = 1 ↔ b = side.sign := by
  cases side <;> simp only [sign] <;> grind

theorem mul_sign_eq_neg_one {side : Side} {b : Int8} : b * side.sign = -1 ↔ b = -side.sign := by
  cases side <;> simp only [sign] <;> grind

theorem mul_sign_eq_zero {side : Side} {b : Int8} : b * side.sign = 0 ↔ b = 0 := by
  cases side <;> simp only [sign] <;> grind

theorem sign_flip (side : Side) : side.flip.sign = -side.sign := by cases side <;> rfl

theorem sign_ne_neg (side : Side) : side.sign ≠ -side.sign := by cases side <;> decide

theorem sign_ne_zero (side : Side) : side.sign ≠ 0 := by cases side <;> decide

end Side

theorem Leans.flip (side : Side) {b : Int8} {m n : Nat} (h : Leans (b * side.flip.sign) m n) :
    Leans (b * side.sign) n m := by
  rcases h with ⟨hb, h⟩ | ⟨hb, h⟩ | ⟨hb, h⟩
  · exact Or.inl ⟨Side.mul_sign_eq_zero.mpr (Side.mul_sign_eq_zero.mp hb), h.symm⟩
  · refine Or.inr (Or.inr ⟨?_, h⟩)
    rw [Side.mul_sign_eq_one, Side.sign_flip] at hb
    exact Side.mul_sign_eq_neg_one.mpr hb
  · refine Or.inr (Or.inl ⟨?_, h⟩)
    rw [Side.mul_sign_eq_neg_one, Side.sign_flip, Int8.neg_neg] at hb
    exact Side.mul_sign_eq_one.mpr hb

theorem leans_zero (side : Side) (n : Nat) : Leans (0 * side.sign) n n :=
  Or.inl ⟨Side.mul_sign_eq_zero.mpr rfl, rfl⟩

theorem leans_sign (side : Side) (n : Nat) : Leans (side.sign * side.sign) n (n + 1) :=
  Or.inr (Or.inl ⟨Side.mul_sign_eq_one.mpr rfl, rfl⟩)

theorem leans_neg_sign (side : Side) (n : Nat) : Leans (-side.sign * side.sign) (n + 1) n :=
  Or.inr (Or.inr ⟨Side.mul_sign_eq_neg_one.mpr rfl, rfl⟩)

namespace Shape

def Balanced : Shape → Prop
  | leaf => True
  | node l _ b r => Leans b l.height r.height ∧ l.Balanced ∧ r.Balanced

/-- A tree as it is after growing: it is not even, unless it is a single node. -/
def Tilted : Shape → Prop
  | leaf => False
  | node l _ b r => b ≠ 0 ∨ (l = leaf ∧ r = leaf)

theorem balanced_join {side : Side} {near far : Shape} {e : Item} {b : Int8} :
    (join side near e b far).Balanced ↔
      Leans (b * side.sign) near.height far.height ∧ near.Balanced ∧ far.Balanced := by
  cases side with
  | left => simp only [join, Balanced, Side.sign, Int8.mul_one]
  | right =>
    have hright : Leans (b * Side.right.sign) near.height far.height ↔
        Leans b far.height near.height := by
      constructor
      · intro h
        simpa only [Side.sign, Int8.mul_one] using Leans.flip .left h
      · intro h
        apply Leans.flip .right
        simpa only [Side.flip, Side.sign, Int8.mul_one] using h
    rw [hright]
    exact and_congr_right fun _ => and_comm

theorem items_join_congr (side : Side) {near near' far far' : Shape} (e : Item) (b b' : Int8)
    (hn : near.items = near'.items) (hf : far.items = far'.items) :
    (join side near e b far).items = (join side near' e b' far').items := by
  cases side <;> simp only [join, items, hn, hf]

theorem items_rotate_single (side : Side) (outer inner far : Shape) (x y : Item)
    (bx b bx' b' : Int8) :
    (join side outer y b (join side inner x bx far)).items =
      (join side (join side outer y b' inner) x bx' far).items := by
  cases side <;> simp [join, items]

theorem items_rotate_double (side : Side) (outer near' far' far : Shape) (x y z : Item)
    (bx b bz bx' b' bz' : Int8) :
    (join side (join side outer y b near') z bz (join side far' x bx far)).items =
      (join side (join side outer y b' (join side near' z bz' far')) x bx' far).items := by
  cases side <;> simp [join, items]

/-- The balances after a double rotation fit, and the tree is two higher than the two outer
subtrees. -/
theorem balanced_rotate_double {side : Side} {outer near' far' far : Shape} {x y z : Item}
    {bz : Int8} {h : Nat} (houter : outer.Balanced) (hfar : far.Balanced)
    (hz : (join side near' z bz far').Balanced) (ho : outer.height = h) (hf : far.height = h)
    (hh : (join side near' z bz far').height = h + 1) :
    (join side (join side outer y (if bz = side.sign then -side.sign else 0) near') z 0
      (join side far' x (if bz = -side.sign then side.sign else 0) far)).Balanced ∧
    (join side (join side outer y (if bz = side.sign then -side.sign else 0) near') z 0
      (join side far' x (if bz = -side.sign then side.sign else 0) far)).height = h + 2 := by
  rw [balanced_join] at hz
  obtain ⟨hlean, hnear', hfar'⟩ := hz
  rw [height_join] at hh
  simp only [balanced_join, height_join]
  rcases hlean with ⟨hb, he⟩ | ⟨hb, he⟩ | ⟨hb, he⟩
  · -- An even `z` leaves both of its parents even.
    rw [Side.mul_sign_eq_zero] at hb
    subst hb
    have h1 : (0 : Int8) ≠ side.sign := (Side.sign_ne_zero side).symm
    have h2 : (0 : Int8) ≠ -side.sign := by cases side <;> decide
    have hn : near'.height = h := by omega
    have hf' : far'.height = h := by omega
    rw [if_neg h1, if_neg h2, ho, hf, hn, hf']
    exact ⟨⟨leans_zero _ _, ⟨leans_zero _ _, houter, hnear'⟩, leans_zero _ _, hfar', hfar⟩, by omega⟩
  · -- A `z` that leans to the far side leaves its short subtree to `y`.
    rw [Side.mul_sign_eq_one] at hb
    subst hb
    have hn : near'.height + 1 = h := by omega
    have hf' : far'.height = h := by omega
    rw [if_pos rfl, if_neg (Side.sign_ne_neg side), ho, hf, hf', ← hn,
      max_eq_left (Nat.le_succ _), max_self]
    exact ⟨⟨leans_zero _ _, ⟨leans_neg_sign _ _, houter, hnear'⟩, leans_zero _ _, hfar', hfar⟩,
      by omega⟩
  · -- A `z` that leans to the near side leaves its short subtree to `x`.
    rw [Side.mul_sign_eq_neg_one] at hb
    subst hb
    have hn : near'.height = h := by omega
    have hf' : far'.height + 1 = h := by omega
    rw [if_neg (Side.sign_ne_neg side).symm, if_pos rfl, ho, hf, hn, ← hf',
      max_eq_right (Nat.le_succ _), max_self]
    exact ⟨⟨leans_zero _ _, ⟨leans_zero _ _, houter, hnear'⟩, leans_sign _ _, hfar', hfar⟩,
      by omega⟩

end Shape

namespace Path

def Balanced : Nat → Path → Prop
  | _, [] => True
  | h, f :: p =>
    Leans (f.balance * f.side.sign) h f.sibling.height ∧ f.sibling.Balanced ∧
      Balanced (1 + max h f.sibling.height) p

theorem balanced_plug {p : Path} {s : Shape} :
    (p.plug s).Balanced ↔ s.Balanced ∧ Balanced s.height p := by
  induction p generalizing s with
  | nil => exact (and_iff_left trivial).symm
  | cons f p ih =>
    rw [plug, ih, Shape.balanced_join, Shape.height_join]
    change _ ↔ s.Balanced ∧ Leans _ _ _ ∧ f.sibling.Balanced ∧ _
    tauto

end Path

end VersionedIndex
