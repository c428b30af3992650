import Mathlib.Data.List.Chain
import VersionedIndex.Json
import VersionedIndex.Proofs.Json.Numerals
import VersionedIndex.Proofs.Json.Strings

namespace VersionedIndex.Json

namespace Token

def Proper : Token → Prop
  | number n => n.Proper
  | string s => s.Proper
  | _ => True

def isNumber : Token → Bool
  | number _ => true
  | _ => false

def Apart (a b : Token) : Prop := a.isNumber = false ∨ b.isNumber = false

variable {t : Token} {cs : List Char}

/-- A numeral ends in front of every other token. -/
theorem ends_render (ht : t.isNumber = false) (cs : List Char) : Numeral.Ends (t.render ++ cs) := by
  cases t with
  | number n => cases ht
  | bool b => cases b <;> rintro c ⟨⟩ <;> decide
  | _ => rintro c ⟨⟩; decide

/-- A numeral begins with its sign or with a digit. -/
theorem exists_head_of_numeral {n : Numeral} (hn : n.Proper) (cs : List Char) :
    ∃ c rest, n.render ++ cs = c :: rest ∧ (c = '-' ∨ c.isDigit = true) := by
  obtain ⟨d, whole, hd⟩ := List.exists_cons_of_ne_nil hn.whole_ne_nil
  rw [Numeral.render_append, hd]
  cases n.negative with
  | true => exact ⟨'-', _, rfl, Or.inl rfl⟩
  | false => exact ⟨d, _, rfl, Or.inr (hn.whole d (hd ▸ List.mem_cons_self))⟩

/-- No other token begins like a numeral. -/
theorem not_opening_of_numeral : ∀ c ∈ ['\x7b', '\x7d', '[', ']', ',', ':', 'n', 't', 'f', '"'],
    ¬ (c = '-' ∨ c.isDigit = true) := by
  -- One character after the other: there are too many of them to decide this for all.
  simp only [List.forall_mem_cons, List.not_mem_nil, false_implies, implies_true, and_true]
  decide

theorem not_blank_of_numeral {c : Char} (hc : c = '-' ∨ c.isDigit = true) : ¬ isBlank c = true := by
  have hblanks : ∀ c ∈ [' ', '\n', '\t', '\r'], ¬ (c = '-' ∨ c.isDigit = true) := by
    simp only [List.forall_mem_cons, List.not_mem_nil, false_implies, implies_true, and_true]
    decide
  intro hblank
  exact hblanks c (by simpa [isBlank, or_assoc] using hblank) hc

/-- A token in front is read by itself. -/
theorem lexWithin_token (ht : t.Proper) (hcs : t.isNumber = true → Numeral.Ends cs) (limit : Nat) :
    lexWithin (limit + 1) (t.render ++ cs) = (lexWithin limit cs).map (t :: ·) := by
  cases t with
  | number n =>
    have hscan := n.scan_render ht (hcs rfl)
    obtain ⟨c, rest, hrender, hc⟩ := exists_head_of_numeral ht cs
    rw [render]
    rw [hrender] at hscan ⊢
    rw [lexWithin, if_neg (not_blank_of_numeral hc), hscan]
    · rfl
    all_goals
      intros
      subst_vars
      exact not_opening_of_numeral _ (by decide) hc
  | string s =>
    have hscan := Written.scan_render ht cs
    rw [render, Written.render, List.cons_append, List.cons_append, List.append_assoc,
      List.singleton_append, lexWithin, hscan]
    rfl
  | bool b => cases b <;> rfl
  | _ => rw [render]; rfl

theorem length_render_pos (ht : t.Proper) : 0 < t.render.length := by
  rw [List.length_pos_iff]
  cases t with
  | number n =>
    obtain ⟨c, rest, hrender, -⟩ := exists_head_of_numeral ht []
    rw [List.append_nil] at hrender
    rw [render, hrender]
    exact List.cons_ne_nil c rest
  | bool b => cases b <;> exact nofun
  | _ => exact nofun

theorem ends_of_apart {ts : List Token} (ht : t.isNumber = true) (hts : (t :: ts).IsChain Apart) :
    Numeral.Ends (ts.flatMap render) := by
  cases ts with
  | nil => exact nofun
  | cons t' ts =>
    have hapart := (List.isChain_cons_cons.mp hts).1
    exact ends_render (hapart.resolve_left (by simp [ht])) _

/-- Tokens of which no two numerals are neighbours are read as they were written. -/
theorem lexWithin_render {ts : List Token} (hts : ∀ t ∈ ts, t.Proper) (hapart : ts.IsChain Apart)
    {limit : Nat} (hlimit : ts.length ≤ limit) : lexWithin limit (ts.flatMap render) = some ts := by
  induction ts generalizing limit with
  | nil => cases limit <;> rfl
  | cons t ts ih =>
    obtain ⟨limit, rfl⟩ : ∃ m, limit = m + 1 := Nat.exists_eq_succ_of_ne_zero (by
      rintro rfl
      cases hlimit)
    rw [List.forall_mem_cons] at hts
    rw [List.flatMap_cons, lexWithin_token hts.1 (ends_of_apart · hapart),
      ih hts.2 hapart.of_cons (Nat.le_of_succ_le_succ hlimit), Option.map_some]

theorem length_le_render {ts : List Token} (hts : ∀ t ∈ ts, t.Proper) :
    ts.length ≤ (ts.flatMap render).length := by
  induction ts with
  | nil => exact Nat.le_refl 0
  | cons t ts ih =>
    rw [List.forall_mem_cons] at hts
    rw [List.flatMap_cons, List.length_append, List.length_cons]
    have ht := length_render_pos hts.1
    have hrest := ih hts.2
    omega

theorem apart_cons {ts : List Token} (ht : t.isNumber = false) (hts : ts.IsChain Apart) :
    (t :: ts).IsChain Apart :=
  List.isChain_cons.mpr ⟨fun _ _ => Or.inl ht, hts⟩

theorem apart_append {ts ts' : List Token} (hts : ts.IsChain Apart) (ht : t.isNumber = false)
    (hts' : ts'.IsChain Apart) : (ts ++ t :: ts').IsChain Apart := by
  refine List.isChain_append.mpr ⟨hts, apart_cons ht hts', ?_⟩
  rintro x - y ⟨⟩
  exact Or.inr ht

end Token

open Token

theorem lex_render {ts : List Token} (hts : ∀ t ∈ ts, t.Proper) (hapart : ts.IsChain Apart) :
    lex (ts.flatMap Token.render) = some ts :=
  lexWithin_render hts hapart (length_le_render hts)

mutual

/-- In a document no two numerals are neighbours. -/
theorem apart_tokens : ∀ j : Json, j.tokens.IsChain Apart
  | null => .singleton _
  | bool _ => .singleton _
  | number _ => .singleton _
  | string _ => .singleton _
  | array items => apart_cons rfl (apart_itemTokens items)
  | object members => apart_cons rfl (apart_memberTokens members)

theorem apart_itemTokens : ∀ items : List Json, (itemTokens items).IsChain Apart
  | [] => .singleton _
  | [j] => apart_append (apart_tokens j) rfl .nil
  | j :: j' :: rest => apart_append (apart_tokens j) rfl (apart_itemTokens (j' :: rest))

theorem apart_memberTokens : ∀ members : List (Written × Json), (memberTokens members).IsChain Apart
  | [] => .singleton _
  | [(_, j)] => apart_append (apart_cons rfl (apart_cons rfl (apart_tokens j))) rfl .nil
  | (_, j) :: m :: rest =>
    apart_append (apart_cons rfl (apart_cons rfl (apart_tokens j))) rfl (apart_memberTokens (m :: rest))

end

/-- The first token of a value closes nothing. -/
theorem exists_head_tokens (j : Json) :
    ∃ t ts, j.tokens = t :: ts ∧ t ≠ .closeArray ∧ t ≠ .closeObject := by
  cases j <;> exact ⟨_, _, rfl, nofun, nofun⟩

theorem itemTokens_cons (j : Json) (items : List Json) :
    ∃ t ts, itemTokens (j :: items) = t :: ts ∧ t ≠ .closeArray := by
  obtain ⟨t, ts, ht, hne, -⟩ := exists_head_tokens j
  cases items with
  | nil => exact ⟨t, _, by rw [itemTokens, ht]; rfl, hne⟩
  | cons j' items => exact ⟨t, _, by rw [itemTokens, ht]; rfl, hne⟩

theorem memberTokens_cons (m : Written × Json) (members : List (Written × Json)) :
    ∃ ts, memberTokens (m :: members) = .string m.1 :: ts := by
  cases members <;> exact ⟨_, rfl⟩

mutual

/-- A value is read from its tokens, whatever follows them. -/
theorem valueWithin_tokens : ∀ (j : Json) (rest : List Token) (spare : Nat),
    valueWithin (spare + j.tokens.length) (j.tokens ++ rest) = some (j, rest)
  | null, _, _ => rfl
  | bool _, _, _ => rfl
  | number _, _, _ => rfl
  | string _, _, _ => rfl
  | array [], _, _ => rfl
  | array (j :: items), rest, spare => by
    have hitems := itemsWithin_tokens (j :: items) (List.cons_ne_nil j items) rest spare
    obtain ⟨t, ts, ht, hne⟩ := itemTokens_cons j items
    rw [tokens, List.length_cons, List.cons_append, ← Nat.add_assoc]
    rw [ht, List.cons_append] at hitems ⊢
    rw [valueWithin, hitems]
    · rfl
    · simp [hne]
  | object [], _, _ => rfl
  | object (m :: members), rest, spare => by
    have hmembers := membersWithin_tokens (m :: members) (List.cons_ne_nil m members) rest spare
    obtain ⟨ts, ht⟩ := memberTokens_cons m members
    rw [tokens, List.length_cons, List.cons_append, ← Nat.add_assoc]
    rw [ht, List.cons_append] at hmembers ⊢
    rw [valueWithin, hmembers]
    · rfl
    · simp

theorem itemsWithin_tokens : ∀ (items : List Json), items ≠ [] → ∀ (rest : List Token) (spare : Nat),
    itemsWithin (spare + (itemTokens items).length) (itemTokens items ++ rest) = some (items, rest)
  | [], h, _, _ => absurd rfl h
  | [j], _, rest, spare => by
    have hvalue := valueWithin_tokens j (.closeArray :: rest) spare
    rw [itemTokens, List.length_append, List.length_singleton, ← Nat.add_assoc, List.append_assoc,
      List.singleton_append, itemsWithin, hvalue]
    rfl
  | j :: j' :: items, _, rest, spare => by
    have hvalue := valueWithin_tokens j (.comma :: (itemTokens (j' :: items) ++ rest))
      (spare + (itemTokens (j' :: items)).length)
    have hitems := itemsWithin_tokens (j' :: items) (List.cons_ne_nil j' items) rest
      (spare + j.tokens.length)
    rw [Nat.add_right_comm] at hvalue
    rw [itemTokens, List.length_append, List.length_cons, ← Nat.add_assoc, ← Nat.add_assoc,
      List.append_assoc, List.cons_append, itemsWithin, hvalue]
    simp only [Option.bind_eq_bind, Option.bind_some, hitems]
    rfl

theorem membersWithin_tokens : ∀ (members : List (Written × Json)), members ≠ [] →
    ∀ (rest : List Token) (spare : Nat),
    membersWithin (spare + (memberTokens members).length) (memberTokens members ++ rest) =
      some (members, rest)
  | [], h, _, _ => absurd rfl h
  | [(key, j)], _, rest, spare => by
    have hvalue := valueWithin_tokens j (.closeObject :: rest) (spare + 2)
    have hlimit : spare + (memberTokens [(key, j)]).length = spare + 2 + j.tokens.length + 1 := by
      rw [memberTokens, List.length_append, List.length_cons, List.length_cons, List.length_singleton]
      omega
    rw [hlimit, memberTokens, List.cons_append, List.cons_append, List.cons_append, List.cons_append,
      List.append_assoc, List.singleton_append, membersWithin, hvalue]
    rfl
  | (key, j) :: m :: members, _, rest, spare => by
    have hvalue := valueWithin_tokens j (.comma :: (memberTokens (m :: members) ++ rest))
      (spare + (memberTokens (m :: members)).length + 2)
    have hmembers := membersWithin_tokens (m :: members) (List.cons_ne_nil m members) rest
      (spare + j.tokens.length + 2)
    have hsame : spare + (memberTokens (m :: members)).length + 2 + j.tokens.length =
        spare + j.tokens.length + 2 + (memberTokens (m :: members)).length := by omega
    have hlimit : spare + (memberTokens ((key, j) :: m :: members)).length =
        spare + j.tokens.length + 2 + (memberTokens (m :: members)).length + 1 := by
      rw [memberTokens, List.length_append, List.length_cons, List.length_cons, List.length_cons]
      omega
    rw [hsame] at hvalue
    rw [hlimit, memberTokens, List.cons_append, List.cons_append, List.cons_append, List.cons_append,
      List.append_assoc, List.cons_append, membersWithin, hvalue]
    simp only [Option.bind_eq_bind, Option.bind_some, hmembers]
    rfl

end

def Proper (j : Json) : Prop := ∀ t ∈ j.tokens, t.Proper

/-- A document is read as it was written. -/
theorem parse_render {j : Json} (hj : j.Proper) : parse? j.render = some j := by
  have hlex := lex_render hj (apart_tokens j)
  have hvalue := valueWithin_tokens j [] j.tokens.length
  rw [List.append_nil, ← Nat.two_mul] at hvalue
  rw [parse?, render, String.toList_ofList, hlex]
  simp only [Option.bind_eq_bind, Option.bind_some, hvalue]
  rfl

theorem bool_proper (b : Bool) : (bool b).Proper := by
  intro t ht
  rw [List.mem_singleton.mp ht]
  trivial

theorem ofInt_proper (i : Int) : (ofInt i).Proper := by
  intro t ht
  rw [List.mem_singleton.mp ht]
  exact Numeral.ofInt_proper i

theorem ofText_proper (text : String) : (ofText text).Proper := by
  intro t ht
  rw [List.mem_singleton.mp ht]
  exact Written.ofText_proper text

theorem array_proper {items : List Json} (h : ∀ j ∈ items, j.Proper) : (array items).Proper := by
  suffices hitems : ∀ t ∈ itemTokens items, t.Proper from
    List.forall_mem_cons.mpr ⟨trivial, hitems⟩
  induction items with
  | nil => exact List.forall_mem_singleton.mpr trivial
  | cons j items ih =>
    rw [List.forall_mem_cons] at h
    cases items with
    | nil => exact List.forall_mem_append.mpr ⟨h.1, List.forall_mem_singleton.mpr trivial⟩
    | cons j' items =>
      exact List.forall_mem_append.mpr ⟨h.1, List.forall_mem_cons.mpr ⟨trivial, ih h.2⟩⟩

theorem object_proper {members : List (Written × Json)}
    (h : ∀ m ∈ members, m.1.Proper ∧ m.2.Proper) : (object members).Proper := by
  suffices hmembers : ∀ t ∈ memberTokens members, t.Proper from
    List.forall_mem_cons.mpr ⟨trivial, hmembers⟩
  induction members with
  | nil => exact List.forall_mem_singleton.mpr trivial
  | cons m members ih =>
    rw [List.forall_mem_cons] at h
    have hm : ∀ t ∈ .string m.1 :: .colon :: m.2.tokens, t.Proper :=
      List.forall_mem_cons.mpr ⟨h.1.1, List.forall_mem_cons.mpr ⟨trivial, h.1.2⟩⟩
    cases members with
    | nil => exact List.forall_mem_append.mpr ⟨hm, List.forall_mem_singleton.mpr trivial⟩
    | cons m' members =>
      exact List.forall_mem_append.mpr ⟨hm, List.forall_mem_cons.mpr ⟨trivial, ih h.2⟩⟩

end VersionedIndex.Json
