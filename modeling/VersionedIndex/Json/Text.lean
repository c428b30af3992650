/-! Strings of JSON. Read as text, control characters must be escaped and surrogate units must come
in pairs; read as bytes, neither need be so, and a lone surrogate is encoded as if it were a
character. -/

namespace VersionedIndex.Json

inductive Piece where
  | plain (c : Char)
  | short (c : Char)
  | unit (u : UInt16)
deriving DecidableEq, Repr

abbrev Written := List Piece

def shortEscapes : List (Char × Char) :=
  [('"', '"'), ('\\', '\\'), ('/', '/'), ('b', '\x08'), ('f', '\x0c'), ('n', '\n'), ('r', '\r'),
    ('t', '\t')]

def isLeading (u : UInt16) : Bool := 0xD800 ≤ u && u < 0xDC00

def isTrailing (u : UInt16) : Bool := 0xDC00 ≤ u && u < 0xE000

def pairCodePoint (leading trailing : UInt16) : Nat :=
  0x10000 + (leading.toNat - 0xD800) * 0x400 + (trailing.toNat - 0xDC00)

def utf8Bytes (n : Nat) : List UInt8 :=
  let tail := fun shift : Nat => UInt8.ofNat (0x80 + n >>> shift % 64)
  if n < 0x80 then [.ofNat n]
  else if n < 0x800 then [.ofNat (0xC0 + n / 64), tail 0]
  else if n < 0x10000 then [.ofNat (0xE0 + n / 4096), tail 6, tail 0]
  else [.ofNat (0xF0 + n / 262144), tail 12, tail 6, tail 0]

namespace Written

def ofChar (c : Char) : Piece :=
  if c ≠ '/' ∧ shortEscapes.any (·.2 == c) then .short c
  else if c.toNat < 0x20 then .unit (.ofNat c.toNat)
  else .plain c

def ofText (text : String) : Written := text.toList.map ofChar

def chars? : Written → Option (List Char)
  | [] => some []
  | .plain c :: rest => if c.toNat < 0x20 then none else (c :: ·) <$> chars? rest
  | .short c :: rest => (c :: ·) <$> chars? rest
  | .unit u :: .unit v :: rest =>
    if isLeading u then
      if isTrailing v then (.ofNat (pairCodePoint u v) :: ·) <$> chars? rest else none
    else if isTrailing u then none
    else (.ofNat u.toNat :: ·) <$> chars? (.unit v :: rest)
  | .unit u :: rest =>
    if isLeading u || isTrailing u then none else (.ofNat u.toNat :: ·) <$> chars? rest

def text? (w : Written) : Option String := (chars? w).map String.ofList

def bytes : Written → List UInt8
  | [] => []
  | .plain c :: rest => utf8Bytes c.toNat ++ bytes rest
  | .short c :: rest => utf8Bytes c.toNat ++ bytes rest
  | .unit u :: .unit v :: rest =>
    if isLeading u && isTrailing v then utf8Bytes (pairCodePoint u v) ++ bytes rest
    else utf8Bytes u.toNat ++ bytes (.unit v :: rest)
  | .unit u :: rest => utf8Bytes u.toNat ++ bytes rest

def noControl (w : Written) : Bool :=
  w.all fun
    | .plain c => 0x20 ≤ c.toNat
    | _ => true

def unitDigits (u : UInt16) : List Char :=
  [12, 8, 4, 0].map fun shift => Nat.digitChar (u.toNat >>> shift % 16)

def shortLetter (c : Char) : Char :=
  ((shortEscapes.find? (·.2 == c)).map (·.1)).getD c

def renderPiece : Piece → List Char
  | .plain c => [c]
  | .short c => ['\\', shortLetter c]
  | .unit u => '\\' :: 'u' :: unitDigits u

def render (w : Written) : List Char := '"' :: w.flatMap renderPiece ++ ['"']

def hexValue? (c : Char) : Option Nat :=
  if '0' ≤ c ∧ c ≤ '9' then some (c.toNat - '0'.toNat)
  else if 'a' ≤ c ∧ c ≤ 'f' then some (c.toNat - 'a'.toNat + 10)
  else if 'A' ≤ c ∧ c ≤ 'F' then some (c.toNat - 'A'.toNat + 10)
  else none

def unit? (a b c d : Char) : Option UInt16 := do
  return .ofNat (((← hexValue? a) * 16 + (← hexValue? b)) * 256 +
    (← hexValue? c) * 16 + (← hexValue? d))

def scan : List Char → Option (Written × List Char)
  | '"' :: rest => some ([], rest)
  | '\\' :: 'u' :: a :: b :: c :: d :: rest => do
    let u ← unit? a b c d
    let (w, rest) ← scan rest
    return (.unit u :: w, rest)
  | '\\' :: letter :: rest => do
    let (_, c) ← shortEscapes.find? (·.1 == letter)
    let (w, rest) ← scan rest
    return (.short c :: w, rest)
  | c :: rest => do
    let (w, rest) ← scan rest
    return (.plain c :: w, rest)
  | [] => none

end Written

end VersionedIndex.Json
