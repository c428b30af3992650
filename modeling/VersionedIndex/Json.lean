import VersionedIndex.Json.Numeral
import VersionedIndex.Json.Text

namespace VersionedIndex

inductive Json where
  | null
  | bool (b : Bool)
  | number (n : Json.Numeral)
  | string (s : Json.Written)
  | array (items : List Json)
  | object (members : List (Json.Written × Json))

namespace Json

inductive Token where
  | openObject
  | closeObject
  | openArray
  | closeArray
  | comma
  | colon
  | null
  | bool (b : Bool)
  | number (n : Numeral)
  | string (s : Written)
deriving DecidableEq, Repr

def Token.render : Token → List Char
  | openObject => ['\x7b']
  | closeObject => ['\x7d']
  | openArray => ['[']
  | closeArray => [']']
  | comma => [',']
  | colon => [':']
  | null => "null".toList
  | bool true => "true".toList
  | bool false => "false".toList
  | number n => n.render
  | string s => s.render

mutual

def tokens : Json → List Token
  | null => [.null]
  | bool b => [.bool b]
  | number n => [.number n]
  | string s => [.string s]
  | array items => .openArray :: itemTokens items
  | object members => .openObject :: memberTokens members

def itemTokens : List Json → List Token
  | [] => [.closeArray]
  | [j] => j.tokens ++ [.closeArray]
  | j :: j' :: rest => j.tokens ++ .comma :: itemTokens (j' :: rest)

def memberTokens : List (Written × Json) → List Token
  | [] => [.closeObject]
  | [(key, j)] => .string key :: .colon :: j.tokens ++ [.closeObject]
  | (key, j) :: m :: rest =>
    .string key :: .colon :: j.tokens ++ .comma :: memberTokens (m :: rest)

end

def render (j : Json) : String := String.ofList (j.tokens.flatMap Token.render)

def isBlank (c : Char) : Bool := c = ' ' || c = '\n' || c = '\t' || c = '\r'

def lexWithin : Nat → List Char → Option (List Token)
  | _, [] => some []
  | 0, _ :: _ => none
  | limit + 1, c :: cs =>
    let go := fun (t : Token) (rest : List Char) => (t :: ·) <$> lexWithin limit rest
    match c, cs with
    | '\x7b', _ => go .openObject cs
    | '\x7d', _ => go .closeObject cs
    | '[', _ => go .openArray cs
    | ']', _ => go .closeArray cs
    | ',', _ => go .comma cs
    | ':', _ => go .colon cs
    | 'n', 'u' :: 'l' :: 'l' :: rest => go .null rest
    | 't', 'r' :: 'u' :: 'e' :: rest => go (.bool true) rest
    | 'f', 'a' :: 'l' :: 's' :: 'e' :: rest => go (.bool false) rest
    | '"', _ =>
      match Written.scan cs with
      | some (s, rest) => go (.string s) rest
      | none => none
    | _, _ =>
      if isBlank c then lexWithin limit cs
      else
        match Numeral.scan (c :: cs) with
        | some (n, rest) => go (.number n) rest
        | none => none

def lex (cs : List Char) : Option (List Token) := lexWithin cs.length cs

mutual

/-- A value at the front of some tokens, and the tokens after it. Each call spends one unit of
`limit` and reads at least one token. -/
def valueWithin : Nat → List Token → Option (Json × List Token)
  | 0, _ => none
  | limit + 1, ts =>
    match ts with
    | .null :: rest => some (null, rest)
    | .bool b :: rest => some (bool b, rest)
    | .number n :: rest => some (number n, rest)
    | .string s :: rest => some (string s, rest)
    | .openArray :: .closeArray :: rest => some (array [], rest)
    | .openArray :: rest => do
      let (items, rest) ← itemsWithin limit rest
      return (array items, rest)
    | .openObject :: .closeObject :: rest => some (object [], rest)
    | .openObject :: rest => do
      let (members, rest) ← membersWithin limit rest
      return (object members, rest)
    | _ => none

def itemsWithin : Nat → List Token → Option (List Json × List Token)
  | 0, _ => none
  | limit + 1, ts => do
    let (j, rest) ← valueWithin limit ts
    match rest with
    | .closeArray :: rest => return ([j], rest)
    | .comma :: rest =>
      let (items, rest) ← itemsWithin limit rest
      return (j :: items, rest)
    | _ => none

def membersWithin : Nat → List Token → Option (List (Written × Json) × List Token)
  | 0, _ => none
  | limit + 1, ts =>
    match ts with
    | .string key :: .colon :: rest => do
      let (j, rest) ← valueWithin limit rest
      match rest with
      | .closeObject :: rest => return ([(key, j)], rest)
      | .comma :: rest =>
        let (members, rest) ← membersWithin limit rest
        return ((key, j) :: members, rest)
      | _ => none
    | _ => none

end

def parse? (text : String) : Option Json := do
  let ts ← lex text.toList
  match ← valueWithin (2 * ts.length) ts with
  | (j, []) => return j
  | _ => none

mutual

def ignorable : Json → Bool
  | string s => s.noControl
  | array items => ignorableItems items
  | object members => ignorableMembers members
  | _ => true

def ignorableItems : List Json → Bool
  | [] => true
  | j :: rest => j.ignorable && ignorableItems rest

def ignorableMembers : List (Written × Json) → Bool
  | [] => true
  | (key, j) :: rest => key.noControl && j.ignorable && ignorableMembers rest

end

def text? : Json → Option String
  | string s => s.text?
  | _ => none

def bool? : Json → Option Bool
  | bool b => some b
  | _ => none

def intWithin? (low high : Int) : Json → Option Int
  | number n => n.toInt?.filter fun i => low ≤ i ∧ i ≤ high
  | _ => none

def ofInt (i : Int) : Json := number (.ofInt i)

def ofText (text : String) : Json := string (.ofText text)

end Json

end VersionedIndex
