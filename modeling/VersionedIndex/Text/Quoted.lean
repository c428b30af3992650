import VersionedIndex.Text.Extending
import VersionedIndex.Text.Ignorable
import VersionedIndex.Text.Unprintable

namespace VersionedIndex.Text.Quoted

def isPlain (c : Char) : Bool := !isUnprintable c && !isIgnorable c && !isExtending c

def escape (c : Char) : String :=
  match c with
  | '"' => "\\\""
  | '\\' => "\\\\"
  | '\n' => "\\n"
  | '\r' => "\\r"
  | '\t' => "\\t"
  | '\x00' => "\\0"
  | _ =>
    if isPlain c then c.toString
    else "\\u\x7b" ++ String.ofList (Nat.toDigits 16 c.toNat) ++ "\x7d"

def quote (text : String) : String := "\"" ++ String.join (text.toList.map escape) ++ "\""

end VersionedIndex.Text.Quoted
