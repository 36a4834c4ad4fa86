import TripleChain.Text.Unseen

/-!
# Quoted text

A text between double quotes. The quote, the backslash, the tabulator, the two line ends and the
null character have a short escape, and every other character that is not seen by itself is
written by its code point.
-/

namespace TripleChain.Text

/-- The digits of `n` in base sixteen, lower case, without leading zeros. -/
def hexadecimal (n : Nat) : String := String.ofList (Nat.toDigits 16 n)

/-- How one character is written between quotes. -/
def escape (c : Char) : String :=
  match c with
  | '"' => "\\\""
  | '\\' => "\\\\"
  | '\t' => "\\t"
  | '\n' => "\\n"
  | '\r' => "\\r"
  | '\x00' => "\\0"
  | c => if isUnseen c then "\\u\x7b" ++ hexadecimal c.toNat ++ "\x7d" else c.toString

def quote (s : String) : String :=
  "\"" ++ s.foldl (fun text c => text ++ escape c) "" ++ "\""

end TripleChain.Text
