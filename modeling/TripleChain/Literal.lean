import TripleChain.Decimal.Reading
import TripleChain.Decimal.Shortest
import TripleChain.Text.Blank
import TripleChain.Text.Quoted
import TripleChain.Vocabulary

/-!
# Literals

A lexical form with its datatype. Only the numeric datatypes are read as numbers, and two
literals are the same only if both parts are.
-/

namespace TripleChain

structure Literal where
  lexical : String
  datatype : String
deriving DecidableEq, Repr, Inhabited

namespace Literal
open Vocabulary

def string (s : String) : Literal := ⟨s, xsdString⟩

def integer (n : Int) : Literal := ⟨toString n, xsdInteger⟩

/-- The decimal with the shortest text that reads back as the given number. -/
def decimal (x : Float) : Literal := ⟨Decimal.floatText x, xsdDecimal⟩

def trimmed (l : Literal) : List Char := Text.trim l.lexical.toList

/-- The number a literal of a numeric datatype stands for, blanks around it aside. -/
def number? (l : Literal) : Option Float :=
  if l.datatype ∈ numericDatatypes then Decimal.read? l.trimmed else none

/-- The character of a string of length one. -/
def character? (l : Literal) : Option Char :=
  if l.datatype = xsdString then
    match l.lexical.toList with
    | [c] => some c
    | _ => none
  else none

/-- The code that a numeric literal written in digits alone stands for. -/
def code? (l : Literal) : Option Nat :=
  l.number?.bind fun _ => Decimal.readCode? l.trimmed

/-- Numbers are written bare, strings quoted, and all else quoted with the datatype. -/
def text (l : Literal) : String :=
  if l.datatype = xsdString then Text.quote l.lexical
  else if l.datatype ∈ [xsdInteger, xsdDecimal, xsdDouble] then l.lexical
  else Text.quote l.lexical ++ "^^<" ++ l.datatype ++ ">"

/-- By lexical form, then by datatype. -/
protected def compare (l m : Literal) : Ordering :=
  (compare l.lexical m.lexical).then (compare l.datatype m.datatype)

instance : Ord Literal := ⟨Literal.compare⟩

end Literal

end TripleChain
