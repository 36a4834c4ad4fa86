import TripleChain.Config
import TripleChain.Formula
import TripleChain.Interchange.Value
import TripleChain.Stratum.Basic

/-!
# Terms in interchange form

Records are objects with named fields; a term is an object whose one field names its kind. A
formula is read as a set, so its triples may stand in any order and more than once.
-/

namespace TripleChain

open Interchange

def Literal.toValue (l : Literal) : Value :=
  .object [("lexical", .text l.lexical), ("datatype", .text l.datatype)]

mutual

def Term.toValue : Term → Value
  | .literal l => .object [("Literal", l.toValue)]
  | .iri s => .object [("Iri", .text s)]
  | .var x => .object [("Variable", .text x)]
  | .blank b => .object [("BlankNode", .text b)]
  | .formula ts => .object [("Formula", .object [("triples", .list (Triple.toValues ts))])]

def Triple.toValue : Triple → Value
  | ⟨s, p, o⟩ =>
    .object [("subject", s.toValue), ("predicate", p.toValue), ("object", o.toValue)]

def Triple.toValues : List Triple → List Value
  | [] => []
  | t :: ts => t.toValue :: Triple.toValues ts

end

def Formula.toValue (F : Formula) : Value := .object [("triples", .list (Triple.toValues F))]

def Config.toValue (c : Config) : Value :=
  .object [("reorder_clauses", .bool c.reorderClauses),
    ("round_limit", c.roundLimit.elim .null .natural)]

def Stratum.Kind.toValue (k : Stratum.Kind) : Value := .text k.text

namespace Interchange

def literal? (v : Value) : Option Literal := do
  match ← v.fields? ["lexical", "datatype"] with
  | [lexical, datatype] => return ⟨← lexical.text?, ← datatype.text?⟩
  | _ => none

/-- A triple, given how its terms are read. -/
def tripleWith? (term? : Value → Option Term) (v : Value) : Option Triple := do
  match ← v.fields? ["subject", "predicate", "object"] with
  | [s, p, o] => return ⟨← term? s, ← term? p, ← term? o⟩
  | _ => none

/-- A formula, given how terms are read. -/
def formulaWith? (term? : Value → Option Term) (v : Value) : Option Formula := do
  match ← v.fields? ["triples"] with
  | [ts] => return Formula.ofList (← (← ts.list?).mapM (tripleWith? term?))
  | _ => none

/-- A term in which formulas are quoted at most `depth` deep. -/
def termWithin? : (depth : Nat) → Value → Option Term
  | 0, _ => none
  | depth + 1, v => do
    match ← v.tagged? with
    | ("Literal", v) => return .literal (← literal? v)
    | ("Iri", v) => return .iri (← v.text?)
    | ("Variable", v) => return .var (← v.text?)
    | ("BlankNode", v) => return .blank (← v.text?)
    | ("Formula", v) => return .formula (← formulaWith? (termWithin? depth) v)
    | _ => none

def term? (v : Value) : Option Term := termWithin? v.depth v

def triple? (v : Value) : Option Triple := tripleWith? term? v

def formula? (v : Value) : Option Formula := formulaWith? term? v

/-- A count of at most 64 bits, or nothing. -/
def limit? : Value → Option (Option Nat)
  | .null => some none
  | .natural n => if n < Nat.pow 2 64 then some (some n) else none
  | _ => none

/-- Of an object, the limit may be left out. -/
def configFields? : Value → Option (List Value)
  | .object fs => (Value.object (fs ++ [("round_limit", .null)])).fields?
      ["reorder_clauses", "round_limit"]
  | v => v.fields? ["reorder_clauses", "round_limit"]

def config? (v : Value) : Option Config := do
  match ← configFields? v with
  | [.bool reorder, limit] => return { reorderClauses := reorder, roundLimit := ← limit? limit }
  | _ => none

/-- The name of a kind, alone or as the one field of an object with no content. -/
def kind? (v : Value) : Option Stratum.Kind :=
  let name : Option String := match v with
    | .text s => some s
    | .object [(s, .null)] => some s
    | _ => none
  [Stratum.Kind.simple, .negative, .recursive, .cyclic].find? fun k => name = some k.text

end Interchange

end TripleChain
