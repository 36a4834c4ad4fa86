import TripleChain.Term.Basic

/-!
# Terms as text

Variables begin with a question mark, blank nodes with `_:`, and IRIs stand between angle
brackets; the terms of a triple are set apart by a space and the triples of a formula by a point.
-/

namespace TripleChain

mutual

/-- The text of a term whose blank nodes have the names that `name` gives their labels. -/
def Term.textWith (name : String → String) : Term → String
  | .literal l => l.text
  | .iri s => "<" ++ s ++ ">"
  | .var x => "?" ++ x
  | .blank b => "_:" ++ name b
  | .formula [] => "\x7b\x7d"
  | .formula (t :: ts) =>
    "\x7b " ++ t.textWith name ++ Triple.followingTextWith name ts ++ " \x7d"

def Triple.textWith (name : String → String) : Triple → String
  | ⟨s, p, o⟩ => s.textWith name ++ " " ++ p.textWith name ++ " " ++ o.textWith name

/-- The triples after the first one of a formula. -/
def Triple.followingTextWith (name : String → String) : List Triple → String
  | [] => ""
  | t :: ts => " . " ++ t.textWith name ++ Triple.followingTextWith name ts

end

/-- The text of a term, its blank nodes under their own labels. -/
def Term.text (a : Term) : String := a.textWith id

def Triple.text (t : Triple) : String := t.textWith id

/-- The text of a formula, as of the term that quotes it. -/
def Formula.text (F : Formula) : String := (Term.formula F).text

/-- A text between braces after a name. -/
def bracedText (name inner : String) : String := name ++ " \x7b " ++ inner ++ " \x7d"

mutual

/-- The term by its structure: kinds and fields are named and texts quoted. -/
def Term.structureText : Term → String
  | .literal l =>
    "Literal(" ++ bracedText "Literal"
      ("lexical: " ++ Text.quote l.lexical ++ ", datatype: " ++ Text.quote l.datatype) ++ ")"
  | .iri s => "Iri(" ++ Text.quote s ++ ")"
  | .var x => "Variable(" ++ Text.quote x ++ ")"
  | .blank b => "BlankNode(" ++ Text.quote b ++ ")"
  | .formula [] => "Formula(" ++ bracedText "Formula" "triples: \x7b\x7d" ++ ")"
  | .formula (t :: ts) =>
    "Formula(" ++ bracedText "Formula"
      ("triples: \x7b" ++ t.structureText ++ Triple.followingStructureText ts ++ "\x7d") ++ ")"

def Triple.structureText : Triple → String
  | ⟨s, p, o⟩ =>
    bracedText "Triple"
      ("subject: " ++ s.structureText ++ ", predicate: " ++ p.structureText ++ ", object: " ++
        o.structureText)

def Triple.followingStructureText : List Triple → String
  | [] => ""
  | t :: ts => ", " ++ t.structureText ++ Triple.followingStructureText ts

end

/-- The triples by their structure, between square brackets. -/
def Triple.listText : List Triple → String
  | [] => "[]"
  | t :: ts => "[" ++ t.structureText ++ Triple.followingStructureText ts ++ "]"

end TripleChain
