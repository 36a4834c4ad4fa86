import TripleChain.Fault
import TripleChain.OrderedSet
import TripleChain.Vocabulary

/-!
# Rules as triples

An implication is a triple between two sides. Reading one checks the sides: each is a formula or
a variable, and they are not both variables. Main statement: what a rule is written as reads back
as the same rule.
-/

namespace TripleChain

namespace Rule

def isSide (a : Term) : Bool := a.isFormula || a.isVar

/-- The rule with the given sides, if they are sides of a rule. -/
def ofSides (condition : Term) (direction : Direction) (conclusion : Term) : Except Fault Rule :=
  let r : Rule := ⟨condition, direction, conclusion⟩
  if !isSide condition || !isSide conclusion then .error (.sideOfOtherKind r)
  else if condition.isVar && conclusion.isVar then .error (.twoVariableSides r)
  else .ok r

def ofTriple (t : Triple) : Except Fault Rule :=
  if t.predicate = .iri Vocabulary.implies then ofSides t.subject .forward t.object
  else if t.predicate = .iri Vocabulary.impliedBy then ofSides t.object .backward t.subject
  else .error (.notAnImplication t)

/-- The implication that the rule is written as. -/
def toTriple (r : Rule) : Triple :=
  match r.direction with
  | .forward => ⟨r.condition, .iri Vocabulary.implies, r.conclusion⟩
  | .backward => ⟨r.conclusion, .iri Vocabulary.impliedBy, r.condition⟩

theorem ofTriple_toTriple (r : Rule) :
    ofTriple r.toTriple = ofSides r.condition r.direction r.conclusion := by
  obtain ⟨condition, direction, conclusion⟩ := r
  cases direction with
  | forward => rfl
  | backward =>
    have ne : Vocabulary.impliedBy ≠ Vocabulary.implies := by decide
    simp [ofTriple, toTriple, ne]

/-- The condition of a rule, which must be a formula. -/
def conditionFormula (r : Rule) : Except Fault Formula :=
  match r.condition with
  | .formula F => .ok F
  | _ => .error (.conditionNotFormula r)

end Rule

namespace Triple

/-- Whether the clause stands for the absence of what its object, a formula, describes. A clause
with a formula as its subject asks about that formula instead. -/
def isNegation (c : Triple) : Bool :=
  c.predicate = .iri Vocabulary.notIncludes && c.subject.isSlot && c.object.isFormula

/-- Whether the triple states a rule and not a fact. -/
def isImplication (t : Triple) : Bool :=
  t.predicate = .iri Vocabulary.implies || t.predicate = .iri Vocabulary.impliedBy

end Triple

/-- Whether some clause of the condition is a negation. -/
def Rule.isNegative (r : Rule) : Bool := r.condition.formula?.any fun F => F.any Triple.isNegation

/-- The rules and the facts of a document whose earlier rules are given. -/
def separateAfter (rules : OrderedSet Rule) :
    List Triple → Except Fault (OrderedSet Rule × List Triple)
  | [] => .ok (rules, [])
  | t :: ts =>
    if t.isImplication then
      (Rule.ofTriple t).bind fun r => separateAfter (rules.insert r) ts
    else (separateAfter rules ts).map fun (rules, facts) => (rules, t :: facts)

/-- The rules and the facts of a document, each rule once. -/
def separate : List Triple → Except Fault (OrderedSet Rule × List Triple) := separateAfter ∅

end TripleChain
