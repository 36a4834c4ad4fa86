import TripleChain.Formula
import TripleChain.Term.Text

/-!
# Rules

An implication between two terms: the condition is matched against facts, and the conclusion is
asserted for every match. Each side is a formula, or a variable that a match binds to one.
-/

namespace TripleChain

/-- Which way an implication is written. -/
inductive Direction where
  | forward
  | backward
deriving DecidableEq, Repr

structure Rule where
  condition : Term
  direction : Direction
  conclusion : Term
deriving DecidableEq

namespace Rule

/-- A forward rule between formulas. -/
def ofLists (condition conclusion : List Triple) : Rule :=
  ⟨.quoting condition, .forward, .quoting conclusion⟩

/-- A forward rule has its condition first, a backward rule its conclusion. -/
def text (r : Rule) : String :=
  match r.direction with
  | .forward => r.condition.text ++ " => " ++ r.conclusion.text
  | .backward => r.conclusion.text ++ " <= " ++ r.condition.text

/-- The direction as a number: forward rules come first. -/
def rank (r : Rule) : Nat :=
  match r.direction with
  | .forward => 0
  | .backward => 1

/-- By condition, direction and conclusion. -/
protected def compare (r s : Rule) : Ordering :=
  (r.condition.compare s.condition).then
    ((compare r.rank s.rank).then (r.conclusion.compare s.conclusion))

end Rule

end TripleChain
