import TripleChain.Rule.Basic

/-!
# Faults

Why an operation fails. A pattern that does not match is never a fault. Every fault belongs to
one of four kinds and has one text.
-/

namespace TripleChain

inductive Fault where
  /-- A triple read as a rule has another predicate than the two implications. -/
  | notAnImplication (t : Triple)
  /-- A side of a rule is neither a formula nor a variable. -/
  | sideOfOtherKind (r : Rule)
  /-- Both sides of a rule are variables. -/
  | twoVariableSides (r : Rule)
  /-- A rule with a conclusion that is neither a formula nor a variable is applied. -/
  | conclusionOfOtherKind (r : Rule)
  /-- A fact has a variable in one of its positions. -/
  | variableInFact (t : Triple)
  /-- A rule is applied whose condition is not a formula. -/
  | conditionNotFormula (r : Rule)
  /-- A variable conclusion is bound to something else than a formula, or to nothing. -/
  | conclusionNotFormula (r : Rule) (found : Term)
  /-- A rule that feeds another one has a variable conclusion. -/
  | variableInRecursion (r : Rule)
  /-- A condition can be fed in several ways, or in none. -/
  | pairingCount (r : Rule) (found : Nat)
  /-- A rule with a negated condition feeds itself. -/
  | negationInRecursion (r : Rule)
  /-- A rule with a negated condition and other rules feed each other. -/
  | negationInCycle (r : Rule)
  /-- No walk visits all rules that feed each other. -/
  | noWalk (r : Rule)
  /-- The evaluation was left before its end. -/
  | outOfPatience
deriving DecidableEq

namespace Fault

inductive Kind where
  | malformedRule
  | typeMismatch
  | unsupported
  | outOfPatience
deriving DecidableEq, Repr

def kind : Fault → Kind
  | notAnImplication _ | sideOfOtherKind _ | twoVariableSides _ | conclusionOfOtherKind _ =>
    .malformedRule
  | variableInFact _ | conditionNotFormula _ | conclusionNotFormula _ _ => .typeMismatch
  | variableInRecursion _ | pairingCount _ _ | negationInRecursion _ | negationInCycle _
  | noWalk _ => .unsupported
  | outOfPatience => .outOfPatience

def malformedText (rule reason : String) : String := "malformed rule `" ++ rule ++ "`: " ++ reason

def mismatchText (context found : String) : String :=
  "type mismatch in " ++ context ++ ": unexpected `" ++ found ++ "`"

def unsupportedText (r : Rule) (reason : String) : String :=
  "unsupported rule `" ++ r.text ++ "`: " ++ reason

def text : Fault → String
  | notAnImplication t =>
    malformedText t.text "predicate is neither log:implies nor log:impliedBy"
  | sideOfOtherKind r => malformedText r.text "both sides must be formulas or variables"
  | twoVariableSides r => malformedText r.text "at most one side may be a variable"
  | conclusionOfOtherKind r => malformedText r.text "body must be a formula or a variable"
  | variableInFact t => mismatchText "fact store insert" t.text
  | conditionNotFormula r => mismatchText ("head of `" ++ r.text ++ "`") r.condition.text
  | conclusionNotFormula r found => mismatchText ("body of `" ++ r.text ++ "`") found.text
  | variableInRecursion r => unsupportedText r "recursion through a variable conclusion"
  | pairingCount r found =>
    unsupportedText r ("expected exactly one dependency pairing, found " ++ toString found)
  | negationInRecursion r => unsupportedText r "negation-as-failure in a recursive rule"
  | negationInCycle r =>
    unsupportedText r "negation-as-failure in a mutually recursive stratum"
  | noWalk r => unsupportedText r "no evaluation walk covers the stratum"
  | outOfPatience => "gave up before the end of the evaluation"

end Fault

end TripleChain
