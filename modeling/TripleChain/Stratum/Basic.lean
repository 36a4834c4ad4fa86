import TripleChain.Dependency.Graph
import TripleChain.Stratum.Components

/-!
# Strata

Rules that feed each other form one stratum, and strata are evaluated so that a rule comes after
all rules that it depends on. The kind of a stratum says how it is evaluated.
-/

namespace TripleChain

inductive Stratum.Kind where
  /-- One rule that does not feed itself: one pass. -/
  | simple
  /-- One rule with a negated condition that does not feed itself. -/
  | negative
  /-- One rule that feeds itself. -/
  | recursive
  /-- Several rules that feed each other. -/
  | cyclic
deriving DecidableEq, Repr

def Stratum.Kind.text : Stratum.Kind → String
  | simple => "Simple"
  | negative => "Negative"
  | recursive => "Recursive"
  | cyclic => "Mutual"

structure Stratum where
  /-- The numbers of its rules, ascending. -/
  members : List Nat
  kind : Stratum.Kind
deriving DecidableEq

/-- The kind of a stratum with the given members. -/
def stratumKind (rules : List Rule) (g : DependencyGraph) : List Nat → Stratum.Kind
  | [i] =>
    if g.isSelfDependent i then .recursive
    else if rules[i]?.any Rule.isNegative then .negative
    else .simple
  | _ => .cyclic

/-- The strata of the rules in the order of their evaluation. -/
def stratify (rules : List Rule) (g : DependencyGraph) : List Stratum :=
  g.components.map fun members => ⟨members, stratumKind rules g members⟩

end TripleChain
