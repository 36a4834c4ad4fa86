import TripleChain.Inference.Cycle
import TripleChain.Inference.Negation

/-!
# Inference

The strata of the rules are evaluated one after the other, each on the facts and on what the
strata before it derived.
-/

namespace TripleChain

/-- What one stratum derives from the facts. -/
def Stratum.derive (s : Stratum) (config : Config) (facts : Graph) (rules : List Rule)
    (g : DependencyGraph) : Run (OrderedSet Triple) :=
  match s.kind, s.members.filterMap fun i => rules[i]? with
  | .simple, [r] => r.derive config (.graph facts)
  | .negative, [r] => r.deriveNegated config (.graph facts)
  | .recursive, [r] => r.deriveRecursive config (.graph facts)
  | _, _ => Cycle.derive config facts rules g s.members

/-- Evaluates strata, the first of them at the given level. -/
def inferStrata (config : Config) (rules : List Rule) (g : DependencyGraph) :
    (level : Nat) → List Stratum → Graph → OrderedSet Triple → Run (OrderedSet Triple)
  | _, [], _, derived => return derived
  | level, s :: strata, closure, derived => do
    Run.report (.stratum level s)
    let found ← s.derive config closure rules g
    let closure ← closure.addAll found.toList
    inferStrata config rules g (level + 1) strata closure (derived.insertAll found.toList)

/-- All triples that firing the rules gives, facts among them or not. -/
def infer (facts : List Triple) (rules : List Rule) (config : Config := {}) :
    Run (OrderedSet Triple) := do
  let closure ← Graph.ofList facts
  let g := DependencyGraph.ofRules rules
  inferStrata config rules g 0 (stratify rules g) closure ∅

end TripleChain
