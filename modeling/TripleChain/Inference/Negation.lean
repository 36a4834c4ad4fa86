import TripleChain.Inference.Pass
import TripleChain.Run

/-!
# Negation as failure

A rule with negations derives what it would without them, less what it would derive were the
negated formulas to hold. Matches of the latter are cut down to the slots of the other clauses
before firing, so that both sides mint the same blank nodes.
-/

namespace TripleChain

namespace Rule

/-- The rule with another condition. -/
def withCondition (r : Rule) (clauses : List Triple) : Rule :=
  { r with condition := .quoting clauses }

/-- The clauses other than negations. -/
def plainClauses (F : Formula) : List Triple := F.filter fun c => !c.isNegation

/-- The clauses with every negation replaced by the clauses of the formula it negates. -/
def heldClauses (F : Formula) : List Triple :=
  F.flatMap fun c => if c.isNegation then c.object.formula?.getD [] else [c]

/-- The rule where its negated formulas hold. -/
def held (r : Rule) : Except Fault Rule := r.conditionFormula.map fun F => r.withCondition (heldClauses F)

/-- The rule without its negations. -/
def plain (r : Rule) : Except Fault Rule := r.conditionFormula.map fun F => r.withCondition (plainClauses F)

/-- What a rule with negations derives from a store. -/
def deriveNegated (r : Rule) (config : Config) (store : Store) : Run (OrderedSet Triple) := do
  let held ← r.held
  let plain ← r.plain
  let candidates ← plain.derive config store
  let shared := plain.condition.slots
  let clauses ← held.conditionFormula
  let matched := store.answers config clauses
  let blocked ← held.fireAnswers
    { matched with found := matched.found.map fun b => b.restrict fun k => shared.contains k }
  Run.report (.negated r candidates.size blocked.size)
  return candidates.filter fun t => t ∉ blocked

end Rule

end TripleChain
