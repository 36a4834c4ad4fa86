import TripleChain.Inference.Pass
import TripleChain.Run

/-!
# Rules that feed themselves

The condition of such a rule splits into a guard, which its own conclusions can never match, and
the rest. Rounds run on the instances of guard and rest alone, at most one round for every
instance of the guard, and end early when a round adds nothing. A rule with a variable conclusion
has no guard and runs until nothing is added.
-/

namespace TripleChain

/-- A condition split by what can feed it. -/
structure Guard where
  /-- The clauses that the conclusion cannot match. -/
  guard : Formula
  /-- The clauses that it can match. -/
  rest : Formula
deriving DecidableEq

namespace Guard

/-- Splits the condition of `consumer` by the conclusion of `producer`. There must be exactly one
set of clauses that pairings leave over. -/
def split (producer consumer : Rule) : Except Fault Guard :=
  match producer.conclusion with
  | .formula triples => do
    let clauses := Formula.readClauses (← consumer.conditionFormula)
    match (residualClauses clauses triples).toList with
    | [guard] => .ok ⟨guard, Formula.ofList (clauses.filter fun c => c ∉ guard)⟩
    | found => .error (.pairingCount consumer found.length)
  | _ => .error (.variableInRecursion producer)

/-- The instances of some clauses in a store. -/
def instances (config : Config) (store : Store) (clauses : Formula) : Except Fault Graph :=
  if clauses.isEmpty then .ok ∅
  else ((Rule.ofLists clauses clauses).derive config store).bind fun ts => Graph.ofList ts.toList

/-- The rounds that suffice: one for every instance of the guard. Without a guard the instances
of the rest count, and there is at least one round. -/
def bound (g : Guard) (guarding resting : Graph) : Nat :=
  if g.guard.isEmpty then max (resting.size / max g.rest.length 1) 1
  else guarding.size / g.guard.length

end Guard

namespace Rule

/-- Runs at most `left` of `bound` rounds, each on the triples of the rounds before. Triples that
are facts already do not count as added. -/
def rounds (r : Rule) (config : Config) (facts : Store) (bound : Nat) :
    (left : Nat) → Graph → OrderedSet Triple → Run (OrderedSet Triple)
  | 0, _, derived => do
    if bound ≠ 0 then Run.report (.roundsExhausted bound r)
    return derived
  | left + 1, store, derived => do
    let found ← r.derive config (.graph store)
    let added := found.toList.countP fun t => !store.contains t && !facts.contains t
    let store ← store.addAll found.toList
    Run.report (.round (bound - (left + 1)) r added)
    let derived := derived.insertAll found.toList
    if added = 0 then return derived else r.rounds config facts bound left store derived

/-- Runs rounds, `number` of them so far, until one adds nothing. -/
def saturate (r : Rule) (config : Config) :
    (patience : Nat) → (number : Nat) → Graph → OrderedSet Triple → Run (OrderedSet Triple)
  | patience, number, store, derived => do
    if config.roundLimit.any (· ≤ number) then
      Run.report (.limitReached r)
      return derived
    else
      match patience with
      | 0 => Run.fail .outOfPatience
      | patience + 1 =>
        let found ← r.derive config (.graph store)
        let added := found.toList.countP fun t => !store.contains t
        let store ← store.addAll found.toList
        Run.report (.round (number + 1) r added)
        let derived := derived.insertAll found.toList
        if added = 0 then return derived
        else r.saturate config patience (number + 1) store derived

/-- What a rule that feeds itself derives from a store. -/
def deriveRecursive (r : Rule) (config : Config) (facts : Store) : Run (OrderedSet Triple) := do
  if r.isNegative then Run.fail (.negationInRecursion r)
  else if !r.conclusion.isFormula then
    r.saturate config config.patience 0 (← Graph.ofList facts.toList) ∅
  else
    let split ← Guard.split r r
    let guarding ← Guard.instances config facts split.guard
    let resting ← Guard.instances config facts split.rest
    let rounds := config.rounds (split.bound guarding resting)
    Run.report (.guarded r split.guard guarding.size rounds)
    r.rounds config facts rounds rounds (← guarding.addAll resting.toList) ∅

end Rule

end TripleChain
