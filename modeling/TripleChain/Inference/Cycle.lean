import TripleChain.Inference.Guarded
import TripleChain.Stratum.Walk

/-!
# Rules that feed each other

The rules are put in the order of a walk in which each is fed by the one before, and every step
of the walk adds its guard's bound to the number of passes allowed. A pass fires the pending
rules in that order; those fed by a rule that added triples are pending in the next pass.
-/

namespace TripleChain

namespace Cycle

/-- The sum of the bounds of the steps of a walk. -/
def passBound (config : Config) (store : Store) (rules : List Rule) : List Nat → Except Fault Nat
  | i :: j :: walk =>
    match rules[i]?, rules[j]? with
    | some producer, some consumer => do
      let split ← Guard.split producer consumer
      let guarding ← Guard.instances config store split.guard
      let resting ← Guard.instances config store split.rest
      let others ← passBound config store rules (j :: walk)
      return split.bound guarding resting + others
    | _, _ => passBound config store rules (j :: walk)
  | _ => .ok 0

/-- Evaluation under way. -/
structure State where
  store : Graph
  derived : OrderedSet Triple
  /-- The rules to fire in the next pass, with repetitions. -/
  triggered : List Nat

/-- Fires one rule. -/
def fireRule (config : Config) (rules : List Rule) (g : DependencyGraph) (pass i : Nat) (s : State) :
    Run State :=
  match rules[i]? with
  | none => return s
  | some r => do
    let found ← r.derive config (.graph s.store)
    let added := found.toList.countP fun t => !s.store.contains t
    let store ← s.store.addAll found.toList
    let derived := s.derived.insertAll found.toList
    if added = 0 then return { s with store := store, derived := derived }
    else
      Run.report (.rescheduled pass i added)
      return ⟨store, derived, s.triggered ++ g.triggers i⟩

/-- Fires the pending rules one after the other. -/
def firePending (config : Config) (rules : List Rule) (g : DependencyGraph) (pass : Nat) :
    List Nat → State → Run State
  | [], s => return s
  | i :: pending, s => do
    firePending config rules g pass pending (← fireRule config rules g pass i s)

/-- Runs at most `left` of `bound` passes over the rules of `order`. -/
def passes (config : Config) (rules : List Rule) (g : DependencyGraph) (order : List Nat)
    (bound : Nat) : (left : Nat) → (pending : List Nat) → State → Run (OrderedSet Triple)
  | _, [], s => return s.derived
  | 0, _ :: _, s => do
    Run.report (.passesExhausted bound)
    return s.derived
  | left + 1, i :: pending, s => do
    let s ← firePending config rules g (bound - left) (i :: pending) { s with triggered := [] }
    passes config rules g order bound left (order.filter fun i => s.triggered.contains i) s

/-- What rules that feed each other derive from the facts. -/
def derive (config : Config) (facts : Graph) (rules : List Rule) (g : DependencyGraph)
    (members : List Nat) : Run (OrderedSet Triple) :=
  match members.filterMap fun i => rules[i]? with
  | [] => return ∅
  | lead :: others => do
    match (lead :: others).find? Rule.isNegative with
    | some negative => Run.fail (.negationInCycle negative)
    | none =>
      match g.walk members with
      | none => Run.fail (.noWalk lead)
      | some walk =>
        let bound := config.rounds (← passBound config (.graph facts) rules walk)
        Run.report (.walk walk bound)
        let order := (OrderedSet.ofList walk).toList
        passes config rules g order bound bound order ⟨facts, ∅, []⟩

end Cycle

end TripleChain
