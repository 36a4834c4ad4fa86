import TripleChain.Builtin

/-!
# The order of clauses

Before a list of clauses is matched it is put into order. Stored clauses come first, each time the
one with the most known positions; builtins follow, each time the first whose inputs are ready.
-/

namespace TripleChain

/-- Whether the value of a term is known once the terms of `bound` have values. -/
def Term.isKnown (a : Term) (bound : List Term) : Bool := !a.isSlot || bound.contains a

/-- How many positions of a clause are known. -/
def Triple.knownCount (c : Triple) (bound : List Term) : Nat :=
  c.terms.countP fun a => a.isKnown bound

/-- Whether a clause different from `c` has an occurrence of `a`. -/
def mentionedElsewhere (a : Term) (c : Triple) (remaining : List Triple) : Bool :=
  remaining.any fun d => d ≠ c && d.slots.contains a

/-- A scope that no other clause gives a value stands for the facts at hand. -/
def scopeReady (c : Triple) (bound : List Term) (remaining : List Triple) : Bool :=
  c.subject.isKnown bound || !mentionedElsewhere c.subject c remaining

/-- Whether a builtin clause can run; the clauses that have not run, itself included, are
`remaining`. -/
def Builtin.inputsReady (f : Builtin) (c : Triple) (bound : List Term) (remaining : List Triple) :
    Bool :=
  match f.inputs with
  | .both => c.subject.isKnown bound && c.object.isKnown bound
  | .either => c.subject.isKnown bound || c.object.isKnown bound
  | .scope => scopeReady c bound remaining
  | .negatedScope =>
    scopeReady c bound remaining &&
      c.object.slots.all fun a => bound.contains a || !mentionedElsewhere a c remaining

/-- Whether the clause is a builtin whose inputs are ready. -/
def Triple.isReady (c : Triple) (bound : List Term) (remaining : List Triple) : Bool :=
  c.predicate.builtin?.any fun f => f.inputsReady c bound remaining

namespace Schedule

/-- The index of the first stored clause with the most known positions. -/
def bestStored (bound : List Term) (remaining : List Triple) : Option Nat :=
  let stored := remaining.filter fun c => !c.isComputed
  (stored.map fun c => c.knownCount bound).max?.bind fun most =>
    remaining.findIdx? fun c => !c.isComputed && c.knownCount bound = most

/-- The index of the first builtin that is ready. -/
def firstReady (bound : List Term) (remaining : List Triple) : Option Nat :=
  remaining.findIdx? fun c => c.isReady bound remaining

/-- The index of the clause to run next: a stored clause, else a builtin that is ready, else the
first clause. -/
def choose (bound : List Term) (remaining : List Triple) : Nat :=
  ((bestStored bound remaining).or (firstReady bound remaining)).getD 0

/-- Places the given number of clauses. -/
def place : (count : Nat) → (bound : List Term) → (remaining : List Triple) → List Triple
  | 0, _, _ => []
  | count + 1, bound, remaining =>
    let i := choose bound remaining
    match remaining[i]? with
    | none => []
    | some c => c :: place count (bound ++ c.slots) (remaining.eraseIdx i)

end Schedule

/-- The clauses in the order in which they are matched, where the terms of `bound` have values
from the start. -/
def orderClauses (clauses : List Triple) (bound : List Term) : List Triple :=
  Schedule.place clauses.length bound clauses

end TripleChain
