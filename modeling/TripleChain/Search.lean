import TripleChain.Schedule
import TripleChain.Substitution

/-!
# Search

All ways to match a list of clauses against a store, depth first and in order. A clause with a
builtin predicate is computed; every other clause is matched against the triples that its mask
admits. The builtins on formulas search a scope of their own, in turn with builtins, and so on;
`solve` takes the depth to which scopes may be opened inside one another, and a search that goes
deeper is left.
-/

namespace TripleChain

/-- A way to search a store for a list of clauses. -/
abbrev Solver := Store → List Triple → Bindings → Answers

namespace Builtin

/-- The answers if the search came to its end. Nothing is known of a scope before it has been
searched as a whole. -/
def whole (a : Answers) : Answers := if a.complete then a else .cut

/-- Matches the object, a formula, in the scope that the subject names: the triples of a formula
with the bindings put in, or the store at hand where the subject has no value. -/
def evalIncludes (inner : Solver) (store : Store) (s o : Term) (b : Bindings) : Answers :=
  match (o.resolve b).bind Term.formula? with
  | none => .all []
  | some clauses =>
    let clauses := orderClauses clauses b.keys
    match s.resolve b with
    | none => whole (inner store clauses b)
    | some (.formula scope) => whole (inner (.formula (Formula.substitute scope b)) clauses b)
    | some _ => .all []

/-- Holds if the object is a formula that does not match in the scope. -/
def evalNotIncludes (inner : Solver) (store : Store) (s o : Term) (b : Bindings) : Answers :=
  match (o.resolve b).bind Term.formula? with
  | none => .all []
  | some _ =>
    let a := evalIncludes inner store s o b
    if a.complete then .all (keep a.found.isEmpty b) else .cut

def eval (inner : Solver) (store : Store) (f : Builtin) (s o : Term) (b : Bindings) : Answers :=
  match f with
  | includes => evalIncludes inner store s o b
  | notIncludes => evalNotIncludes inner store s o b
  | f => .all (f.evalPlain s o b)

end Builtin

namespace Search

/-- The extensions of the bindings that one clause allows. -/
def extend (inner : Solver) (store : Store) (c : Triple) (b : Bindings) : Answers :=
  match c.predicate.builtin? with
  | some f => f.eval inner store c.subject c.object b
  | none => .all ((store.query (c.mask b)).flatMap fun t => c.bind t b)

/-- Matches the clauses in turn, with `inner` for the scopes of builtins. -/
def solveWith (inner : Solver) (store : Store) : List Triple → Bindings → Answers
  | [], b => .all [b]
  | c :: cs, b => (extend inner store c b).andThen (solveWith inner store cs)

/-- Searches a scope, in which further scopes may be opened so that `depth` of them lie inside one
another. -/
def solveScope : (depth : Nat) → Solver
  | 0 => fun _ _ _ => .cut
  | depth + 1 => solveWith (solveScope depth)

/-- Matches the clauses in turn, with scopes opened up to `depth` deep inside one another. -/
def solve (depth : Nat) : Solver := solveWith (solveScope depth)

end Search

end TripleChain
