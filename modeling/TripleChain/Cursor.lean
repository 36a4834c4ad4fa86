import TripleChain.Search
import TripleChain.Term.Text

/-!
# Cursors

A search that gives its answers one at a time and keeps what it has not looked into yet. A frame
is a list of clauses still to match and the bindings they are matched under; the first frame is
explored first.
-/

namespace TripleChain

/-- Clauses still to match, and the bindings so far. -/
abbrev Frame := List Triple × Bindings

/-- What exploring gives: an answer and the frames left, or none, or it was left. -/
inductive Step where
  | found (b : Bindings) (pending : List Frame)
  | exhausted
  | cut

/-- Explores the bindings one after the other up to the first answer. The bindings after it stay
as frames with the clauses `cs`. -/
def Step.first (explore : Bindings → Step) (cs : List Triple) : List Bindings → Step
  | [] => .exhausted
  | b :: bs =>
    match explore b with
    | .found b' pending => .found b' (pending ++ bs.map fun e => (cs, e))
    | .exhausted => Step.first explore cs bs
    | .cut => .cut

/-- The first answer of a frame. -/
def Step.explore (inner : Solver) (store : Store) : List Triple → Bindings → Step
  | [], b => .found b []
  | c :: cs, b =>
    let a := Search.extend inner store c b
    if a.complete then Step.first (Step.explore inner store cs) cs a.found else .cut

/-- A search under way. -/
structure Cursor where
  clauses : List Triple
  store : Store
  /-- How deep scopes may be opened inside one another. -/
  depth : Nat
  pending : List Frame

namespace Cursor

def start (depth : Nat) (store : Store) (clauses : List Triple) (b : Bindings) : Cursor :=
  ⟨clauses, store, depth, [(clauses, b)]⟩

/-- The first answer in a list of frames. -/
def firstIn (inner : Solver) (store : Store) : List Frame → Step
  | [] => .exhausted
  | (cs, b) :: frames =>
    match Step.explore inner store cs b with
    | .found b' pending => .found b' (pending ++ frames)
    | .exhausted => firstIn inner store frames
    | .cut => .cut

def step (c : Cursor) : Step := firstIn (Search.solveScope c.depth) c.store c.pending

/-- The next answer, if there is one, and the search after it. -/
def next (c : Cursor) : Option Bindings × Cursor :=
  match c.step with
  | .found b pending => (some b, { c with pending := pending })
  | .exhausted | .cut => (none, { c with pending := [] })

/-- The first answers, at most `count`. -/
def take : (count : Nat) → Cursor → Answers
  | 0, _ => .all []
  | count + 1, c =>
    match c.step with
    | .found b pending =>
      let rest := take count { c with pending := pending }
      ⟨b :: rest.found, rest.complete⟩
    | .exhausted => .all []
    | .cut => .cut

/-- The clauses and the number of frames left. -/
def text (c : Cursor) : String :=
  "Matches \x7b clauses: " ++ Triple.listText c.clauses ++ ", pending: " ++
    toString c.pending.length ++ ", builtins: true, .. \x7d"

end Cursor

end TripleChain
