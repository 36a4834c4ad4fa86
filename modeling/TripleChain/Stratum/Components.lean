import TripleChain.Dependency.Graph

/-!
# Components

The strongly connected components of a dependency graph by one depth-first traversal. A component
is given out when the traversal leaves the first of its rules, hence after every component that
it depends on.
-/

namespace TripleChain

/-- A traversal under way. -/
structure Traversal where
  /-- The rules met so far, in the order of meeting them; a rule's number is its place here. -/
  met : List Nat
  /-- The rules met that are in no component yet, the last one met first. -/
  stack : List Nat
  /-- The components given out. -/
  components : List (List Nat)

namespace Traversal

def start : Traversal := ⟨[], [], []⟩

def number? (t : Traversal) (i : Nat) : Option Nat := t.met.idxOf? i

def enter (t : Traversal) (i : Nat) : Traversal :=
  { t with met := t.met ++ [i], stack := i :: t.stack }

/-- Gives out the rules on the stack down to `i` as a component of a graph of the given size. -/
def close (t : Traversal) (size i : Nat) : Traversal :=
  let members := i :: t.stack.takeWhile (· ≠ i)
  { t with
    stack := (t.stack.dropWhile (· ≠ i)).drop 1
    components := t.components ++ [(List.range size).filter members.contains] }

/-- Looks at the rules a rule depends on, one after the other: `low` is the least number known to
be reached, and rules not met before are visited. -/
def look (visit : Nat → Traversal → Nat × Traversal) :
    List Nat → (low : Nat) → Traversal → Nat × Traversal
  | [], low, t => (low, t)
  | j :: js, low, t =>
    match t.number? j with
    | none =>
      let (reached, t) := visit j t
      look visit js (min low reached) t
    | some n => look visit js (if t.stack.contains j then min low n else low) t

/-- Visits a rule and all it leads to, at most `depth` rules deep. Returns the least number that
was reached on the stack; a rule that reaches none below its own closes a component. -/
def visit (g : DependencyGraph) : (depth : Nat) → (i : Nat) → Traversal → Nat × Traversal
  | 0, _, t => (t.met.length, t)
  | depth + 1, i, t =>
    let number := t.met.length
    let (low, t) := look (visit g depth) (g.dependsOn i) number (t.enter i)
    (low, if low = number then t.close g.size i else t)

/-- Visits the rules that have not been met. -/
def run (g : DependencyGraph) : List Nat → Traversal → Traversal
  | [], t => t
  | i :: is, t => run g is (if (t.number? i).isSome then t else (visit g g.size i t).2)

end Traversal

/-- The strongly connected components, each after those it depends on. -/
def DependencyGraph.components (g : DependencyGraph) : List (List Nat) :=
  (Traversal.run g (List.range g.size) .start).components

end TripleChain
