import TripleChain.Dependency.Graph

/-!
# Walks

A walk through rules that feed each other: every rule of it is fed by the one before. The walk
starts at the first member and goes on by a shortest path to a member not visited before.
-/

namespace TripleChain

namespace DependencyGraph

/-- Breadth first along the rules fed, inside `members` and never back to `start`. The queue
holds rules with the path that leads to them, last rule first; the rules in `seen` have been in
the queue. The first rule outside `visited` ends the search, with its path. -/
def searchPath (g : DependencyGraph) (start : Nat) (members visited : List Nat) :
    (steps : Nat) → (queue : List (Nat × List Nat)) → (seen : List Nat) → Option (List Nat)
  | 0, _, _ => none
  | _ + 1, [], _ => none
  | steps + 1, (i, path) :: queue, seen =>
    let next := (g.triggers i).filter fun j =>
      j ≠ start && members.contains j && !seen.contains j
    match next.find? fun j => !visited.contains j with
    | some j => some (j :: path).reverse
    | none =>
      searchPath g start members visited steps (queue ++ next.map fun j => (j, j :: path))
        (seen ++ next)

/-- The shortest path from a rule to the nearest member that is not visited, the start left
out. -/
def nearest (g : DependencyGraph) (members visited : List Nat) (start : Nat) : Option (List Nat) :=
  g.searchPath start members visited (members.length + 1) [(start, [])] []

/-- Extends a walk until it visits as many rules as there are members. The walk so far is
`visited`, and ends at `current`. -/
def extendWalk (g : DependencyGraph) (members : List Nat) :
    (steps : Nat) → (current : Nat) → (visited : List Nat) → Option (List Nat)
  | 0, _, _ => none
  | steps + 1, current, visited =>
    if (OrderedSet.ofList visited).size < members.length then
      (g.nearest members visited current).bind fun path =>
        g.extendWalk members steps (path.getLast?.getD current) (visited ++ path)
    else some visited

/-- A walk that visits every member. -/
def walk (g : DependencyGraph) (members : List Nat) : Option (List Nat) :=
  members.head?.bind fun first => g.extendWalk members members.length first [first]

end DependencyGraph

end TripleChain
