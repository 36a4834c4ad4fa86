import TripleChain.Graph

/-!
# Stores

What matching searches: the facts of a graph, or the triples of a quoted formula. A graph refuses
triples with variables in a position and answers from its index; a formula takes every triple and
is scanned in its own order. Main statement: in both the query returns what the mask admits.
-/

namespace TripleChain

inductive Store where
  | graph (g : Graph)
  | formula (F : Formula)

namespace Store

/-- The triples in the order in which queries return them. -/
def toList : Store → List Triple
  | graph g => g.toList
  | formula F => F

def query (s : Store) (m : Mask) : List Triple :=
  match s with
  | graph g => g.query m
  | formula F => F.filter m.admits

theorem query_eq_filter (s : Store) (m : Mask) : s.query m = s.toList.filter m.admits := by
  cases s with
  | graph g => exact g.query_eq_filter m
  | formula F => rfl

theorem mem_query {s : Store} {m : Mask} {t : Triple} :
    t ∈ s.query m ↔ t ∈ s.toList ∧ m.admits t = true := by
  rw [query_eq_filter, List.mem_filter]

def size (s : Store) : Nat := s.toList.length

def contains (s : Store) (t : Triple) : Bool := !(s.query (.exactly t)).isEmpty

theorem contains_iff {s : Store} {t : Triple} : s.contains t = true ↔ t ∈ s.toList := by
  rw [contains, Bool.not_eq_true', List.isEmpty_eq_false_iff_exists_mem]
  simp only [mem_query, Mask.admits_exactly, exists_eq_right]

/-- Adds a triple, which a graph takes only without a variable in a position. -/
def add : Store → Triple → Except Fault Store
  | graph g, t => (g.add t).map graph
  | formula F, t => .ok (formula (F.insert t))

/-- Adds triples one after the other up to the first one that is refused: the store reached, and
how many triples were new or why it stopped. -/
def absorb : Store → List Triple → Store × Except Fault Nat
  | s, [] => (s, .ok 0)
  | s, t :: ts =>
    match s.add t with
    | .error e => (s, .error e)
    | .ok s' =>
      let (last, count) := absorb s' ts
      (last, count.map fun n => if s.contains t then n else n + 1)

end Store

end TripleChain
