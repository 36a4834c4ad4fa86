import TripleChain.Builtin
import TripleChain.Dependency.Pairing
import TripleChain.Rule.Reading

/-!
# Dependencies between rules

A rule depends on another one if facts from the conclusion of the other could match part of its
condition. Computed clauses read no facts and take no part.
-/

namespace TripleChain

/-- Whether the clause asks whether the facts at hand include a formula: no other clause of the
condition gives its subject a value. -/
def Triple.includesFacts (c : Triple) (condition : Formula) : Bool :=
  c.predicate = .iri Vocabulary.includes && c.subject.isSlot &&
    !condition.any fun d => d ≠ c && d.slots.contains c.subject

/-- The clauses of a condition that are matched against facts: the stored ones, and those inside
a negation or inside a formula that the facts at hand are to include. -/
def Formula.readClauses (condition : Formula) : List Triple :=
  condition.flatMap fun c =>
    match c.object.formula? with
    | some inner =>
      if c.isNegation || c.includesFacts condition then inner.filter fun d => !d.isComputed
      else if c.isComputed then [] else [c]
    | none => if c.isComputed then [] else [c]

/-- Whether facts from the conclusion can match part of the condition. A variable conclusion can
give every fact. -/
def conclusionFeeds (conclusion condition : Term) : Bool :=
  match condition with
  | .formula F =>
    let clauses := Formula.readClauses F
    if clauses.isEmpty then false
    else
      match conclusion with
      | .formula [] => false
      | .formula ts => Pairing.anyResidual (fun _ => true) (Triple.feeders ts) clauses
      | .var _ => true
      | .literal _ | .iri _ | .blank _ => false
  | _ => false

/-- The rules whose conclusions can feed the condition of a rule. -/
def Rule.fedBy (r : Rule) (rules : List Rule) : List Rule :=
  rules.filter fun s => conclusionFeeds s.conclusion r.condition

/-- For each rule, by its number, the rules that it depends on, ascending. -/
structure DependencyGraph where
  edges : List (List Nat)
  inRange : ∀ ys ∈ edges, ∀ y ∈ ys, y < edges.length

namespace DependencyGraph

def ofRules (rules : List Rule) : DependencyGraph where
  edges := rules.map fun r =>
    (List.range rules.length).filter fun i =>
      rules[i]?.any fun s => conclusionFeeds s.conclusion r.condition
  inRange := by
    intro ys hys y hy
    obtain ⟨r, _, rfl⟩ := List.mem_map.1 hys
    rw [List.length_map]
    exact List.mem_range.1 (List.mem_filter.1 hy).1

/-- The number of rules. -/
def size (g : DependencyGraph) : Nat := g.edges.length

/-- The rules that feed rule `i`. -/
def dependsOn (g : DependencyGraph) (i : Nat) : List Nat := (g.edges[i]?).getD []

/-- The rules that rule `i` feeds. -/
def triggers (g : DependencyGraph) (i : Nat) : List Nat :=
  (List.range g.size).filter fun j => (g.dependsOn j).contains i

def isSelfDependent (g : DependencyGraph) (i : Nat) : Bool := (g.dependsOn i).contains i

theorem mem_triggers {g : DependencyGraph} {i j : Nat} : j ∈ g.triggers i ↔ i ∈ g.dependsOn j := by
  simp only [triggers, List.mem_filter, List.mem_range, List.contains_iff_mem, and_iff_right_iff_imp]
  intro h
  unfold dependsOn at h
  cases e : g.edges[j]? with
  | none => rw [e] at h; exact absurd h List.not_mem_nil
  | some _ => exact (List.getElem?_eq_some_iff.1 e).1

end DependencyGraph

end TripleChain
