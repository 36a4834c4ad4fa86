import TripleChain.Inference.Closure
import TripleChain.Proofs.Components
import TripleChain.Proofs.Instances

/-!
# How a stratum is evaluated

Without negations a stratum is one pass of a rule that does not depend on itself, the rounds of one
that does, or the passes of a cycle (`Stratum.derive_cases`). Every rule is in a stratum, and no rule
depends on one of a later stratum.
-/

namespace TripleChain

variable {rules : List Rule}

/-! ## Edges between rules -/

namespace DependencyGraph

theorem size_ofRules (rules : List Rule) : (ofRules rules).size = rules.length := List.length_map ..

theorem mem_dependsOn_ofRules {i j : Nat} {producer consumer : Rule} (hi : rules[i]? = some producer)
    (hj : rules[j]? = some consumer) : i ∈ (ofRules rules).dependsOn j ↔
      conclusionFeeds producer.conclusion consumer.condition = true := by
  have hedges : (ofRules rules).edges[j]? = rules[j]?.map fun r => (List.range rules.length).filter fun i =>
      rules[i]?.any fun s => conclusionFeeds s.conclusion r.condition := List.getElem?_map
  rw [dependsOn, hedges, hj, Option.map_some, Option.getD_some, List.mem_filter, hi, Option.any_some]
  exact and_iff_right (List.mem_range.2 (List.getElem?_eq_some_iff.1 hi).1)

end DependencyGraph

/-! ## Kinds -/

theorem stratumKind_eq_simple {g : DependencyGraph} {members : List Nat} :
    stratumKind rules g members = .simple ↔
      ∃ i, members = [i] ∧ i ∉ g.dependsOn i ∧ rules[i]?.any Rule.isNegative = false := by
  obtain _ | ⟨i, _ | ⟨j, others⟩⟩ := members
  · simp [stratumKind]
  · simp only [stratumKind, DependencyGraph.isSelfDependent, List.contains_iff_mem]
    by_cases hself : i ∈ g.dependsOn i
    · simp [hself]
    · by_cases hneg : rules[i]?.any Rule.isNegative = true <;> simp [hself, hneg]
  · simp [stratumKind]

/-! ## Members of strata -/

open DependencyGraph in
theorem exists_stratum {r : Rule} (h : r ∈ rules) :
    ∃ s ∈ stratify rules (ofRules rules), ∃ i ∈ s.members, rules[i]? = some r := by
  obtain ⟨i, hi⟩ := List.getElem?_of_mem h
  have hlt : i < (ofRules rules).size := by
    rw [size_ofRules]
    exact (List.getElem?_eq_some_iff.1 hi).1
  have hmem := (components_given (ofRules rules)).2.mem_iff.2 (List.mem_range.2 hlt)
  obtain ⟨c, hc, hic⟩ := List.mem_flatten.1 hmem
  exact ⟨_, List.mem_map_of_mem hc, i, hic, hi⟩

namespace Stratum

variable {s : Stratum}

/-- The rules of the stratum. -/
def rulesOf (s : Stratum) (rules : List Rule) : List Rule := s.members.filterMap fun i => rules[i]?

theorem mem_rulesOf {r : Rule} : r ∈ s.rulesOf rules ↔ ∃ i ∈ s.members, rules[i]? = some r :=
  List.mem_filterMap

theorem mem_of_mem_rulesOf {r : Rule} (h : r ∈ s.rulesOf rules) : r ∈ rules := by
  obtain ⟨i, -, hi⟩ := mem_rulesOf.1 h
  exact List.mem_of_getElem? hi

theorem not_negative_of_simple {g : DependencyGraph} (hs : s ∈ stratify rules g) (h : s.kind = .simple) :
    ∀ r ∈ s.rulesOf rules, r.isNegative = false := by
  obtain ⟨members, -, rfl⟩ := List.mem_map.1 hs
  obtain ⟨i, rfl, -, hneg⟩ := stratumKind_eq_simple.1 h
  intro r hr
  obtain ⟨j, hj, hjr⟩ := mem_rulesOf.1 hr
  rw [← List.mem_singleton.1 hj, hjr] at hneg
  exact hneg

/-- No rule depends on one of a later stratum. -/
theorem stratify_ordered (rules : List Rule) : (stratify rules (.ofRules rules)).Pairwise fun s later =>
    ∀ consumer ∈ s.rulesOf rules, ∀ producer ∈ later.rulesOf rules,
      conclusionFeeds producer.conclusion consumer.condition = false := by
  rw [stratify, List.pairwise_map]
  refine (DependencyGraph.components_given (.ofRules rules)).1.ordered.imp ?_
  intro c d hcd consumer hconsumer producer hproducer
  obtain ⟨i, hi, hri⟩ := mem_rulesOf.1 hconsumer
  obtain ⟨j, hj, hrj⟩ := mem_rulesOf.1 hproducer
  exact Bool.not_eq_true _ ▸ mt (DependencyGraph.mem_dependsOn_ofRules hrj hri).2 (hcd i hi j hj)

open DependencyGraph in
theorem derive_cases (pos : ∀ r ∈ rules, r.isNegative = false)
    (hs : s ∈ stratify rules (ofRules rules)) (config : Config) :
    (s.kind = .simple ∧ ∃ r, s.rulesOf rules = [r] ∧
      conclusionFeeds r.conclusion r.condition = false ∧
      ∀ facts, s.derive config facts rules (ofRules rules) = liftM (r.derive config (.graph facts))) ∨
    (s.kind = .recursive ∧ ∃ r, s.rulesOf rules = [r] ∧
      conclusionFeeds r.conclusion r.condition = true ∧
      ∀ facts, s.derive config facts rules (ofRules rules) = r.deriveRecursive config (.graph facts)) ∨
    s.kind = .cyclic ∧ ∀ facts, s.derive config facts rules (ofRules rules) =
      Cycle.derive config facts rules (ofRules rules) s.members := by
  obtain ⟨members, hmembers, rfl⟩ := List.mem_map.1 hs
  have hcyclic : stratumKind rules (ofRules rules) members = .cyclic →
      ∀ facts, derive ⟨members, stratumKind rules (ofRules rules) members⟩ config facts rules
        (ofRules rules) = Cycle.derive config facts rules (ofRules rules) members := by
    intro h facts
    rw [h, derive]
  obtain _ | ⟨i, _ | ⟨j, others⟩⟩ := members
  · exact .inr (.inr ⟨rfl, hcyclic rfl⟩)
  · have hlt : i < rules.length := by
      have hmem := List.mem_flatten_of_mem hmembers (List.mem_singleton_self i)
      rw [(components_given (ofRules rules)).2.mem_iff, List.mem_range, size_ofRules] at hmem
      exact hmem
    have hi : rules[i]? = some rules[i] := List.getElem?_eq_getElem hlt
    have hneg : rules[i]?.any Rule.isNegative = false := by
      rw [hi, Option.any_some, pos _ (List.getElem_mem hlt)]
    have hedge := mem_dependsOn_ofRules hi hi
    have hone : rulesOf ⟨[i], stratumKind rules (ofRules rules) [i]⟩ rules = [rules[i]] := by
      simp [rulesOf, hi]
    by_cases hself : i ∈ (ofRules rules).dependsOn i
    · have hkind : stratumKind rules (ofRules rules) [i] = .recursive := by
        rw [stratumKind, isSelfDependent, if_pos (List.contains_iff_mem.2 hself)]
      refine .inr (.inl ⟨hkind, rules[i], hone, hedge.1 hself, fun facts => ?_⟩)
      simp [derive, hkind, hi]
    · have hkind : stratumKind rules (ofRules rules) [i] = .simple := by
        rw [stratumKind, isSelfDependent, if_neg (mt List.contains_iff_mem.1 hself), hneg,
          if_neg Bool.false_ne_true]
      refine .inl ⟨hkind, rules[i], hone, Bool.not_eq_true _ ▸ mt hedge.2 hself, fun facts => ?_⟩
      simp [derive, hkind, hi]
  · exact .inr (.inr ⟨rfl, hcyclic rfl⟩)

open DependencyGraph in
theorem derive_of_simple (pos : ∀ r ∈ rules, r.isNegative = false)
    (hs : s ∈ stratify rules (ofRules rules)) (simple : s.kind = .simple) (config : Config) :
    ∃ r, s.rulesOf rules = [r] ∧ conclusionFeeds r.conclusion r.condition = false ∧
      ∀ facts, s.derive config facts rules (ofRules rules) = liftM (r.derive config (.graph facts)) := by
  rcases derive_cases pos hs config with ⟨-, h⟩ | ⟨kind, -⟩ | ⟨kind, -⟩
  · exact h
  · rw [simple] at kind
    cases kind
  · rw [simple] at kind
    cases kind

end Stratum

end TripleChain
