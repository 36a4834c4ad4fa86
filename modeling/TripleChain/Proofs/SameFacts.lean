import TripleChain.Proofs.Comparison

/-!
# Runs on the same facts

What a run derives depends on which facts there are, and not on their order or on repetitions
(`infer_congr_facts`), whatever the rules are. Beside itself a run of rules between formulas shows that no
variable enters what is derived (`infer_varFree`).
-/

namespace TripleChain

theorem comparableRuns_self {clean : Prop} (config : Config) {rules : List Rule}
    (sides : clean → ∀ r ∈ rules, r.condition.isFormula = true ∧ r.conclusion.isFormula = true) :
    ComparableRuns False clean config config rules where
  roundLimit := rfl
  patience := rfl
  rule r hr :=
    { searched := fun clauses _ => ⟨fun _ _ h => Store.same_answers h config clauses, False.elim⟩
      sides := fun hc => sides hc r hr }

/-- From the same facts, in whatever order and however often each of them is listed, the rules derive
the same triples, or fail for the same kind of reason unless the patience ended first in a run. -/
theorem infer_congr_facts (config : Config) (rules : List Rule) (facts facts' : List Triple)
    (same : ∀ t, t ∈ facts ↔ t ∈ facts') :
    EndAlike (fun e f => e.kind = f.kind ∨ e = .outOfPatience ∨ f = .outOfPatience)
      (fun D D' => ∀ t, t ∈ D ↔ t ∈ D') (infer facts rules config).result
      (infer facts' rules config).result := by
  have comparable : ComparableRuns False False config config rules := comparableRuns_self config False.elim
  have alike := infer_alike comparable same False.elim
  exact alike.mono (fun h => h.kind.imp id And.right) fun h => h.same

/-- A guarded rule and a negation. The triples come in another order. -/
theorem infer_congr_facts_shuffled :
    let link (x y : Term) : Triple := ⟨x, .iri "next", y⟩
    let path (x y : Term) : Triple := ⟨x, .iri "reach", y⟩
    let start := Rule.ofLists [link (.var "x") (.var "y")] [path (.var "x") (.var "y")]
    let step := Rule.ofLists [path (.var "x") (.var "y"), link (.var "y") (.var "z")]
      [path (.var "x") (.var "z")]
    let oneWay := Rule.ofLists [link (.var "x") (.var "y"),
      ⟨.var "s", .iri Vocabulary.notIncludes, .quoting [link (.var "y") (.var "x")]⟩]
      [⟨.var "x", .iri "oneWay", .var "y"⟩]
    let ab := link (.iri "a") (.iri "b")
    let bc := link (.iri "b") (.iri "c")
    let cb := link (.iri "c") (.iri "b")
    (∀ t, t ∈ [ab, bc, cb] ↔ t ∈ [cb, ab, cb, bc]) ∧ ∃ D D',
      (infer [ab, bc, cb] [start, step, oneWay]).result = .ok D ∧
      (infer [cb, ab, cb, bc] [start, step, oneWay]).result = .ok D' ∧
      D.toList ≠ D'.toList ∧ ∀ t, t ∈ D ↔ t ∈ D' := by
  intro link path start step oneWay ab bc cb
  have same : ∀ t, t ∈ [ab, bc, cb] ↔ t ∈ [cb, ab, cb, bc] := by
    intro t
    simp only [List.mem_cons, List.not_mem_nil, or_false]
    tauto
  have first : (infer [ab, bc, cb] [start, step, oneWay]).result.toOption.map (·.toList.head?) =
      some (some (path (.iri "a") (.iri "b"))) := by decide +kernel
  have first' : (infer [cb, ab, cb, bc] [start, step, oneWay]).result.toOption.map (·.toList.head?) =
      some (some (path (.iri "c") (.iri "b"))) := by decide +kernel
  obtain ⟨D, hD, hhead⟩ := exists_ok_of_map first
  obtain ⟨D', hD', hhead'⟩ := exists_ok_of_map first'
  refine ⟨same, D, D', hD, hD', fun e => ?_, ?_⟩
  · rw [e, hhead'] at hhead
    exact absurd hhead (by decide)
  · have alike := infer_congr_facts {} [start, step, oneWay] _ _ same
    rw [hD, hD'] at alike
    cases alike with
    | ok h => exact h

/-- From facts without variables rules between formulas derive triples without variables, or fail for
what is unsupported, as long as the patience lasts; and no value that a search adds to no bindings is a
variable. -/
theorem infer_varFree (config : Config) (facts : List Triple) (rules : List Rule)
    (noVar : ∀ t ∈ facts, t.hasVar = false)
    (sides : ∀ r ∈ rules, r.condition.isFormula = true ∧ r.conclusion.isFormula = true) :
    (∀ D, (infer facts rules config).result = .ok D → ∀ t ∈ D, t.hasVar = false) ∧
    (∀ e, (infer facts rules config).result = .error e → e.kind = .unsupported ∨ e = .outOfPatience) ∧
    ∀ (depth : Nat) (store : Store) (clauses : List Triple),
      ∀ s ∈ (Search.solve depth store clauses ∅).found, ∀ k v, s.get? k = some v → v.isVar = false := by
  have comparable : ComparableRuns False True config config rules :=
    comparableRuns_self config fun _ => sides
  have alike := infer_alike comparable (fun _ => Iff.rfl) fun _ => noVar
  refine ⟨fun D hD => ?_, fun e he => ?_, fun depth store clauses => ?_⟩
  · rw [Run.Alike, hD] at alike
    cases alike with
    | ok h => exact h.noVar trivial
  · rw [Run.Alike, he] at alike
    cases alike with
    | error h => exact h.clean trivial
  · exact Search.varFree_solve depth store clauses ∅ Bindings.varFree_empty

/-- The formula in the fact holds a variable, which the search of the formula does not take. -/
theorem infer_varFree_quoted :
    let said : Triple := ⟨.iri "ann", .iri "claims", .quoting [⟨.iri "rex", .iri "is", .iri "dog"⟩,
      ⟨.var "w", .iri "is", .iri "cat"⟩]⟩
    let rule := Rule.ofLists [⟨.var "s", .iri "claims", .var "f"⟩,
      ⟨.var "f", .iri Vocabulary.includes, .quoting [⟨.var "u", .iri "is", .var "v"⟩]⟩]
      [⟨.var "u", .iri "knownTo", .var "s"⟩]
    (∀ t ∈ [said], t.hasVar = false) ∧
      (rule.condition.isFormula = true ∧ rule.conclusion.isFormula = true) ∧
      ∃ D, (infer [said] [rule]).result = .ok D ∧ ⟨.iri "rex", .iri "knownTo", .iri "ann"⟩ ∈ D ∧
        ∀ t ∈ D, t.hasVar = false := by
  intro said rule
  have noVar : ∀ t ∈ [said], t.hasVar = false := by decide
  have sides : ∀ r ∈ [rule], r.condition.isFormula = true ∧ r.conclusion.isFormula = true := by decide
  have run : (infer [said] [rule]).result.toOption.map (·.toList) =
      some [⟨.iri "rex", .iri "knownTo", .iri "ann"⟩] := by decide +kernel
  obtain ⟨D, hD, found⟩ := exists_ok_of_map run
  refine ⟨noVar, sides rule (by simp), D, hD, ?_, (infer_varFree {} [said] [rule] noVar sides).1 D hD⟩
  rw [OrderedSet.mem_def, found]
  exact List.mem_singleton_self _

end TripleChain
