import TripleChain.Proofs.Monotone
import TripleChain.Proofs.Soundness

/-!
# What guarded rounds add

The rounds of a rule that feeds itself start from instances of its guard and its rest, which are rebuilt
from the bindings of a match. Where a clause quotes a pattern and the formula that it matches has further
triples, the instance has only the triples that the pattern asks for; it is no fact, and what follows from
it need not follow from the facts (`Rule.deriveRecursive_sound_false`). All that the rounds derive follows
from these instances, and from the facts if every clause matches whole facts
(`Rule.deriveRecursive_sound`).
-/

namespace TripleChain

section
variable {r : Rule} {F G : Formula} {config : Config} {facts store : Store} {M : Set Triple}

/-- Whatever the clauses that the condition is read for match among the facts, they match it as a whole:
under the same bindings the clause is the fact. -/
def Rule.MatchesWhole (r : Rule) (facts : Store) : Prop :=
  ∀ F : Formula, r.condition = .formula F → ∀ c ∈ F.readClauses, ∀ t ∈ facts.toList, ∀ s, c.Matches t s →
    c.substitute s = t

/-! ## Sets closed under a rule -/

/-- Where neither the rule nor the fewer facts have a negation in them, a pass over the store alone tells
that it is closed. -/
theorem Rule.IsMonotone.closes (h : r.IsMonotone)
    (closed : ∃ E, r.derive config store = .ok E ∧ ∀ t ∈ E, t ∈ store.toList) :
    r.Closes config {t | t ∈ store.toList ∧ t.isPositive = true} := by
  obtain ⟨E, hE, hclosed⟩ := closed
  intro g D hg hD t ht
  have hpos : (Store.graph g).Positive := fun u hu => (hg u hu).2
  have hsub : ∀ u ∈ (Store.graph g).toList, u ∈ store.toList := fun u hu => (hg u hu).1
  obtain ⟨D', hD', sub⟩ := h.derive_subset hpos hsub hE
  obtain rfl : D = D' := Except.ok.inj (hD.symm.trans hD')
  exact ⟨hclosed t (sub t ht), h.positive_derive hpos hD t ht⟩

/-! ## Rounds -/

namespace Rule

/-- The rounds add nothing to what follows from the instances they start from. -/
theorem deriveRecursive_closed (pos : r.isNegative = false) (hG : r.conclusion = .formula G)
    {D : OrderedSet Triple} (hD : (r.deriveRecursive config facts).result = .ok D) :
    ∃ split guarding resting, Guard.split r r = .ok split ∧
      Guard.instances config facts split.guard = .ok guarding ∧
      Guard.instances config facts split.rest = .ok resting ∧
      ∀ M : Set Triple, (∀ t, t ∈ guarding.toList ∨ t ∈ resting.toList → t ∈ M) → r.Closes config M →
        ∀ t ∈ D, t ∈ M := by
  rw [deriveRecursive_of_formula pos hG, Run.result_bind] at hD
  obtain ⟨split, hsplit, hD⟩ := bind_eq_ok.1 hD
  rw [Run.result_bind] at hD
  obtain ⟨guarding, hguard, hD⟩ := bind_eq_ok.1 hD
  rw [Run.result_bind] at hD
  obtain ⟨resting, hrest, hD⟩ := bind_eq_ok.1 hD
  rw [Run.result_bind, Run.result_report, ok_bind, Run.result_bind] at hD
  obtain ⟨start, hstart, hD⟩ := bind_eq_ok.1 hD
  refine ⟨split, guarding, resting, hsplit, hguard, hrest, fun M hM closes => ?_⟩
  have within : Within M start.toList := fun t ht => hM t ((Graph.mem_addAll hstart).1 ht)
  exact (rounds_within False.elim closes False.elim facts _ _ start ∅ within within_empty).ensures D hD

/-- What a rule without negations derives, whatever it quotes, follows from the instances of its guard and
its rest. It follows from the facts where every clause matches whole facts and a pass over more facts
derives no less: where no fact has a negation in it, or the condition opens no scope. -/
theorem deriveRecursive_sound (h : r.IsMonotone) (config : Config) (facts : Store) (D : OrderedSet Triple)
    (hD : (r.deriveRecursive config facts).result = .ok D) :
    ∃ split guarding resting, Guard.split r r = .ok split ∧
      Guard.instances config facts split.guard = .ok guarding ∧
      Guard.instances config facts split.rest = .ok resting ∧
      (∀ M : Set Triple, (∀ t, t ∈ guarding.toList ∨ t ∈ resting.toList → t ∈ M) → r.Closes config M →
        ∀ t ∈ D, t ∈ M) ∧
      (r.MatchesWhole facts →
        (∀ t, t ∈ guarding.toList ∨ t ∈ resting.toList → t ∈ facts.toList) ∧
        (facts.Positive ∨ (∃ F G, r.OpensNoScope F G) → ∀ store : Store,
          (∀ t ∈ facts.toList, t ∈ store.toList) →
          (∃ E, r.derive config store = .ok E ∧ ∀ t ∈ E, t ∈ store.toList) →
          ∀ t ∈ D, t ∈ store.toList)) := by
  obtain ⟨F, G, hF, hG, -, -⟩ := h.sides
  obtain ⟨split, guarding, resting, hsplit, hguard, hrest, closed⟩ :=
    deriveRecursive_closed h.not_negative hG hD
  refine ⟨split, guarding, resting, hsplit, hguard, hrest, closed, fun whole => ?_⟩
  obtain ⟨guard_read, rest_read⟩ := Guard.subset_of_split hG hF hsplit
  have known : ∀ t, t ∈ guarding.toList ∨ t ∈ resting.toList → t ∈ facts.toList := by
    rintro t (ht | ht)
    · exact Guard.mem_instances_of_whole (fun c hc => Formula.stored_of_mem_readClauses (guard_read c hc))
        (fun c hc => whole F hF c (guard_read c hc)) hguard ht
    · exact Guard.mem_instances_of_whole (fun c hc => Formula.stored_of_mem_readClauses (rest_read c hc))
        (fun c hc => whole F hF c (rest_read c hc)) hrest ht
  refine ⟨known, fun monotone store hsub closedOn t ht => ?_⟩
  rcases monotone with positive | ⟨F', G', opens⟩
  · refine (closed {t | t ∈ store.toList ∧ t.isPositive = true} (fun u hu => ?_) (h.closes closedOn) t ht).1
    exact ⟨hsub u (known u hu), positive u (known u hu)⟩
  · exact closed {t | t ∈ store.toList} (fun u hu => hsub u (known u hu)) (opens.closes closedOn) t ht

end Rule

end

namespace Rule

/-- Each saying quotes one triple, as the pattern does. -/
theorem deriveRecursive_sound_quoted :
    let fact (x p y : String) : Triple := ⟨.iri x, .iri p, .iri y⟩
    let r := ofLists [⟨.var "x", .iri "says", .quoting [⟨.var "y", .iri "knows", .var "x"⟩]⟩,
      ⟨.var "u", .iri "reach", .var "x"⟩] [⟨.var "u", .iri "reach", .var "y"⟩]
    let facts := (Graph.ofList [⟨.iri "a", .iri "says", .quoting [fact "b" "knows" "a"]⟩,
      ⟨.iri "b", .iri "says", .quoting [fact "c" "knows" "b"]⟩, fact "m" "reach" "a"]).toOption.getD ∅
    r.IsMonotone ∧ r.MatchesWhole (.graph facts) ∧ (Store.graph facts).Positive ∧
      ∃ D, (r.deriveRecursive {} (.graph facts)).result = .ok D ∧ fact "m" "reach" "c" ∈ D ∧
        ∀ store : Store, (∀ t ∈ facts.toList, t ∈ store.toList) →
          (∃ E, r.derive {} store = .ok E ∧ ∀ t ∈ E, t ∈ store.toList) → ∀ t ∈ D, t ∈ store.toList := by
  intro fact r facts
  have listed : (Store.graph facts).toList = [⟨.iri "a", .iri "says", .quoting [fact "b" "knows" "a"]⟩,
      ⟨.iri "b", .iri "says", .quoting [fact "c" "knows" "b"]⟩, fact "m" "reach" "a"] := by decide +kernel
  have mono : r.IsMonotone := by decide +kernel
  have whole : r.MatchesWhole (.graph facts) := by
    intro F hF c hc t ht s hm
    have read : ∀ c ∈ Formula.readClauses (r.condition.formula?.getD []),
        c = ⟨.var "u", .iri "reach", .var "x"⟩ ∨
          c = ⟨.var "x", .iri "says", .formula [⟨.var "y", .iri "knows", .var "x"⟩]⟩ := by decide +kernel
    rw [hF] at read
    rw [listed] at ht
    simp only [List.mem_cons, List.not_mem_nil, or_false] at ht
    rcases read c hc with rfl | rfl
    · exact Triple.substitute_of_flat (by decide) hm
    rw [Triple.Matches] at hm
    rcases ht with rfl | rfl | rfl
    · rw [Triple.substitute, Term.substitute_of_matches rfl hm.1, Term.substitute_of_matches rfl hm.2.1,
        Term.substitute_of_single (by decide) hm.2.2]
      rfl
    · rw [Triple.substitute, Term.substitute_of_matches rfl hm.1, Term.substitute_of_matches rfl hm.2.1,
        Term.substitute_of_single (by decide) hm.2.2]
      rfl
    · simp [fact, Term.Matches] at hm
  have positive : (Store.graph facts).Positive := by
    rw [Store.Positive, listed]
    decide
  have run : (r.deriveRecursive {} (.graph facts)).result.toOption.map
      (fun D => decide (fact "m" "reach" "c" ∈ D)) = some true := by decide +kernel
  obtain ⟨D, hD, hmem⟩ := exists_ok_of_map run
  obtain ⟨_, _, _, -, -, -, -, sound⟩ := deriveRecursive_sound mono {} (.graph facts) D hD
  exact ⟨mono, whole, positive, D, hD, of_decide_eq_true hmem, (sound whole).2 (.inl positive)⟩

/-- The saying quotes a triple more than the pattern. Its instance for the guard quotes the triple alone, is
no fact, and matches the other clause; so a link is derived, though a pass over the facts gives nothing. -/
theorem deriveRecursive_sound_false :
    ¬ ∀ (r : Rule) (config : Config) (facts : Graph) (D : OrderedSet Triple), r.IsMonotone →
      (r.deriveRecursive config (.graph facts)).result = .ok D → ∀ store : Store,
        (∀ t ∈ facts.toList, t ∈ store.toList) →
        (∃ E, r.derive config store = .ok E ∧ ∀ t ∈ E, t ∈ store.toList) → ∀ t ∈ D, t ∈ store.toList := by
  intro claim
  let said : Triple := ⟨.iri "b", .iri "p", .iri "c"⟩
  let r := ofLists [⟨.var "x", .iri "says", .quoting [⟨.var "y", .iri "p", .var "z"⟩]⟩,
    ⟨.var "x", .iri "says", .var "f"⟩, ⟨.var "u", .iri "link", .var "f"⟩] [⟨.var "u", .iri "link", .var "x"⟩]
  let facts := (Graph.ofList [⟨.iri "a", .iri "says", .quoting [said, ⟨.iri "d", .iri "q", .iri "e"⟩]⟩,
    ⟨.iri "m", .iri "link", .quoting [said]⟩]).toOption.getD ∅
  have mono : r.IsMonotone := by decide +kernel
  have invented : (r.deriveRecursive {} (.graph facts)).result.toOption.map (·.toList) =
      some [⟨.iri "m", .iri "link", .iri "a"⟩] := by decide +kernel
  have closed : (r.derive {} (.graph facts)).toOption.map (·.toList) = some [] := by decide +kernel
  have absent : ⟨.iri "m", .iri "link", .iri "a"⟩ ∉ facts.toList := by decide +kernel
  obtain ⟨D, hD, hmem⟩ := exists_ok_of_map invented
  obtain ⟨E, hE, hnone⟩ := exists_ok_of_map closed
  refine absent (claim r {} facts D mono hD (.graph facts) (fun _ ht => ht) ⟨E, hE, fun t ht => ?_⟩ _ ?_)
  · rw [OrderedSet.mem_def, hnone] at ht
    exact absurd ht List.not_mem_nil
  · rw [OrderedSet.mem_def, hmem]
    exact List.mem_singleton_self _

end Rule

end TripleChain
