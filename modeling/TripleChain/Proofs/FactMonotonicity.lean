import TripleChain.Proofs.DirectConsequences
import TripleChain.Proofs.Saturation

/-!
# More facts, no fewer inferences

Inference from more facts infers no less where no bound cuts it off and the rules that feed themselves
or each other are evaluated to a fixpoint (`infer_mono`). A fixpoint on more facts holds whatever is
derived from fewer, however far the rounds there go. Otherwise a fact more can end the rounds earlier
(`infer_mono_false`): triples that are facts already do not count as added.
-/

namespace TripleChain

section
variable {config : Config} {rules : List Rule} (mono : ∀ r ∈ rules, r.IsMonotone)
  (loops : LoopsExact rules)
include mono loops

theorem evaluable_of_loops : Evaluable rules where
  notNegative r hr := (mono r hr).not_negative
  recursive s hs kind r hr := by
    obtain ⟨F, G, h⟩ := loops.recursive s hs kind r hr
    exact ⟨F, G, h.plain.opensNoScope⟩

/-- The fixpoint on more facts is closed under the rules of the stratum, and holds the fewer facts;
how far the evaluation on these went does not matter. -/
theorem Stratum.loop_mono {s : Stratum} (hs : s ∈ stratify rules (.ofRules rules))
    (loop : s.kind = .recursive ∨ s.kind = .cyclic) {closure closure' : Graph}
    (hsub : ∀ t ∈ closure.toList, t ∈ closure'.toList) :
    Run.Yields (fun e => e.cuts = false) (s.derive config closure' rules (.ofRules rules)) fun found' =>
      ∀ grown' : Graph, (∀ t, t ∈ grown'.toList ↔ t ∈ closure'.toList ∨ t ∈ found') →
      (s.derive config closure rules (.ofRules rules)).Ensures fun found =>
        ∀ t ∈ found, t ∈ grown'.toList := by
  intro found' hfound' he grown' hgrown'
  have rule := evaluable_of_loops mono loops
  have saturated := loop_saturated loops hs loop rule.notNegative closure' found' hfound' he
  have confined : ∀ r ∈ s.rulesOf rules, r.Confined False config {t | t ∈ grown'.toList} := by
    intro r hr
    obtain ⟨F, G, plain⟩ := loops.plain hs loop hr
    exact plain.confined (plain.closes (saturated r hr grown' hgrown'))
  have within : Within {t | t ∈ grown'.toList} closure.toList :=
    fun t ht => (hgrown' t).2 (.inl (hsub t ht))
  exact (Stratum.derive_within False.elim rule hs confined closure within False.elim).ensures

theorem Stratum.derive_mono {s : Stratum} (hs : s ∈ stratify rules (.ofRules rules))
    {closure closure' : Graph} (hpos : (Store.graph closure').Positive)
    (hsub : ∀ t ∈ closure.toList, t ∈ closure'.toList) :
    Run.Yields (fun e => e.cuts = false) (s.derive config closure' rules (.ofRules rules)) fun found' =>
      ∀ grown' : Graph, (∀ t, t ∈ grown'.toList ↔ t ∈ closure'.toList ∨ t ∈ found') →
      (s.derive config closure rules (.ofRules rules)).Ensures fun found =>
        ∀ t ∈ found, t ∈ grown'.toList := by
  have rule := evaluable_of_loops mono loops
  rcases Stratum.derive_cases rule.notNegative hs config with ⟨-, r, one, -, eq⟩ | ⟨kind, -⟩ | ⟨kind, -⟩
  · have hr : r ∈ rules := mem_of_mem_rulesOf (s := s) (one ▸ List.mem_singleton_self r)
    rw [eq, eq]
    have hsub' : ∀ t ∈ (Store.graph closure).toList, t ∈ (Store.graph closure').toList := hsub
    refine Run.yields_lift fun found' hfound' grown' hgrown' found hfound t ht => ?_
    obtain ⟨E, hE, sub⟩ := (mono r hr).derive_subset (fun t ht => hpos t (hsub' t ht)) hsub' hfound'
    obtain rfl : E = found := Except.ok.inj (hE.symm.trans hfound)
    exact (hgrown' t).2 (.inr (sub t ht))
  · exact loop_mono mono loops hs (.inl kind) hsub
  · exact loop_mono mono loops hs (.inr kind) hsub

theorem inferStrata_mono (facts' : Graph) (strata : List Stratum)
    (hstrata : ∀ s ∈ strata, s ∈ stratify rules (.ofRules rules)) (level : Nat)
    (closure closure' : Graph) (derived derived' : OrderedSet Triple)
    (hpos : (Store.graph closure').Positive) (hsub : ∀ t ∈ closure.toList, t ∈ closure'.toList)
    (hderived : ∀ t ∈ derived, t ∈ closure'.toList)
    (hclosure' : ∀ t ∈ closure'.toList, t ∈ derived' ∨ t ∈ facts'.toList) :
    Run.Yields (fun e => e.cuts = false)
      (inferStrata config rules (.ofRules rules) level strata closure' derived') fun D' =>
        (inferStrata config rules (.ofRules rules) level strata closure derived).Ensures fun D =>
          ∀ t ∈ D, t ∈ D' ∨ t ∈ facts'.toList := by
  induction strata generalizing level closure closure' derived derived' with
  | nil => exact Run.yields_pure (Run.ensures_pure fun t ht => hclosure' t (hderived t ht))
  | cons s strata ih =>
    have here := hstrata s (List.mem_cons_self ..)
    refine yields_inferStrata_cons (Stratum.derive_mono mono loops here hpos hsub)
      fun found' grown' more hfound' hgrown' => ?_
    -- Nothing is known of the events of the run on fewer facts, so it is followed by its results.
    intro D' hD' he D hD
    obtain ⟨found, grown, hfound, hgrown, hD⟩ := result_inferStrata_cons hD
    have sub := more grown' hgrown' found hfound
    have hpos' : (Store.graph grown').Positive := fun t ht => ((hgrown' t).1 ht).elim (hpos t)
      (Stratum.derive_positive mono (evaluable_of_loops mono loops) here hpos found' hfound' t)
    refine ih (fun q hq => hstrata q (List.mem_cons_of_mem _ hq)) (level + 1) grown grown' _ _ hpos'
      (fun t ht => ?_) (fun t ht => ?_) (fun t ht => ?_) D' hD' he D hD
    · rcases (hgrown t).1 ht with ht | ht
      · exact (hgrown' t).2 (.inl (hsub t ht))
      · exact sub t ht
    · rcases OrderedSet.mem_insertAll.1 ht with ht | ht
      · exact (hgrown' t).2 (.inl (hderived t ht))
      · exact sub t ht
    · rcases (hgrown' t).1 ht with ht | ht
      · exact (hclosure' t ht).imp (fun h => OrderedSet.mem_insertAll.2 (.inl h)) id
      · exact .inl (OrderedSet.mem_insertAll.2 (.inr ht))

end

/-- What is inferred from some facts is inferred from more facts, or is among them, where the rules
that feed themselves or each other are evaluated to a fixpoint and no event of the run on more facts
tells of a bound that may have cut it off. -/
theorem infer_mono (config : Config) (facts facts' : List Triple) (hsub : ∀ t ∈ facts, t ∈ facts')
    (positive : ∀ t ∈ facts', t.isPositive = true) (rules : List Rule)
    (mono : ∀ r ∈ rules, r.IsMonotone) (loops : LoopsExact rules) (D D' : OrderedSet Triple)
    (hD : (infer facts rules config).result = .ok D)
    (hD' : (infer facts' rules config).result = .ok D')
    (uncut : ∀ e ∈ (infer facts' rules config).events, e.cuts = false) :
    ∀ t ∈ D, t ∈ D' ∨ t ∈ facts' := by
  have run : Run.Yields (fun e => e.cuts = false) (infer facts' rules config) fun D' =>
      (infer facts rules config).Ensures fun D => ∀ t ∈ D, t ∈ D' ∨ t ∈ facts' := by
    unfold infer
    refine (Run.yields_lift fun _ h => h).bind fun g' hg' => ?_
    intro D' hD' he D hD
    rw [Run.result_bind] at hD
    obtain ⟨g, hg, hD⟩ := bind_eq_ok.1 hD
    have hpos : (Store.graph g').Positive := fun t ht => positive t ((Graph.mem_ofList hg').1 ht)
    have within : ∀ t ∈ g.toList, t ∈ g'.toList :=
      fun t ht => (Graph.mem_ofList hg').2 (hsub t ((Graph.mem_ofList hg).1 ht))
    intro t ht
    rw [← Graph.mem_ofList hg']
    exact inferStrata_mono mono loops g' _ (fun _ hs => hs) 0 g g' ∅ ∅ hpos within
      (fun t ht => absurd ht List.not_mem_nil) (fun t ht => .inr ht) D' hD' he D hD t ht
  exact run D' hD' uncut D hD

/-- A link more leaves the paths that are there. -/
theorem infer_mono_reach :
    let link (x y : String) : Triple := ⟨.iri x, .iri "next", .iri y⟩
    let path (x y : String) : Triple := ⟨.iri x, .iri "reach", .iri y⟩
    let facts := [link "a" "b", link "b" "c"]
    let facts' := facts ++ [link "c" "a"]
    ∃ D D', (infer facts reachRules).result = .ok D ∧ (infer facts' reachRules).result = .ok D' ∧
      path "a" "c" ∈ D ∧ path "a" "c" ∈ D' := by
  intro link path facts facts'
  have hrun : (infer facts reachRules).result.toOption.map (·.toList) =
      some [path "a" "b", path "b" "c", path "a" "c"] := by decide +kernel
  have hrun' : (infer facts' reachRules).result.toOption.map (·.size) = some 9 := by decide +kernel
  have uncut : (infer facts' reachRules).events.all (fun e => !e.cuts) = true := by decide +kernel
  obtain ⟨D, hD, found⟩ := exists_ok_of_map hrun
  obtain ⟨D', hD', -⟩ := exists_ok_of_map hrun'
  have hpath : path "a" "c" ∈ D := by
    rw [OrderedSet.mem_def, found]
    decide
  have more := infer_mono {} facts facts' (by decide) (by decide +kernel) reachRules
    (by decide +kernel) exact_reachRules.loopsExact D D' hD hD'
    (fun e he => by simpa using List.all_eq_true.1 uncut e he) _ hpath
  exact ⟨D, D', hD, hD', hpath, more.resolve_right (by decide)⟩

/-- Marks are passed on along `g` and `h` from a node that has both. The fact that `n` has the first
mark ends the rounds one round earlier, before `z` is marked. -/
theorem infer_mono_false :
    ¬ ∀ (facts facts' : List Triple), (∀ t ∈ facts, t ∈ facts') → ∀ rules : List Rule,
      (∀ r ∈ rules, r.IsMonotone) → (∀ t ∈ facts', t.isPositive = true) → ∀ D D',
      (infer facts rules).result = .ok D → (infer facts' rules).result = .ok D' →
      ∀ t ∈ D, t ∈ D' ∨ t ∈ facts' := by
  intro claim
  let mark (p : String) (x : Term) : Triple := ⟨x, .iri p, .iri "o"⟩
  let link (p : String) (x y : Term) : Triple := ⟨x, .iri p, y⟩
  let r := Rule.ofLists [mark "p" (.var "x"), mark "q" (.var "x"), link "g" (.var "x") (.var "u"),
    link "h" (.var "x") (.var "v")] [mark "p" (.var "u"), mark "q" (.var "v")]
  let facts := [mark "p" (.iri "one"), mark "q" (.iri "one"), link "g" (.iri "one") (.iri "a"),
    link "h" (.iri "one") (.iri "a"), link "h" (.iri "one") (.iri "n"), link "g" (.iri "a") (.iri "n"),
    link "h" (.iri "a") (.iri "a"), link "g" (.iri "n") (.iri "z"), link "h" (.iri "n") (.iri "z")]
  let facts' := facts ++ [mark "p" (.iri "n")]
  have mono : ∀ q ∈ [r], q.IsMonotone := by decide +kernel
  let lost := mark "p" (.iri "z")
  have hrun : (infer facts [r]).result.toOption.map (·.toList.contains lost) = some true := by
    decide +kernel
  have hrun' : (infer facts' [r]).result.toOption.map (fun D => (D.toList ++ facts').contains lost) =
      some false := by decide +kernel
  obtain ⟨D, hD, found⟩ := exists_ok_of_map hrun
  obtain ⟨D', hD', none⟩ := exists_ok_of_map hrun'
  have kept := claim facts facts' (by decide) [r] mono (by decide +kernel) D D' hD hD' lost
    (List.contains_iff_mem.1 found)
  rw [List.contains_iff_mem.2 (List.mem_append.2 kept)] at none
  cases none

end TripleChain
