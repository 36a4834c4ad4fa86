import TripleChain.Proofs.Monotone
import TripleChain.Proofs.Steps

/-!
# Direct consequences

Where no bound is so small that an evaluation does not even begin, inference derives whatever a pass
of one of the rules derives from the facts (`infer_direct`). The bound of a guarded rule counts the
instances of the guard by the clauses of the guard; so it is zero where a guard of several clauses has
fewer instances than clauses, and the consequences are lost (`infer_direct_false`).
-/

namespace TripleChain

/-- `D` has all that the rule derives from the facts. -/
def Rule.DerivedIn (r : Rule) (config : Config) (facts : Graph) (D : OrderedSet Triple) : Prop :=
  ∃ E, r.derive config (.graph facts) = .ok E ∧ ∀ t ∈ E, t ∈ D

section
variable {config : Config} {ok : Event → Prop}

/-! ## Facts without negation -/

theorem Rule.IsMonotone.confined {r : Rule} (h : r.IsMonotone) :
    r.Confined False config {t | t.isPositive = true} where
  closes g D hg hD := by
    have hpos : (Store.graph g).Positive := hg
    exact h.positive_derive hpos hD
  instances F clauses hF sub facts g hf hg := by
    obtain ⟨F', -, hF', -, hpos, -⟩ := h.sides
    obtain rfl : F = F' := Term.formula.inj (hF.symm.trans hF')
    have positive : (Rule.ofLists clauses clauses).IsMonotone :=
      Rule.isMonotone_ofLists fun c hc => hpos c (sub c hc).1
    unfold Guard.instances at hg
    split at hg
    · cases hg
      exact fun t ht => absurd ht List.not_mem_nil
    · obtain ⟨D, hD, hg⟩ := bind_eq_ok.1 hg
      exact fun t ht => positive.positive_derive hf hD t ((Graph.mem_ofList hg).1 ht)
  plain := False.elim

/-- What is derived from more facts holds what is derived from fewer. -/
theorem Rule.IsMonotone.derivedIn {r : Rule} (h : r.IsMonotone) {facts facts' : Graph}
    (hpos : (Store.graph facts').Positive) (hsub : ∀ t ∈ facts.toList, t ∈ facts'.toList)
    {D D' : OrderedSet Triple} (hD : r.DerivedIn config facts' D) (hD' : ∀ t ∈ D, t ∈ D') :
    r.DerivedIn config facts D' := by
  obtain ⟨E', hE', sub'⟩ := hD
  have within : ∀ t ∈ (Store.graph facts).toList, t ∈ (Store.graph facts').toList := hsub
  obtain ⟨E, hE, sub⟩ := h.derive_subset (fun t ht => hpos t (within t ht)) within hE'
  exact ⟨E, hE, fun t ht => hD' t (sub' t (sub t ht))⟩

/-! ## The first round -/

theorem Rule.rounds_keeps {r : Rule} {facts : Store} {bound : Nat} (left : Nat) (store : Graph)
    (derived : OrderedSet Triple) :
    Run.Yields ok (r.rounds config facts bound left store derived) fun D => ∀ t ∈ derived, t ∈ D := by
  induction left generalizing store derived with
  | zero => exact Rule.yields_rounds_zero fun _ t ht => ht
  | succ left ih =>
    refine Rule.yields_rounds_succ (fun found _ _ t ht => OrderedSet.mem_insertAll.2 (.inl ht)) ?_
    intro found grown _ _ D hD he t ht
    exact ih grown _ D hD he t (OrderedSet.mem_insertAll.2 (.inl ht))

theorem Rule.rounds_first {r : Rule} {facts : Store} {bound : Nat} (left : Nat) (store : Graph)
    (derived : OrderedSet Triple) :
    Run.Yields ok (r.rounds config facts bound (left + 1) store derived) (r.DerivedIn config store) := by
  refine Rule.yields_rounds_succ (fun found hfound _ => ?_) fun found grown hfound _ D hD he => ?_
  · exact ⟨found, hfound, fun t ht => OrderedSet.mem_insertAll.2 (.inr ht)⟩
  · refine ⟨found, hfound, fun t ht => ?_⟩
    exact Rule.rounds_keeps left grown _ D hD he t (OrderedSet.mem_insertAll.2 (.inr ht))

/-- A rule that feeds itself derives in its first round what it derives from the facts. -/
theorem Rule.deriveRecursive_direct {r : Rule} {F G : Formula} (opens : r.OpensNoScope F G)
    (facts : Graph) : Run.Yields (fun e => e.starves = false)
      (r.deriveRecursive config (.graph facts)) (r.DerivedIn config facts) := by
  obtain ⟨E, hE, -⟩ := opens.derive_eq_ok config (.graph facts)
  refine opens.yields_deriveRecursive fun split guarding resting start hsplit hguard hrest hstart => ?_
  have parts := Guard.parts_of_split opens.conclusion opens.condition opens.scopeFree hsplit
  intro bound hfed
  cases hbound : bound with
  | zero =>
    refine Rule.yields_rounds_zero fun _ => ⟨E, hE, fun t ht => ?_⟩
    obtain ⟨s, hs, -⟩ := (opens.mem_derive hE).1 ht
    have hnone : split.guard.isEmpty = false ∧ guarding.size = 0 := by
      simpa [Event.starves, hbound] using hfed
    exact absurd hs (Guard.not_mem_solutions parts hnone.1 hguard hnone.2 s)
  | succ left =>
    intro D hD he
    obtain ⟨E', hE', sub⟩ := Rule.rounds_first left start ∅ D hD he
    refine ⟨E, hE, fun t ht => sub t ?_⟩
    have known : ∀ u, u ∈ guarding.toList ∨ u ∈ resting.toList → u ∈ (Store.graph start).toList :=
      fun u hu => (hstart u).2 hu
    exact Rule.derive_instances opens parts hguard hrest known hE hE' ht

/-! ## The first pass -/

namespace Cycle

variable {rules : List Rule} {g : DependencyGraph}

theorem firePending_keeps (pass : Nat) (pending : List Nat) (s : State) :
    Run.Yields ok (firePending config rules g pass pending s) fun s' => ∀ t ∈ s.derived, t ∈ s'.derived := by
  induction pending generalizing s with
  | nil => exact Run.yields_pure fun t ht => ht
  | cons i pending ih =>
    refine yields_firePending_cons (fun _ => ih s) fun r s₁ _ fired => ?_
    obtain ⟨found, -, -, hderived⟩ := fired.found
    intro s' hs' he t ht
    exact ih s₁ s' hs' he t ((hderived t).2 (.inl ht))

theorem passes_keeps (order : List Nat) (bound left : Nat) (pending : List Nat) (s : State) :
    Run.Yields ok (passes config rules g order bound left pending s) fun D => ∀ t ∈ s.derived, t ∈ D := by
  refine yields_passes (I := fun _ s' => ∀ t ∈ s.derived, t ∈ s'.derived) ?_ (fun _ h => h)
    (fun _ _ _ h _ => h) left pending s fun t ht => ht
  intro n i pending s₁ h s' hs' he t ht
  exact firePending_keeps n (i :: pending) { s₁ with triggered := [] } s' hs' he t (h t ht)

/-- Every rule that is pending derives what it derives from the facts of the start. -/
theorem firePending_direct (mono : ∀ r ∈ rules, r.IsMonotone) (pass : Nat) (pending : List Nat)
    (s : State) (hpos : (Store.graph s.store).Positive) :
    Run.Yields ok (firePending config rules g pass pending s) fun s' =>
      ∀ i ∈ pending, ∀ r, rules[i]? = some r → r.DerivedIn config s.store s'.derived := by
  induction pending generalizing s with
  | nil => exact Run.yields_pure fun i hi => absurd hi List.not_mem_nil
  | cons i pending ih =>
    refine yields_firePending_cons (fun none => ?_) fun r s₁ hi fired => ?_
    · intro s' hs' he j hj r hr
      rcases List.mem_cons.1 hj with rfl | hj
      · rw [none] at hr
        cases hr
      · exact ih s hpos s' hs' he j hj r hr
    · obtain ⟨found, hfound, hstore, hderived⟩ := fired.found
      have hmono := mono r (List.mem_of_getElem? hi)
      have hgrown : ∀ t ∈ s.store.toList, t ∈ s₁.store.toList := fun t ht => (hstore t).2 (.inl ht)
      have hpos₁ : (Store.graph s₁.store).Positive := by
        intro t ht
        rcases (hstore t).1 ht with ht | ht
        · exact hpos t ht
        · exact hmono.positive_derive hpos hfound t ht
      intro s' hs' he j hj q hq
      rcases List.mem_cons.1 hj with rfl | hj
      · obtain rfl := Option.some.inj (hi.symm.trans hq)
        refine ⟨found, hfound, fun t ht => ?_⟩
        exact firePending_keeps pass pending s₁ s' hs' he t ((hderived t).2 (.inr ht))
      -- A rule that is fired later reads more than the state of the start.
      · have later := ih s₁ hpos₁ s' hs' he j hj q hq
        exact (mono q (List.mem_of_getElem? hq)).derivedIn hpos₁ hgrown later fun t ht => ht

theorem derive_direct (mono : ∀ r ∈ rules, r.IsMonotone) (members : List Nat) (facts : Graph)
    (hpos : (Store.graph facts).Positive) :
    Run.Yields (fun e => e.starves = false) (derive config facts rules g members) fun D =>
      ∀ r ∈ members.filterMap fun i => rules[i]?, r.DerivedIn config facts D := by
  have pos : ∀ r ∈ members.filterMap fun i => rules[i]?, r.isNegative = false := by
    intro r h
    obtain ⟨i, -, hi⟩ := List.mem_filterMap.1 h
    exact (mono r (List.mem_of_getElem? hi)).not_negative
  refine yields_derive pos (fun none r h => ?_) fun walk order bound horder hfed => ?_
  · rw [none] at h
    exact absurd h List.not_mem_nil
  obtain ⟨left, rfl⟩ : ∃ left, bound = left + 1 :=
    Nat.exists_eq_succ_of_ne_zero (by simpa [Event.starves] using hfed)
  cases order with
  | nil =>
    refine fun D _ _ r h => ?_
    obtain ⟨i, hi, -⟩ := List.mem_filterMap.1 h
    exact absurd ((horder i).2 hi) List.not_mem_nil
  | cons i pending =>
    unfold passes
    refine (firePending_direct mono _ (i :: pending) ⟨facts, ∅, []⟩ hpos).bind fun s h => ?_
    intro D hD he r hr
    obtain ⟨j, hj, hjr⟩ := List.mem_filterMap.1 hr
    obtain ⟨E, hE, sub⟩ := h j ((horder j).2 hj) r hjr
    exact ⟨E, hE, fun t ht => passes_keeps _ _ _ _ s D hD he t (sub t ht)⟩

end Cycle

/-! ## All strata -/

variable {rules : List Rule}

theorem Stratum.derive_direct (mono : ∀ r ∈ rules, r.IsMonotone) (rule : Evaluable rules)
    {s : Stratum} (hs : s ∈ stratify rules (.ofRules rules)) (facts : Graph)
    (hpos : (Store.graph facts).Positive) :
    Run.Yields (fun e => e.starves = false) (s.derive config facts rules (.ofRules rules)) fun D =>
      ∀ r ∈ s.rulesOf rules, r.DerivedIn config facts D := by
  rcases Stratum.derive_cases rule.notNegative hs config with ⟨-, r, one, -, eq⟩ |
    ⟨kind, r, one, -, eq⟩ | ⟨-, eq⟩
  · rw [eq, one]
    refine Run.yields_lift fun D hD q hq => ?_
    rw [List.mem_singleton.1 hq]
    exact ⟨D, hD, fun t ht => ht⟩
  · rw [eq]
    have hr : r ∈ s.rulesOf rules := one ▸ List.mem_singleton_self r
    obtain ⟨F, G, opens⟩ := rule.recursive s hs kind r hr
    intro D hD he q hq
    rw [one, List.mem_singleton] at hq
    rw [hq]
    exact Rule.deriveRecursive_direct opens facts D hD he
  · rw [eq]
    exact Cycle.derive_direct mono s.members facts hpos

theorem Stratum.derive_positive (mono : ∀ r ∈ rules, r.IsMonotone) (rule : Evaluable rules)
    {s : Stratum} (hs : s ∈ stratify rules (.ofRules rules)) {facts : Graph}
    (hpos : (Store.graph facts).Positive) :
    (s.derive config facts rules (.ofRules rules)).Ensures fun D => ∀ t ∈ D, t.isPositive = true := by
  have confined : ∀ r ∈ s.rulesOf rules, r.Confined False config {t | t.isPositive = true} :=
    fun r h => (mono r (Stratum.mem_of_mem_rulesOf h)).confined
  exact (Stratum.derive_within False.elim rule hs confined facts hpos False.elim).ensures

theorem inferStrata_direct (mono : ∀ r ∈ rules, r.IsMonotone) (rule : Evaluable rules) (facts : Graph)
    (strata : List Stratum) (hstrata : ∀ s ∈ strata, s ∈ stratify rules (.ofRules rules)) (level : Nat)
    (closure : Graph) (derived : OrderedSet Triple) (hsub : ∀ t ∈ facts.toList, t ∈ closure.toList)
    (hpos : (Store.graph closure).Positive) :
    Run.Yields (fun e => e.starves = false)
      (inferStrata config rules (.ofRules rules) level strata closure derived) fun D =>
        (∀ t ∈ derived, t ∈ D) ∧ ∀ s ∈ strata, ∀ r ∈ s.rulesOf rules, r.DerivedIn config facts D := by
  induction strata generalizing level closure derived with
  | nil => exact Run.yields_pure ⟨fun t ht => ht, fun s hs => absurd hs List.not_mem_nil⟩
  | cons s strata ih =>
    have here := hstrata s (List.mem_cons_self ..)
    refine yields_inferStrata_cons (Stratum.derive_direct mono rule here closure hpos)
      fun found grown direct hfound hgrown => ?_
    have hpos' : (Store.graph grown).Positive := fun t ht =>
      ((hgrown t).1 ht).elim (hpos t) (Stratum.derive_positive mono rule here hpos found hfound t)
    intro D hD he
    obtain ⟨keeps, rest⟩ := ih (fun s hs => hstrata s (List.mem_cons_of_mem _ hs)) (level + 1) grown
      (derived.insertAll found.toList) (fun t ht => (hgrown t).2 (.inl (hsub t ht))) hpos' D hD he
    refine ⟨fun t ht => keeps t (OrderedSet.mem_insertAll.2 (.inl ht)), fun q hq r hr => ?_⟩
    rcases List.mem_cons.1 hq with rfl | hq
    · exact (mono r (Stratum.mem_of_mem_rulesOf hr)).derivedIn hpos hsub (direct r hr) fun t ht =>
        keeps t (OrderedSet.mem_insertAll.2 (.inr ht))
    · exact rest q hq r hr

end

/-- No direct consequence is lost unless a bound is zero: where the rules that are evaluated by rounds
open no scopes, and no event tells of such a rule without a round or of a cycle without a pass, all
that a pass of a rule derives from the facts is inferred. -/
theorem infer_direct (config : Config) (facts : List Triple) (rules : List Rule)
    (positive : ∀ t ∈ facts, t.isPositive = true) (mono : ∀ r ∈ rules, r.IsMonotone)
    (opens : ∀ s ∈ stratify rules (.ofRules rules), s.kind = .recursive →
      ∀ r ∈ s.rulesOf rules, ∃ F G, r.OpensNoScope F G)
    (D : OrderedSet Triple) (hD : (infer facts rules config).result = .ok D)
    (fed : ∀ e ∈ (infer facts rules config).events, e.starves = false) :
    ∃ g, Graph.ofList facts = .ok g ∧ ∀ r ∈ rules, ∃ E, r.derive config (.graph g) = .ok E ∧
      ∀ t ∈ E, t ∈ D := by
  have rule : Evaluable rules := ⟨fun r h => (mono r h).not_negative, opens⟩
  have run : Run.Yields (fun e => e.starves = false) (infer facts rules config) fun D =>
      ∃ g, Graph.ofList facts = .ok g ∧ ∀ r ∈ rules, r.DerivedIn config g D := by
    unfold infer
    refine (Run.yields_lift fun _ h => h).bind fun g hg => ?_
    have hpos : (Store.graph g).Positive := fun t ht => positive t ((Graph.mem_ofList hg).1 ht)
    intro D hD he
    obtain ⟨-, direct⟩ := inferStrata_direct mono rule g _ (fun _ hs => hs) 0 g ∅ (fun t ht => ht) hpos
      D hD he
    refine ⟨g, hg, fun r hr => ?_⟩
    obtain ⟨s, hs, i, hi, hri⟩ := exists_stratum hr
    exact direct s hs r (Stratum.mem_rulesOf.2 ⟨i, hi, hri⟩)
  exact run D hD fed

/-- Paths are made longer at the end, by a rule that feeds itself. -/
theorem infer_direct_reach :
    let link (x y : Term) : Triple := ⟨x, .iri "next", y⟩
    let path (x y : Term) : Triple := ⟨x, .iri "reach", y⟩
    let start := Rule.ofLists [link (.var "x") (.var "y")] [path (.var "x") (.var "y")]
    let step := Rule.ofLists [path (.var "x") (.var "y"), link (.var "y") (.var "z")]
      [path (.var "x") (.var "z")]
    let facts := [link (.iri "b") (.iri "c"), path (.iri "a") (.iri "b")]
    ∃ D, (infer facts [start, step]).result = .ok D ∧ path (.iri "b") (.iri "c") ∈ D ∧
      path (.iri "a") (.iri "c") ∈ D := by
  intro link path start step facts
  have mono : ∀ r ∈ [start, step], r.IsMonotone := by decide +kernel
  have opens : ∀ s ∈ stratify [start, step] (.ofRules [start, step]), s.kind = .recursive →
      ∀ r ∈ s.rulesOf [start, step], ∃ F G, r.OpensNoScope F G := by
    intro s _ _ r hr
    have hr := Stratum.mem_of_mem_rulesOf hr
    simp only [List.mem_cons, List.not_mem_nil, or_false] at hr
    rcases hr with rfl | rfl
    · exact ⟨_, _, rfl, rfl, by decide⟩
    · exact ⟨_, _, rfl, rfl, by decide⟩
  have fed : (infer facts [start, step]).events.all (fun e => !e.starves) = true := by decide +kernel
  have hrun : (infer facts [start, step]).result.toOption.map (·.size) = some 2 := by decide +kernel
  obtain ⟨D, hD, -⟩ := exists_ok_of_map hrun
  obtain ⟨g, hg, direct⟩ := infer_direct {} facts [start, step] (by decide +kernel) mono opens D hD
    fun e he => by simpa using List.all_eq_true.1 fed e he
  have passes : ∀ r ∈ [start, step], ∀ ts, ((Graph.ofList facts).bind fun g =>
      (r.derive {} (.graph g)).map (·.toList)).toOption = some ts → ∀ t ∈ ts, t ∈ D := by
    intro r hr ts hts t ht
    obtain ⟨E, hE, sub⟩ := direct r hr
    rw [hg, ok_bind, hE] at hts
    have found : E.toList = ts := Option.some.inj hts
    exact sub t (OrderedSet.mem_def.2 (found ▸ ht))
  exact ⟨D, hD, passes start (by simp) [path (.iri "b") (.iri "c")] (by decide +kernel) _ (by simp),
    passes step (by simp) [path (.iri "a") (.iri "c")] (by decide +kernel) _ (by simp)⟩

/-- The two clauses on links have one instance between them, and so the rule has no round. -/
theorem infer_direct_false :
    ¬ ∀ (facts : List Triple) (rules : List Rule), (∀ r ∈ rules, r.IsMonotone) →
      (∀ t ∈ facts, t.isPositive = true) → ∀ g, Graph.ofList facts = .ok g → ∀ D,
      (infer facts rules).result = .ok D → ∀ r ∈ rules, ∀ E, r.derive {} (.graph g) = .ok E →
      ∀ t ∈ E, t ∈ D := by
  intro claim
  let link (x y : Term) : Triple := ⟨x, .iri "link", y⟩
  let reach (x y : Term) : Triple := ⟨x, .iri "reach", y⟩
  let r := Rule.ofLists [link (.var "a") (.var "b"), link (.var "c") (.var "d"),
    reach (.var "a") (.var "d")] [reach (.var "b") (.var "a")]
  let facts := [link (.iri "x") (.iri "y"), reach (.iri "x") (.iri "y")]
  have mono : ∀ q ∈ [r], q.IsMonotone := by decide +kernel
  have hrun : (infer facts [r]).result.toOption.map (·.toList) = some [] := by decide +kernel
  have hpass : ((Graph.ofList facts).bind fun g => r.derive {} (.graph g)).toOption.map (·.toList) =
      some [reach (.iri "y") (.iri "x")] := by decide +kernel
  obtain ⟨D, hD, none⟩ := exists_ok_of_map hrun
  obtain ⟨E, hE, found⟩ := exists_ok_of_map hpass
  obtain ⟨g, hg, hE⟩ := bind_eq_ok.1 hE
  have lost := claim facts [r] mono (by decide +kernel) g hg D hD r (List.mem_singleton_self r) E hE
    (reach (.iri "y") (.iri "x"))
  rw [OrderedSet.mem_def, OrderedSet.mem_def, found, none] at lost
  exact absurd (lost (List.mem_singleton_self _)) List.not_mem_nil

end TripleChain
