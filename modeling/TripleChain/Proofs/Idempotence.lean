import TripleChain.Proofs.Monotone
import TripleChain.Proofs.Saturation
import TripleChain.Reasoner

/-!
# Running again

Where no edge is missed, rules that feed themselves do so through one clause, and no bound cuts a run
off, the facts are closed under the rules after the run, and running again adds nothing
(`Reasoner.run_run`). A missed edge puts a rule before one that feeds it, and its conclusions are left
to the second run (`Reasoner.run_run_false`).
-/

namespace TripleChain

section
variable {config : Config} {rules : List Rule}

/-! ## One stratum after the other -/

theorem Rule.IsPlain.closedOn_congr {r : Rule} {F G : Formula} (h : r.IsPlain F G) {g g' : Graph}
    (same : ∀ t, t ∈ g'.toList ↔ t ∈ g.toList) (closed : r.ClosedOn config g) : r.ClosedOn config g' :=
  fun E hE t ht => (same t).2 (h.closes closed g' E (fun u hu => (same u).1 hu) hE t ht)

theorem Stratum.simple_saturated {ok : Event → Prop} (exact : Exact rules) {s : Stratum}
    (hs : s ∈ stratify rules (.ofRules rules)) (simple : s.kind = .simple) (facts : Graph) :
    Run.Yields ok (s.derive config facts rules (.ofRules rules)) fun D =>
      ∀ r ∈ s.rulesOf rules, r.SaturatedBy config facts D := by
  have pos := (evaluable_of_plain exact.plain).notNegative
  obtain ⟨r, one, none, eq⟩ := Stratum.derive_of_simple pos hs simple config
  have hr : r ∈ rules := mem_of_mem_rulesOf (s := s) (one ▸ List.mem_singleton_self r)
  obtain ⟨F, G, plain⟩ := exact.plain r hr
  rw [eq, one]
  refine Run.yields_lift fun D hD q hq => ?_
  rw [List.mem_singleton.1 hq]
  exact plain.derive_saturated (exact.edges r hr r hr) none hD

theorem Stratum.derive_saturated (exact : Exact rules) {s : Stratum}
    (hs : s ∈ stratify rules (.ofRules rules)) (facts : Graph) :
    Run.Yields (fun e => e.cuts = false) (s.derive config facts rules (.ofRules rules)) fun D =>
      ∀ r ∈ s.rulesOf rules, r.SaturatedBy config facts D := by
  have pos := (evaluable_of_plain exact.plain).notNegative
  rcases Stratum.derive_cases pos hs config with ⟨kind, -⟩ | ⟨kind, -⟩ | ⟨kind, -⟩
  · exact simple_saturated exact hs kind facts
  · exact loop_saturated exact.loopsExact hs (.inl kind) pos facts
  · exact loop_saturated exact.loopsExact hs (.inr kind) pos facts

/-- What a stratum adds leaves the rules closed that it does not feed. -/
theorem Stratum.closedOn_grown (exact : Exact rules) {s : Stratum}
    (hs : s ∈ stratify rules (.ofRules rules)) {consumer : Rule} (hc : consumer ∈ rules)
    (unfed : ∀ p ∈ s.rulesOf rules, conclusionFeeds p.conclusion consumer.condition = false)
    {closure : Graph} (closed : consumer.ClosedOn config closure) {found : OrderedSet Triple}
    (hfound : (s.derive config closure rules (.ofRules rules)).result = .ok found) {grown : Graph}
    (hgrown : ∀ t, t ∈ grown.toList ↔ t ∈ closure.toList ∨ t ∈ found) :
    consumer.ClosedOn config grown := by
  let fired : Set Triple := {t | t ∈ closure.toList ∨ ∃ p ∈ s.rulesOf rules, ∃ m, p.Fires m t}
  have confined : ∀ p ∈ s.rulesOf rules, p.Confined False config fired := by
    intro p hp
    obtain ⟨F, G, plain⟩ := exact.plain p (Stratum.mem_of_mem_rulesOf hp)
    exact plain.confined fun g D _ hD t ht => .inr ⟨p, hp, plain.fires_of_derive hD ht⟩
  have within : Within fired found.toList := (Stratum.derive_within False.elim
    (evaluable_of_plain exact.plain) hs confined closure (fun t ht => .inl ht)
    False.elim).ensures found hfound
  obtain ⟨F, G, plain⟩ := exact.plain consumer hc
  obtain ⟨E', hE', -⟩ := Rule.derive_eq_ok plain config (.graph closure)
  intro E hE t ht
  refine (hgrown t).2 (.inl (closed E' hE' t (plain.derive_of_unread (fun u hu => ?_) hE' hE ht)))
  rcases (hgrown u).1 hu with hu | hu
  · exact .inl hu
  refine (within u hu).imp id ?_
  rintro ⟨p, hp, m, hm⟩
  have hp' := Stratum.mem_of_mem_rulesOf hp
  obtain ⟨F', G', plain'⟩ := exact.plain p hp'
  exact plain.unread_of_fires plain'.conclusion (exact.edges p hp' consumer hc) (unfed p hp) hm

theorem inferStrata_saturated {ok : Event → Prop} (exact : Exact rules) (facts : Graph)
    (strata : List Stratum) (hstrata : ∀ s ∈ strata, s ∈ stratify rules (.ofRules rules))
    (saturates : ∀ s ∈ strata, ∀ closure, Run.Yields ok (s.derive config closure rules (.ofRules rules))
      fun D => ∀ r ∈ s.rulesOf rules, r.SaturatedBy config closure D)
    (ordered : strata.Pairwise fun s later => ∀ c ∈ s.rulesOf rules, ∀ p ∈ later.rulesOf rules,
      conclusionFeeds p.conclusion c.condition = false)
    (done : List Rule) (hdone : ∀ c ∈ done, c ∈ rules)
    (later : ∀ c ∈ done, ∀ s ∈ strata, ∀ p ∈ s.rulesOf rules,
      conclusionFeeds p.conclusion c.condition = false)
    (level : Nat) (closure : Graph) (derived : OrderedSet Triple)
    (hclosure : ∀ t, t ∈ closure.toList ↔ t ∈ facts.toList ∨ t ∈ derived)
    (closed : ∀ c ∈ done, c.ClosedOn config closure) :
    Run.Yields ok (inferStrata config rules (.ofRules rules) level strata closure derived) fun D =>
      ∀ c, (c ∈ done ∨ ∃ s ∈ strata, c ∈ s.rulesOf rules) → c.SaturatedBy config facts D := by
  -- The rules of earlier strata stay closed because no later stratum feeds them.
  induction strata generalizing done level closure derived with
  | nil =>
    refine Run.yields_pure fun c hc g hg => ?_
    have hc : c ∈ done := hc.resolve_right fun h => by simp at h
    obtain ⟨F, G, plain⟩ := exact.plain c (hdone c hc)
    exact plain.closedOn_congr (fun t => (hg t).trans (hclosure t).symm) (closed c hc)
  | cons s strata ih =>
    have here := hstrata s (List.mem_cons_self ..)
    obtain ⟨next, ordered⟩ := List.pairwise_cons.1 ordered
    refine yields_inferStrata_cons (saturates s (List.mem_cons_self ..) closure)
      fun found grown saturated hfound hgrown => ?_
    have rest := ih (fun q hq => hstrata q (List.mem_cons_of_mem _ hq))
      (fun q hq => saturates q (List.mem_cons_of_mem _ hq)) ordered
      (done ++ s.rulesOf rules) ?_ ?_ (level + 1) grown (derived.insertAll found.toList) ?_ ?_
    · intro D hD he c hc
      apply rest D hD he c
      rcases hc with hc | ⟨q, hq, hc⟩
      · exact .inl (List.mem_append_left _ hc)
      rcases List.mem_cons.1 hq with rfl | hq
      · exact .inl (List.mem_append_right _ hc)
      · exact .inr ⟨q, hq, hc⟩
    · intro c hc
      rcases List.mem_append.1 hc with hc | hc
      · exact hdone c hc
      · exact Stratum.mem_of_mem_rulesOf hc
    · intro c hc q hq p hp
      rcases List.mem_append.1 hc with hc | hc
      · exact later c hc q (List.mem_cons_of_mem _ hq) p hp
      · exact next q hq c hc p hp
    · intro t
      rw [hgrown, hclosure, OrderedSet.mem_insertAll, or_assoc]
      rfl
    · intro c hc
      rcases List.mem_append.1 hc with hc | hc
      · exact Stratum.closedOn_grown exact here (hdone c hc)
          (later c hc s (List.mem_cons_self ..)) (closed c hc) hfound hgrown
      · exact saturated c hc grown hgrown

/-- Where each stratum closes the facts under its rules, the whole run closes them under all. -/
theorem infer_saturated_of {ok : Event → Prop} (exact : Exact rules) (facts : List Triple)
    (saturates : ∀ s ∈ stratify rules (.ofRules rules), ∀ closure,
      Run.Yields ok (s.derive config closure rules (.ofRules rules)) fun D =>
        ∀ r ∈ s.rulesOf rules, r.SaturatedBy config closure D) :
    Run.Yields ok (infer facts rules config) fun D =>
      ∃ g, Graph.ofList facts = .ok g ∧ ∀ r ∈ rules, r.SaturatedBy config g D := by
  unfold infer
  refine (Run.yields_lift fun _ h => h).bind fun g hg => ?_
  have run := inferStrata_saturated exact g _ (fun _ hs => hs) saturates
    (Stratum.stratify_ordered rules) [] (fun _ h => absurd h List.not_mem_nil)
    (fun _ h => absurd h List.not_mem_nil) 0 g ∅
    (fun t => (or_iff_left List.not_mem_nil).symm) fun _ h => absurd h List.not_mem_nil
  intro D hD he
  refine ⟨g, hg, fun r hr => ?_⟩
  obtain ⟨s, hs, i, hi, hri⟩ := exists_stratum hr
  exact run D hD he r (.inr ⟨s, hs, Stratum.mem_rulesOf.2 ⟨i, hi, hri⟩⟩)

theorem infer_saturated (exact : Exact rules) (facts : List Triple) :
    Run.Yields (fun e => e.cuts = false) (infer facts rules config) fun D =>
      ∃ g, Graph.ofList facts = .ok g ∧ ∀ r ∈ rules, r.SaturatedBy config g D :=
  infer_saturated_of exact facts fun _ hs closure => Stratum.derive_saturated exact hs closure

/-! ## The second run -/

/-- Facts that are closed under the rules have no consequences but themselves, and rules that have
been evaluated once can be evaluated on them. -/
theorem infer_closed (plain : ∀ r ∈ rules, ∃ F G, r.IsPlain F G) {g : Graph}
    (closed : ∀ r ∈ rules, r.ClosedOn config g) {facts : List Triple} {D : OrderedSet Triple}
    (before : (infer facts rules config).result = .ok D) :
    ∃ D', (infer g.toList rules config).result = .ok D' ∧ ∀ t ∈ D', t ∈ g.toList := by
  have evaluated : ∀ s ∈ stratify rules (.ofRules rules), ∃ facts₀ D₀,
      (s.derive config facts₀ rules (.ofRules rules)).result = .ok D₀ := by
    obtain ⟨start, es, -, hes, strata, -⟩ := infer_evaluates before
    rw [← strata]
    intro s hs
    obtain ⟨e, he, rfl⟩ := List.mem_map.1 hs
    exact ⟨e.facts, e.found, hes.derives_of_mem he⟩
  have noVar : True → ∀ t ∈ {t | t ∈ g.toList}, t.hasVar = false := fun _ t ht => g.noVar t ht
  have closes : ∀ r ∈ rules, r.Closes config {t | t ∈ g.toList} := by
    intro r hr
    obtain ⟨F, G, hplain⟩ := plain r hr
    exact hplain.closes (closed r hr)
  have run : Run.Ends True (infer g.toList rules config) fun D => Within {t | t ∈ g.toList} D.toList :=
    infer_ends noVar plain closes (fun _ ht => ht) fun _ => evaluated
  obtain ⟨D', hD'⟩ := run.succeeds trivial
  exact ⟨D', hD', run.ensures D' hD'⟩

end

namespace Reasoner

theorem result_run (r : Reasoner) : r.run.result =
    (infer r.facts.toList r.rules.toList r.config).result.bind fun derived =>
      (r.facts.addAll (derived.toList.filter fun t => !r.facts.contains t)).map fun facts =>
        ({ r with
          facts := facts
          inferred := r.inferred.insertAll (derived.toList.filter fun t => !r.facts.contains t) },
          (derived.toList.filter fun t => !r.facts.contains t).length) := by
  simp only [run, Run.result_bind, Run.result_report, ok_bind, Run.result_lift, Run.result_pure]
  rfl

/-- The first run leaves facts that are closed under the rules, and a second one adds nothing, where
every edge is there, a rule that feeds itself does so through one clause, and no event of the first run
tells of a bound that may have cut it off. -/
theorem run_run (r : Reasoner) (exact : Exact r.rules.toList) (r' : Reasoner) (n : Nat)
    (first : r.run.result = .ok (r', n)) (uncut : ∀ e ∈ r.run.events, e.cuts = false) :
    (∀ p ∈ r.rules, p.ClosedOn r.config r'.facts) ∧ r'.run.result = .ok (r', 0) := by
  rw [result_run] at first
  obtain ⟨D, hD, first⟩ := bind_eq_ok.1 first
  cases hadd : r.facts.addAll (D.toList.filter fun t => !r.facts.contains t) with
  | error e =>
    rw [hadd] at first
    cases first
  | ok facts =>
    rw [hadd] at first
    obtain ⟨rfl, -⟩ := Prod.mk.inj (Except.ok.inj first)
    have hfacts : ∀ t, t ∈ facts.toList ↔ t ∈ r.facts.toList ∨ t ∈ D := by
      intro t
      rw [Graph.mem_addAll hadd, List.mem_filter, Bool.not_eq_true', ← Bool.not_eq_true,
        Graph.contains_iff, ← OrderedSet.mem_def]
      by_cases ht : t ∈ r.facts.toList <;> simp [ht]
    have hevents : ∀ e ∈ (infer r.facts.toList r.rules.toList r.config).events, e.cuts = false := by
      intro e he
      apply uncut
      rw [run, Run.events_bind (Run.result_report _), Run.events_bind hD]
      exact List.mem_append_right _ (List.mem_append_left _ he)
    obtain ⟨g, hg, saturated⟩ := infer_saturated exact r.facts.toList D hD hevents
    have closed : ∀ p ∈ r.rules.toList, p.ClosedOn r.config facts := by
      intro p hp
      refine saturated p hp facts fun t => ?_
      rw [hfacts, Graph.mem_ofList hg]
    refine ⟨closed, ?_⟩
    obtain ⟨D', hD', sub⟩ := infer_closed exact.plain closed hD
    have none : D'.toList.filter (fun t => !facts.contains t) = [] := by
      rw [List.filter_eq_nil_iff]
      intro t ht
      rw [Graph.contains_iff.2 (sub t ht)]
      exact Bool.false_ne_true
    rw [result_run, hD', ok_bind, none]
    rfl

/-- All paths are found in the first run. -/
theorem run_run_reach : ∃ r r' : Reasoner, r.rules.toList = reachRules ∧ r.run.result = .ok (r', 6) ∧
    r'.run.result = .ok (r', 0) := by
  let link (x y : String) : Triple := ⟨.iri x, .iri "next", .iri y⟩
  let r : Reasoner := { new with
    facts := (Graph.ofList [link "a" "b", link "b" "c", link "c" "d"]).toOption.getD ∅
    rules := .ofList reachRules }
  have rules : r.rules.toList = reachRules := by decide +kernel
  have hcount : r.run.result.toOption.map (·.2) = some 6 := by decide +kernel
  have uncut : r.run.events.all (fun e => !e.cuts) = true := by decide +kernel
  obtain ⟨⟨r', n⟩, h, hn⟩ := exists_ok_of_map hcount
  obtain rfl : n = 6 := hn
  refine ⟨r, r', rules, h, (run_run r (rules ▸ exact_reachRules) r' 6 h fun e he => ?_).2⟩
  simpa using List.all_eq_true.1 uncut e he

/-- The rule that concludes `t` comes first, and its condition and the conclusion of the other rule have
a triple in common that no edge stands for. -/
theorem run_run_false :
    ¬ ∀ r : Reasoner, r.config.roundLimit = none → (∀ p ∈ r.rules.toList, p.IsMonotone) →
      (∀ p ∈ r.rules.toList, ∀ c ∈ p.conclusion.formula?.getD [], ∀ a ∈ c.terms, a.isSlot = true →
        a ∈ p.condition.slots) →
      ∀ r' n, r.run.result = .ok (r', n) → r'.run.result = .ok (r', 0) := by
  intro claim
  let edge (p : String) : Triple := ⟨.var "x", .iri p, .var "y"⟩
  let fact (p : String) : Triple := ⟨.iri "a", .iri p, .iri "b"⟩
  let consumer := Rule.ofLists [edge "p", edge "q"] [edge "t"]
  let producer := Rule.ofLists [edge "s"] [edge "p", edge "r"]
  let r : Reasoner := { new with
    facts := (Graph.ofList [fact "s", fact "q"]).toOption.getD ∅
    rules := .ofList [consumer, producer] }
  have mono : ∀ p ∈ r.rules.toList, p.IsMonotone := by decide +kernel
  have hsecond : (r.run.result.bind fun p => p.1.run.result).toOption.map (·.2) = some 1 := by
    decide +kernel
  obtain ⟨⟨r'', n⟩, hagain, one⟩ := exists_ok_of_map hsecond
  obtain ⟨⟨r', m⟩, h, hagain⟩ := bind_eq_ok.1 hagain
  have again := claim r rfl mono (by decide +kernel) r' m h
  obtain rfl : n = 0 := (Prod.mk.inj (Except.ok.inj (hagain.symm.trans again))).2
  cases one

end Reasoner

end TripleChain
