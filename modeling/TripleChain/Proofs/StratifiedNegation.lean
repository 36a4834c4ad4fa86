import TripleChain.Proofs.Idempotence

/-!
# Negation is stratified

A rule with a negation is evaluated only where it is a stratum by itself and lies on no cycle of
dependencies; everything that it depends on, through any number of rules, is in an earlier stratum, and
what that derived is among the facts that the negation is tested against (`infer_stratified`). With a
negation on a cycle every run fails, whatever the facts are.
-/

namespace TripleChain

variable {config : Config} {rules : List Rule} {g : DependencyGraph}

/-! ## Strata with negations -/

namespace Rule

theorem deriveRecursive_negative {r : Rule} (h : r.isNegative = true) (facts : Store) :
    (r.deriveRecursive config facts).result = .error (.negationInRecursion r) := by
  rw [deriveRecursive, if_pos h]
  rfl

end Rule

theorem Cycle.derive_negative {members : List Nat} {r : Rule}
    (hr : r ∈ members.filterMap fun i => rules[i]?) (h : r.isNegative = true) (facts : Graph) :
    ∃ n, (derive config facts rules g members).result = .error (.negationInCycle n) := by
  have hfind : ((members.filterMap fun i => rules[i]?).find? Rule.isNegative).isSome = true :=
    List.find?_isSome.2 ⟨r, hr, h⟩
  obtain ⟨n, hn⟩ := Option.isSome_iff_exists.1 hfind
  refine ⟨n, ?_⟩
  unfold derive
  cases hrules : members.filterMap (fun i => rules[i]?) with
  | nil =>
    rw [hrules] at hr
    exact absurd hr List.not_mem_nil
  | cons lead others =>
    rw [hrules] at hn
    dsimp only
    rw [hn]
    rfl

/-- A stratum with a negation can be evaluated only if it is one rule with no edge to itself. -/
theorem Stratum.alone_of_negative {s : Stratum} (hs : s ∈ stratify rules g) {facts : Graph}
    {found : OrderedSet Triple} (hfound : (s.derive config facts rules g).result = .ok found) {i : Nat}
    (hi : i ∈ s.members) {r : Rule} (hr : rules[i]? = some r) (neg : r.isNegative = true) :
    s = ⟨[i], .negative⟩ ∧ i ∉ g.dependsOn i ∧ (r.deriveNegated config (.graph facts)).result = .ok found := by
  obtain ⟨members, -, rfl⟩ := List.mem_map.1 hs
  obtain _ | ⟨j, _ | ⟨k, others⟩⟩ := members
  · exact absurd hi List.not_mem_nil
  · obtain rfl := List.mem_singleton.1 hi
    by_cases hself : i ∈ g.dependsOn i
    · have hkind : stratumKind rules g [i] = .recursive := by
        rw [stratumKind, DependencyGraph.isSelfDependent, if_pos (List.contains_iff_mem.2 hself)]
      simp only [derive, hkind, List.filterMap_cons, hr, List.filterMap_nil] at hfound
      rw [Rule.deriveRecursive_negative neg] at hfound
      cases hfound
    · have hkind : stratumKind rules g [i] = .negative := by
        rw [stratumKind, DependencyGraph.isSelfDependent, if_neg (mt List.contains_iff_mem.1 hself), hr,
          Option.any_some, if_pos neg]
      simp only [derive, hkind, List.filterMap_cons, hr, List.filterMap_nil] at hfound
      exact ⟨by rw [hkind], hself, hfound⟩
  · have hmem : r ∈ (j :: k :: others).filterMap fun i => rules[i]? := List.mem_filterMap.2 ⟨i, hi, hr⟩
    have hfound : (Cycle.derive config facts rules g (j :: k :: others)).result = .ok found := hfound
    obtain ⟨n, hn⟩ := Cycle.derive_negative hmem neg facts
    rw [hn] at hfound
    cases hfound

/-! ## Strata one after the other -/

namespace Evaluates

variable {facts : Graph} {es : List Evaluated}

theorem subset_of_mem (h : Evaluates config rules g facts es) {e : Evaluated} (he : e ∈ es) :
    ∀ t ∈ facts.toList, t ∈ e.facts.toList := by
  induction h with
  | nil => exact absurd he List.not_mem_nil
  | cons _ grows _ ih =>
    intro t ht
    rcases List.mem_cons.1 he with rfl | he
    · exact ht
    · exact ih he t ((grows t).2 (.inl ht))

theorem found_subset (h : Evaluates config rules g facts es) :
    es.Pairwise fun e later => ∀ t ∈ e.found, t ∈ later.facts.toList := by
  induction h with
  | nil => exact .nil
  | cons _ grows rest ih =>
    exact List.pairwise_cons.2 ⟨fun e he t ht => rest.subset_of_mem he t ((grows t).2 (.inr ht)), ih⟩

end Evaluates

/-! ## Negations among the strata -/

theorem before_of_depends {first later : List (List Nat)} {i j : Nat} (h : g.Given (first ++ [i] :: later))
    (acyclic : ¬ g.Depends i i) (hij : g.Depends i j) :
    j ∈ first.flatten ∧ ∀ c ∈ [i] :: later, j ∉ c := by
  have hreach : j ∈ (first ++ [[i]]).flatten := by
    have h' : g.Given ((first ++ [[i]]) ++ later) := by rwa [List.append_assoc]
    exact h'.left.reaches (by simp) hij.to_reflTransGen
  have hj : j ∈ first.flatten := by
    rw [List.flatten_append, List.mem_append] at hreach
    refine hreach.resolve_right fun hj => acyclic ?_
    obtain rfl : j = i := by simpa using hj
    exact hij
  refine ⟨hj, fun c hc hjc => ?_⟩
  have nodup := h.nodup
  rw [List.flatten_append, List.nodup_append] at nodup
  exact nodup.2.2 j hj j (List.mem_flatten.2 ⟨c, hc, hjc⟩) rfl

/-- Rule `i` is a stratum by itself. All that it depends on is in the strata before it, and what these
found is among the facts that it is evaluated on. -/
structure EvaluatedLast (g : DependencyGraph) (i : Nat) (before : List Evaluated) (e : Evaluated)
    (later : List Evaluated) : Prop where
  alone : e.stratum = ⟨[i], .negative⟩
  once : ∀ e' ∈ before ++ later, i ∉ e'.stratum.members
  acyclic : ¬ g.Depends i i
  earlier : ∀ j, g.Depends i j → ∃ e' ∈ before, j ∈ e'.stratum.members
  notLater : ∀ j, g.Depends i j → ∀ e' ∈ e :: later, j ∉ e'.stratum.members
  held : ∀ e' ∈ before, ∀ t ∈ e'.found, t ∈ e.facts.toList

open DependencyGraph in
theorem Evaluates.evaluatedLast {facts : Graph} {es : List Evaluated}
    (h : Evaluates config rules (ofRules rules) facts es)
    (strata : es.map Evaluated.stratum = stratify rules (ofRules rules)) {i : Nat} {r : Rule}
    (hr : rules[i]? = some r) (neg : r.isNegative = true) :
    ∃ before e later, es = before ++ e :: later ∧ EvaluatedLast (ofRules rules) i before e later ∧
      (r.deriveNegated config (.graph e.facts)).result = .ok e.found := by
  obtain ⟨s, hs, hi⟩ : ∃ s ∈ stratify rules (ofRules rules), i ∈ s.members := by
    obtain ⟨given, perm⟩ := components_given (ofRules rules)
    have hlt : i < (ofRules rules).size := by
      rw [size_ofRules]
      exact (List.getElem?_eq_some_iff.1 hr).1
    obtain ⟨c, hc, hic⟩ := List.mem_flatten.1 (perm.mem_iff.2 (List.mem_range.2 hlt))
    exact ⟨_, List.mem_map_of_mem hc, hic⟩
  rw [← strata] at hs
  obtain ⟨e, he, rfl⟩ := List.mem_map.1 hs
  obtain ⟨alone, none, derives⟩ :=
    Stratum.alone_of_negative (strata ▸ hs) (h.derives_of_mem he) hi hr neg
  obtain ⟨before, later, rfl⟩ := List.append_of_mem he
  have members : (before.map fun e => e.stratum.members) ++ [i] :: (later.map fun e => e.stratum.members) =
      (ofRules rules).components := by
    have hmap := congrArg (List.map Stratum.members) strata
    rw [stratify, List.map_map, List.map_map] at hmap
    simpa [Function.comp_def, alone] using hmap
  have given := (components_given (ofRules rules)).1
  rw [← members] at given
  have acyclic := given.not_depends_self (List.mem_append_right _ (List.mem_cons_self ..)) none
  have mem : ∀ {es : List Evaluated} {j : Nat}, j ∈ (es.map fun e => e.stratum.members).flatten ↔
      ∃ e ∈ es, j ∈ e.stratum.members := by simp
  refine ⟨before, e, later, rfl, ⟨alone, fun e' he' hie' => ?_, acyclic, fun j hj => ?_, fun j hj e' he' => ?_,
    fun e' he' => ?_⟩, derives⟩
  · have nodup := (List.perm_middle.flatten.nodup_iff).1 given.nodup
    rw [List.flatten_cons, List.singleton_append, List.nodup_cons, ← List.map_append, mem] at nodup
    exact nodup.1 ⟨e', he', hie'⟩
  · exact mem.1 (before_of_depends given acyclic hj).1
  · refine (before_of_depends given acyclic hj).2 _ ?_
    rcases List.mem_cons.1 he' with rfl | he'
    · rw [alone]
      exact List.mem_cons_self ..
    · exact List.mem_cons_of_mem _ (List.mem_map_of_mem he')
  · exact (List.pairwise_append.1 h.found_subset).2.2 e' he' e (List.mem_cons_self ..)

/-- A run that comes to its end evaluates strata one after the other, and each rule with a negation by
itself: after all that it depends on, through any number of rules, and on facts that hold what was found
there. With a negation on a cycle of dependencies the run fails, whatever the facts are. -/
theorem infer_stratified (config : Config) (facts : List Triple) (rules : List Rule) :
    (∀ D, (infer facts rules config).result = .ok D → ∃ start es, Graph.ofList facts = .ok start ∧
      Evaluates config rules (.ofRules rules) start es ∧
      es.map Evaluated.stratum = stratify rules (.ofRules rules) ∧ (∀ t, t ∈ D ↔ ∃ e ∈ es, t ∈ e.found) ∧
      ∀ i r, rules[i]? = some r → r.isNegative = true → ∃ before e later, es = before ++ e :: later ∧
        EvaluatedLast (.ofRules rules) i before e later ∧
        (r.deriveNegated config (.graph e.facts)).result = .ok e.found) ∧
    ∀ i r, rules[i]? = some r → r.isNegative = true → (DependencyGraph.ofRules rules).Depends i i →
      ∃ e, (infer facts rules config).result = .error e := by
  constructor
  · intro D hD
    obtain ⟨start, es, hstart, hes, strata, mem⟩ := infer_evaluates hD
    exact ⟨start, es, hstart, hes, strata, mem, fun i r hr neg => hes.evaluatedLast strata hr neg⟩
  · intro i r hr neg cycle
    cases hD : (infer facts rules config).result with
    | error e => exact ⟨e, rfl⟩
    | ok D =>
      obtain ⟨start, es, -, hes, strata, -⟩ := infer_evaluates hD
      obtain ⟨before, e, later, -, last, -⟩ := hes.evaluatedLast strata hr neg
      exact absurd cycle last.acyclic

/-- The negation asks for paths, which two rules derive; and two rules that feed each other, one of them
through a negation, fail without any facts. -/
theorem infer_stratified_reach :
    let apart := Rule.ofLists [⟨.var "x", .iri "is", .iri "town"⟩, ⟨.var "y", .iri "is", .iri "town"⟩,
      ⟨.var "s", .iri Vocabulary.notIncludes, .quoting [⟨.var "x", .iri "reach", .var "y"⟩]⟩]
      [⟨.var "x", .iri "misses", .var "y"⟩]
    let opened := Rule.ofLists [⟨.var "x", .iri "is", .iri "shop"⟩,
      ⟨.var "s", .iri Vocabulary.notIncludes, .quoting [⟨.var "x", .iri "is", .iri "shut"⟩]⟩]
      [⟨.var "x", .iri "is", .iri "open"⟩]
    let shut := Rule.ofLists [⟨.var "x", .iri "is", .iri "open"⟩] [⟨.var "x", .iri "is", .iri "shut"⟩]
    let facts : List Triple := [⟨.iri "a", .iri "is", .iri "town"⟩, ⟨.iri "c", .iri "is", .iri "town"⟩,
      ⟨.iri "a", .iri "next", .iri "b"⟩, ⟨.iri "b", .iri "next", .iri "c"⟩]
    (∃ D, (infer facts (apart :: reachRules)).result = .ok D ∧ apart.isNegative = true ∧
      ∃ before e later, EvaluatedLast (.ofRules (apart :: reachRules)) 0 before e later ∧
        (DependencyGraph.ofRules (apart :: reachRules)).Depends 0 1 ∧
        ⟨.iri "a", .iri "reach", .iri "c"⟩ ∈ D) ∧
    opened.isNegative = true ∧ (DependencyGraph.ofRules [opened, shut]).Depends 0 0 ∧
      ∃ e, (infer [] [opened, shut]).result = .error e := by
  intro apart opened shut facts
  have run : (infer facts (apart :: reachRules)).result.toOption.map
      (fun D => decide (⟨.iri "a", .iri "reach", .iri "c"⟩ ∈ D)) = some true := by decide +kernel
  obtain ⟨D, hD, hmem⟩ := exists_ok_of_map run
  obtain ⟨_, _, -, -, -, -, each⟩ := (infer_stratified {} facts (apart :: reachRules)).1 D hD
  obtain ⟨before, e, later, -, last, -⟩ := each 0 apart rfl (by decide)
  have path : (DependencyGraph.ofRules (apart :: reachRules)).Depends 0 1 := by
    refine .tail (.single (b := 2) ?_) ?_ <;> decide +kernel
  have cycle : (DependencyGraph.ofRules [opened, shut]).Depends 0 0 := by
    refine .tail (.single (b := 1) ?_) ?_ <;> decide +kernel
  have neg : opened.isNegative = true := by decide
  exact ⟨⟨D, hD, by decide, before, e, later, last, path, of_decide_eq_true hmem⟩, neg, cycle,
    (infer_stratified {} [] [opened, shut]).2 0 opened rfl neg cycle⟩

end TripleChain
