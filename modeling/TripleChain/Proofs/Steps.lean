import TripleChain.Proofs.Soundness

/-!
# What the steps of an evaluation do

To show something of the rounds of a rule, of the firing of one rule of a cycle, or of a whole
evaluation, it suffices to show it for each way in which they can go on. A run that comes to its end is
recorded as the evaluations of its strata (`infer_evaluates`).
-/

namespace TripleChain

/-! ## Events that tell of a bound -/

/-- The event tells of an evaluation without a single round or pass, where the rules may derive
something. -/
def Event.starves : Event → Bool
  | .guarded _ guard instances rounds => rounds = 0 && (guard.isEmpty || instances ≠ 0)
  | .walk _ passes => passes = 0
  | _ => false

/-- The event tells of a bound that may have ended an evaluation before its fixpoint. -/
def Event.cuts (e : Event) : Bool := e.level = .warning || e.starves

theorem Event.cuts_of_warning {e : Event} (h : e.level = .warning) : ¬ e.cuts = false := by
  simp [cuts, h]

variable {config : Config} {ok : Event → Prop} {P : OrderedSet Triple → Prop}

/-! ## Rounds -/

namespace Rule

variable {r : Rule} {facts : Store} {bound left : Nat} {store : Graph} {derived : OrderedSet Triple}

theorem yields_rounds_zero (h : (bound ≠ 0 → ok (.roundsExhausted bound r)) → P derived) :
    Run.Yields ok (r.rounds config facts bound 0 store derived) P := by
  unfold rounds
  by_cases hb : bound ≠ 0
  · rw [if_pos hb]
    exact (Run.yields_report _).bind fun _ he => Run.yields_pure (h fun _ => he)
  · rw [if_neg hb]
    exact Run.yields_pure (h fun hb' => absurd hb' hb)

theorem yields_rounds_succ
    (done : ∀ found, r.derive config (.graph store) = .ok found →
      (∀ t ∈ found, t ∈ store.toList ∨ t ∈ facts.toList) → P (derived.insertAll found.toList))
    (more : ∀ found grown, r.derive config (.graph store) = .ok found →
      (∀ t, t ∈ grown.toList ↔ t ∈ store.toList ∨ t ∈ found) →
      Run.Yields ok (r.rounds config facts bound left grown (derived.insertAll found.toList)) P) :
    Run.Yields ok (r.rounds config facts bound (left + 1) store derived) P := by
  unfold rounds
  refine (Run.yields_lift fun _ h => h).bind fun found hfound => ?_
  refine (Run.yields_lift fun _ h => h).bind fun grown hgrown => ?_
  refine (Run.yields_report _).bind fun _ _ => ?_
  split
  · next hadded =>
    refine Run.yields_pure (done found hfound fun t ht => ?_)
    have hnone := List.countP_eq_zero.1 hadded t ht
    by_cases hs : t ∈ store.toList
    · exact .inl hs
    · rw [← Graph.contains_iff, Bool.not_eq_true] at hs
      rw [hs] at hnone
      exact .inr (Store.contains_iff.1 (by simpa using hnone))
  · exact more found grown hfound fun t => Graph.mem_addAll hgrown

theorem OpensNoScope.yields_deriveRecursive {F G : Formula} (h : r.OpensNoScope F G)
    (rounds : ∀ split guarding resting start, Guard.split r r = .ok split →
      Guard.instances config facts split.guard = .ok guarding →
      Guard.instances config facts split.rest = .ok resting →
      (∀ t, t ∈ start.toList ↔ t ∈ guarding.toList ∨ t ∈ resting.toList) →
      let bound := config.rounds (split.bound guarding resting)
      ok (.guarded r split.guard guarding.size bound) →
      Run.Yields ok (r.rounds config facts bound bound start ∅) P) :
    Run.Yields ok (r.deriveRecursive config facts) P := by
  rw [deriveRecursive_of_formula h.not_negative h.conclusion]
  refine (Run.yields_lift fun _ h => h).bind fun split hsplit => ?_
  refine (Run.yields_lift fun _ h => h).bind fun guarding hguarding => ?_
  refine (Run.yields_lift fun _ h => h).bind fun resting hresting => ?_
  refine (Run.yields_report _).bind fun _ he => ?_
  refine (Run.yields_lift fun _ h => h).bind fun start hstart => ?_
  exact rounds split guarding resting start hsplit hguarding hresting
    (fun t => Graph.mem_addAll hstart) he

end Rule

/-! ## Cycles -/

namespace Cycle

variable {rules : List Rule} {g : DependencyGraph} {members : List Nat}

/-- What firing a rule makes of a state. -/
structure Fired (config : Config) (g : DependencyGraph) (i : Nat) (r : Rule) (s s' : State) : Prop where
  found : ∃ found, r.derive config (.graph s.store) = .ok found ∧
    (∀ t, t ∈ s'.store.toList ↔ t ∈ s.store.toList ∨ t ∈ found) ∧
    (∀ t, t ∈ s'.derived ↔ t ∈ s.derived ∨ t ∈ found)
  triggered : s'.triggered = s.triggered ∧ (∀ t ∈ s'.store.toList, t ∈ s.store.toList) ∨
    s'.triggered = s.triggered ++ g.triggers i

theorem yields_fireRule {pass i : Nat} {s : State} {r : Rule} (hi : rules[i]? = some r) :
    Run.Yields ok (fireRule config rules g pass i s) (Fired config g i r s) := by
  unfold fireRule
  rw [hi]
  refine (Run.yields_lift fun _ h => h).bind fun found hfound => ?_
  refine (Run.yields_lift fun _ h => h).bind fun store hstore => ?_
  have hmem : ∀ t, t ∈ store.toList ↔ t ∈ s.store.toList ∨ t ∈ found :=
    fun t => Graph.mem_addAll hstore
  have hderived : ∀ t, t ∈ s.derived.insertAll found.toList ↔ t ∈ s.derived ∨ t ∈ found :=
    fun t => OrderedSet.mem_insertAll
  by_cases hadded : found.toList.countP (fun t => !s.store.contains t) = 0
  · rw [if_pos hadded]
    refine Run.yields_pure ⟨⟨found, hfound, hmem, hderived⟩, .inl ⟨rfl, fun t ht => ?_⟩⟩
    rcases (hmem t).1 ht with ht | ht
    · exact ht
    · have hnone := List.countP_eq_zero.1 hadded t ht
      exact Graph.contains_iff.1 (by simpa using hnone)
  · rw [if_neg hadded]
    refine (Run.yields_report _).bind fun _ _ => ?_
    exact Run.yields_pure ⟨⟨found, hfound, hmem, hderived⟩, .inr rfl⟩

theorem yields_firePending_cons {Q : State → Prop} {pass i : Nat} {pending : List Nat} {s : State}
    (skip : rules[i]? = none → Run.Yields ok (firePending config rules g pass pending s) Q)
    (fire : ∀ r s₁, rules[i]? = some r → Fired config g i r s s₁ →
      Run.Yields ok (firePending config rules g pass pending s₁) Q) :
    Run.Yields ok (firePending config rules g pass (i :: pending) s) Q := by
  unfold firePending
  cases hi : rules[i]? with
  | none =>
    have same : fireRule config rules g pass i s = pure s := by rw [fireRule, hi]
    rw [same]
    refine (Run.yields_pure (P := fun s₁ => s₁ = s) rfl).bind fun s₁ h => ?_
    rw [h]
    exact skip hi
  | some r => exact (yields_fireRule hi).bind fun s₁ => fire r s₁ hi

/-- What every pass keeps, of the rules that are pending and of the state, holds at the end. -/
theorem yields_passes {I : List Nat → State → Prop} {order : List Nat} {bound : Nat}
    (pass : ∀ n i pending s, I (i :: pending) s →
      Run.Yields ok (firePending config rules g n (i :: pending) { s with triggered := [] })
        fun s' => I (order.filter fun i => s'.triggered.contains i) s')
    (done : ∀ s, I [] s → P s.derived)
    (cut : ∀ i pending s, I (i :: pending) s → ok (.passesExhausted bound) → P s.derived) (left : Nat)
    (pending : List Nat) (s : State) (h : I pending s) :
    Run.Yields ok (passes config rules g order bound left pending s) P := by
  induction left generalizing pending s with
  | zero =>
    cases pending with
    | nil => exact Run.yields_pure (done s h)
    | cons i pending =>
      unfold passes
      exact (Run.yields_report _).bind fun _ he => Run.yields_pure (cut i pending s h he)
  | succ left ih =>
    cases pending with
    | nil => exact Run.yields_pure (done s h)
    | cons i pending =>
      unfold passes
      exact (pass _ i pending s h).bind fun s' h' => ih _ s' h'

/-- A cycle either has no rules or runs passes over its members. -/
theorem yields_derive (pos : ∀ r ∈ members.filterMap fun i => rules[i]?, r.isNegative = false)
    {facts : Graph} (empty : members.filterMap (fun i => rules[i]?) = [] → P ∅)
    (run : ∀ walk order bound, (∀ i, i ∈ order ↔ i ∈ members) → ok (.walk walk bound) →
      Run.Yields ok (passes config rules g order bound bound order ⟨facts, ∅, []⟩) P) :
    Run.Yields ok (derive config facts rules g members) P := by
  by_cases hne : members.filterMap (fun i => rules[i]?) = []
  · rw [derive_nil hne]
    exact Run.yields_pure (empty hne)
  cases hwalk : g.walk members with
  | none => exact fun D hD => absurd hD (derive_no_walk config hne hwalk facts D)
  | some walk =>
    rw [derive_of_walk config hne pos hwalk]
    refine (Run.yields_lift (P := fun _ => True) fun _ _ => trivial).bind fun bound _ => ?_
    refine (Run.yields_report _).bind fun _ he => ?_
    refine run walk _ _ (fun i => ?_) he
    rw [← OrderedSet.mem_def, OrderedSet.mem_ofList]
    exact DependencyGraph.mem_walk hwalk i

end Cycle

/-! ## Strata -/

section
variable {rules : List Rule} {g : DependencyGraph} {s : Stratum} {strata : List Stratum} {level : Nat}
  {closure : Graph} {derived D : OrderedSet Triple}

theorem yields_inferStrata_cons {Q : OrderedSet Triple → Prop}
    (here : Run.Yields ok (s.derive config closure rules g) Q)
    (later : ∀ found grown, Q found → (s.derive config closure rules g).result = .ok found →
      (∀ t, t ∈ grown.toList ↔ t ∈ closure.toList ∨ t ∈ found) →
      Run.Yields ok (inferStrata config rules g (level + 1) strata grown
        (derived.insertAll found.toList)) P) :
    Run.Yields ok (inferStrata config rules g level (s :: strata) closure derived) P := by
  unfold inferStrata
  refine (Run.yields_report _).bind fun _ _ => ?_
  refine (here.and fun _ h => h).bind fun found h => ?_
  refine (Run.yields_lift fun _ h => h).bind fun grown hgrown => ?_
  exact later found grown h.1 h.2 fun t => Graph.mem_addAll hgrown

theorem result_inferStrata_cons
    (h : (inferStrata config rules g level (s :: strata) closure derived).result = .ok D) :
    ∃ found grown, (s.derive config closure rules g).result = .ok found ∧
      (∀ t, t ∈ grown.toList ↔ t ∈ closure.toList ∨ t ∈ found) ∧
      (inferStrata config rules g (level + 1) strata grown
        (derived.insertAll found.toList)).result = .ok D := by
  rw [inferStrata, Run.result_bind, Run.result_report, ok_bind, Run.result_bind] at h
  obtain ⟨found, hfound, h⟩ := bind_eq_ok.1 h
  rw [Run.result_bind] at h
  obtain ⟨grown, hgrown, h⟩ := bind_eq_ok.1 h
  exact ⟨found, grown, hfound, fun t => Graph.mem_addAll hgrown, h⟩

end

/-! ## The record of a run -/

/-- A stratum that has been evaluated: on which facts, and what was found. -/
structure Evaluated where
  stratum : Stratum
  facts : Graph
  found : OrderedSet Triple

/-- Each stratum is evaluated on the facts at the start and on what the strata before it found. -/
inductive Evaluates (config : Config) (rules : List Rule) (g : DependencyGraph) :
    Graph → List Evaluated → Prop
  | nil {facts : Graph} : Evaluates config rules g facts []
  | cons {s : Stratum} {facts grown : Graph} {found : OrderedSet Triple} {later : List Evaluated}
      (derives : (s.derive config facts rules g).result = .ok found)
      (grows : ∀ t, t ∈ grown.toList ↔ t ∈ facts.toList ∨ t ∈ found)
      (rest : Evaluates config rules g grown later) :
      Evaluates config rules g facts (⟨s, facts, found⟩ :: later)

variable {rules : List Rule} {g : DependencyGraph}

theorem exists_evaluates (strata : List Stratum) (level : Nat) (closure : Graph)
    (derived D : OrderedSet Triple)
    (h : (inferStrata config rules g level strata closure derived).result = .ok D) :
    ∃ es, Evaluates config rules g closure es ∧ es.map Evaluated.stratum = strata ∧
      ∀ t, t ∈ D ↔ t ∈ derived ∨ ∃ e ∈ es, t ∈ e.found := by
  induction strata generalizing level closure derived with
  | nil =>
    obtain rfl := Except.ok.inj h
    exact ⟨[], .nil, rfl, fun t => by simp⟩
  | cons s strata ih =>
    obtain ⟨found, grown, hfound, hgrown, h⟩ := result_inferStrata_cons h
    obtain ⟨es, hes, hstrata, mem⟩ := ih _ grown _ h
    refine ⟨⟨s, closure, found⟩ :: es, .cons hfound hgrown hes, by rw [List.map_cons, hstrata], fun t => ?_⟩
    rw [mem, OrderedSet.mem_insertAll, List.exists_mem_cons_iff, or_assoc]
    rfl

theorem infer_evaluates {facts : List Triple} {D : OrderedSet Triple}
    (hD : (infer facts rules config).result = .ok D) : ∃ start es, Graph.ofList facts = .ok start ∧
      Evaluates config rules (.ofRules rules) start es ∧
      es.map Evaluated.stratum = stratify rules (.ofRules rules) ∧ ∀ t, t ∈ D ↔ ∃ e ∈ es, t ∈ e.found := by
  rw [infer, Run.result_bind] at hD
  obtain ⟨start, hstart, hD⟩ := bind_eq_ok.1 hD
  obtain ⟨es, hes, strata, mem⟩ := exists_evaluates _ 0 start ∅ D hD
  exact ⟨start, es, hstart, hes, strata, fun t => (mem t).trans (or_iff_right List.not_mem_nil)⟩

theorem Evaluates.derives_of_mem {facts : Graph} {es : List Evaluated}
    (h : Evaluates config rules g facts es) {e : Evaluated} (he : e ∈ es) :
    (e.stratum.derive config e.facts rules g).result = .ok e.found := by
  induction h with
  | nil => exact absurd he List.not_mem_nil
  | cons derives _ _ ih =>
    rcases List.mem_cons.1 he with rfl | he
    · exact derives
    · exact ih he

end TripleChain
