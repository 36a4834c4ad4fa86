import Mathlib.Data.Set.Defs
import TripleChain.Proofs.Runs
import TripleChain.Proofs.Strata
import TripleChain.Proofs.Walk

/-!
# Soundness of inference

Whatever stratum a rule is in, inference derives triples from facts and from triples derived
before by passes of single rules. Guards and rests are instances of stored clauses, hence facts.
So all that is derived lies in every set of triples that holds the facts and is closed under the
rules (`infer_sound`). Where no pass fails, a stratum that has been evaluated once can be evaluated
on any facts of such a set.
-/

namespace TripleChain

/-! ## Sets closed under rules -/

def Within (M : Set Triple) (ts : List Triple) : Prop := ∀ t ∈ ts, t ∈ M

/-- Whatever the rule derives from facts of the set is in the set. -/
def Rule.Closes (r : Rule) (config : Config) (M : Set Triple) : Prop :=
  ∀ (g : Graph) (D : OrderedSet Triple), Within M g.toList → r.derive config (.graph g) = .ok D →
    Within M D.toList

/-- What the rule derives from facts of the set is in the set, and so are the instances of clauses of
its condition. In a `total` setting no pass fails. -/
structure Rule.Confined (total : Prop) (config : Config) (M : Set Triple) (r : Rule) : Prop where
  closes : r.Closes config M
  instances : ∀ (F clauses : Formula), r.condition = .formula F →
    (∀ c ∈ clauses, c ∈ F ∧ c.isComputed = false) → ∀ (facts : Store) (g : Graph),
    Within M facts.toList → Guard.instances config facts clauses = .ok g → Within M g.toList
  plain : total → ∃ F G, r.IsPlain F G

section
variable {M : Set Triple} {config : Config} {rules : List Rule} {total : Prop}

theorem Within.insertAll {D : OrderedSet Triple} {ts : List Triple} (hD : Within M D.toList)
    (ht : Within M ts) : Within M (D.insertAll ts).toList := by
  intro t h
  rcases OrderedSet.mem_insertAll.1 h with h | h
  · exact hD t h
  · exact ht t h

theorem Within.addAll {g g' : Graph} {ts : List Triple} (hg : Within M g.toList) (ht : Within M ts)
    (h : g.addAll ts = .ok g') : Within M g'.toList := by
  intro t hm
  rcases (Graph.mem_addAll h).1 hm with hm | hm
  · exact hg t hm
  · exact ht t hm

theorem within_empty : Within M (∅ : OrderedSet Triple).toList := fun _ h => absurd h List.not_mem_nil

/-! ## Steps -/

theorem Rule.IsPlain.exists_instances {r : Rule} {F G : Formula} (h : r.IsPlain F G) (config : Config)
    {store : Store} (taken : ∀ t ∈ store.toList, t.hasVar = false) {clauses : Formula}
    (sub : ∀ c ∈ clauses, c ∈ F ∧ c.isComputed = false) :
    ∃ g, Guard.instances config store clauses = .ok g :=
  Guard.exists_instances (fun c hc => (sub c hc).2) (fun c hc => h.flat c (sub c hc).1) taken

/-- What a pass over the store alone tells, where no clause opens a scope. -/
theorem Rule.OpensNoScope.closes {r : Rule} {F G : Formula} {store : Store} (h : r.OpensNoScope F G)
    (closed : ∃ E, r.derive config store = .ok E ∧ ∀ t ∈ E, t ∈ store.toList) :
    r.Closes config {t | t ∈ store.toList} := by
  obtain ⟨E, hE, hclosed⟩ := closed
  intro g D hg hD t ht
  have hsub : ∀ u ∈ (Store.graph g).toList, u ∈ store.toList := hg
  exact hclosed t (h.derive_mono hsub hD hE ht)

variable (noVar : total → ∀ t ∈ M, t.hasVar = false)
include noVar

theorem ends_addAll {g : Graph} {ts : List Triple} (hg : Within M g.toList) (ht : Within M ts) :
    Run.Ends total (liftM (g.addAll ts)) fun g' => Within M g'.toList :=
  Run.ends_lift (fun _ h => hg.addAll ht h) fun h => Graph.exists_addAll (fun t hm => noVar h t (ht t hm)) g

omit noVar in
theorem Rule.IsPlain.confined {r : Rule} {F G : Formula} (h : r.IsPlain F G) (hr : r.Closes config M) :
    r.Confined total config M where
  closes := hr
  instances F' clauses hF sub facts g hf hg t ht := by
    obtain rfl : F = F' := Term.formula.inj (h.condition.symm.trans hF)
    exact hf t (Guard.mem_instances (fun c hc => (sub c hc).2) (fun c hc => h.flat c (sub c hc).1) hg ht)
  plain _ := ⟨F, G, h⟩

omit noVar in
theorem Rule.Closes.ends_derive {r : Rule} (hr : r.Closes config M) (plain : total → ∃ F G, r.IsPlain F G)
    {g : Graph} (hg : Within M g.toList) :
    Run.Ends total (liftM (r.derive config (.graph g))) fun D => Within M D.toList := by
  refine Run.ends_lift (fun D hD => hr g D hg hD) fun ht => ?_
  obtain ⟨F, G, h⟩ := plain ht
  obtain ⟨D, hD, -⟩ := Rule.derive_eq_ok h config (.graph g)
  exact ⟨D, hD⟩

omit noVar in
theorem Rule.Confined.ends_derive {r : Rule} (hr : r.Confined total config M) {g : Graph}
    (hg : Within M g.toList) :
    Run.Ends total (liftM (r.derive config (.graph g))) fun D => Within M D.toList :=
  hr.closes.ends_derive hr.plain hg

theorem Rule.Confined.ends_instances {r : Rule} (hr : r.Confined total config M) {F clauses : Formula}
    (hF : r.condition = .formula F) (sub : ∀ c ∈ clauses, c ∈ F ∧ c.isComputed = false) {facts : Store}
    (hf : Within M facts.toList) :
    Run.Ends total (liftM (Guard.instances config facts clauses)) fun g => Within M g.toList := by
  refine Run.ends_lift (fun g hg => hr.instances F clauses hF sub facts g hf hg) fun ht => ?_
  obtain ⟨F', G, h⟩ := hr.plain ht
  obtain rfl : F = F' := Term.formula.inj (hF.symm.trans h.condition)
  exact h.exists_instances config (fun t htm => noVar ht t (hf t htm)) sub

/-! ## Rules that feed themselves -/

theorem Rule.rounds_within {r : Rule} (hr : r.Closes config M) (plain : total → ∃ F G, r.IsPlain F G)
    (facts : Store) (bound left : Nat) (store : Graph) (derived : OrderedSet Triple) (hs : Within M store.toList)
    (hd : Within M derived.toList) :
    Run.Ends total (r.rounds config facts bound left store derived) fun D => Within M D.toList := by
  induction left generalizing store derived with
  | zero =>
    unfold Rule.rounds
    by_cases hb : bound ≠ 0
    · rw [if_pos hb]
      exact (Run.ends_report _).bind fun _ _ => Run.ends_pure hd
    · rw [if_neg hb]
      exact Run.ends_pure hd
  | succ left ih =>
    unfold Rule.rounds
    refine (hr.ends_derive plain hs).bind fun found hfound => ?_
    refine (ends_addAll noVar hs hfound).bind fun grown hgrown => ?_
    refine (Run.ends_report _).bind fun _ _ => ?_
    have hmore := hd.insertAll hfound
    split
    · exact Run.ends_pure hmore
    · exact ih grown _ hgrown hmore

omit noVar in
theorem Rule.OpensNoScope.not_negative {r : Rule} {F G : Formula} (h : r.OpensNoScope F G) :
    r.isNegative = false :=
  isNegative_eq_false h.condition fun c hc => (h.scopeFree c hc).not_negation

omit noVar in
theorem Rule.deriveRecursive_of_formula {r : Rule} {G : Formula} (pos : r.isNegative = false)
    (hG : r.conclusion = .formula G) (facts : Store) : r.deriveRecursive config facts = (do
      let split ← Guard.split r r
      let guarding ← Guard.instances config facts split.guard
      let resting ← Guard.instances config facts split.rest
      let rounds := config.rounds (split.bound guarding resting)
      Run.report (.guarded r split.guard guarding.size rounds)
      r.rounds config facts rounds rounds (← guarding.addAll resting.toList) ∅) := by
  have hformula : (!r.conclusion.isFormula) = false := by rw [hG]; rfl
  rw [deriveRecursive, if_neg (by simp [pos]), if_neg (by simp [hformula])]

theorem Rule.deriveRecursive_within {r : Rule} {F G : Formula} (opens : r.OpensNoScope F G)
    (hr : r.Confined total config M) (facts : Store) (hf : Within M facts.toList)
    (splits : total → ∃ split, Guard.split r r = .ok split) :
    Run.Ends total (r.deriveRecursive config facts) fun D => Within M D.toList := by
  rw [deriveRecursive_of_formula opens.not_negative opens.conclusion]
  refine (Run.ends_lift (fun split h => Guard.parts_of_split opens.conclusion opens.condition
    opens.scopeFree h) splits).bind fun split parts => ?_
  have hguard := hr.ends_instances noVar opens.condition parts.guard hf
  have hrest := hr.ends_instances noVar opens.condition parts.rest hf
  refine hguard.bind fun guarding hguarding => hrest.bind fun resting hresting => ?_
  refine (Run.ends_report _).bind fun _ _ => ?_
  refine (ends_addAll noVar hguarding hresting).bind fun store hstore => ?_
  exact Rule.rounds_within noVar hr.closes hr.plain facts _ _ store ∅ hstore within_empty

/-! ## Rules that feed each other -/

namespace Cycle

variable {g : DependencyGraph} {members : List Nat}
  (hr : ∀ r ∈ members.filterMap fun i => rules[i]?, r.Confined total config M)
include hr

theorem fireRule_within (pass : Nat) {i : Nat} (hi : i ∈ members) (s : State)
    (hs : Within M s.store.toList) (hd : Within M s.derived.toList) :
    Run.Ends total (fireRule config rules g pass i s) fun s =>
      Within M s.store.toList ∧ Within M s.derived.toList := by
  unfold fireRule
  cases hrule : rules[i]? with
  | none => exact Run.ends_pure ⟨hs, hd⟩
  | some r =>
    have hmem : r ∈ members.filterMap fun i => rules[i]? := List.mem_filterMap.2 ⟨i, hi, hrule⟩
    refine ((hr r hmem).ends_derive hs).bind fun found hfound => ?_
    refine (ends_addAll noVar hs hfound).bind fun store hstore => ?_
    have hmore := hd.insertAll hfound
    by_cases hadded : found.toList.countP (fun t => !s.store.contains t) = 0
    · rw [if_pos hadded]
      exact Run.ends_pure ⟨hstore, hmore⟩
    · rw [if_neg hadded]
      exact (Run.ends_report _).bind fun _ _ => Run.ends_pure ⟨hstore, hmore⟩

theorem firePending_within (pass : Nat) (pending : List Nat) (hp : ∀ i ∈ pending, i ∈ members)
    (s : State) (hs : Within M s.store.toList) (hd : Within M s.derived.toList) :
    Run.Ends total (firePending config rules g pass pending s) fun s =>
      Within M s.store.toList ∧ Within M s.derived.toList := by
  induction pending generalizing s with
  | nil => exact Run.ends_pure ⟨hs, hd⟩
  | cons i pending ih =>
    unfold firePending
    refine (fireRule_within noVar hr pass (hp i (List.mem_cons_self ..)) s hs hd).bind fun s h => ?_
    exact ih (fun j hj => hp j (List.mem_cons_of_mem _ hj)) s h.1 h.2

theorem passes_within (order : List Nat) (ho : ∀ i ∈ order, i ∈ members) (bound left : Nat)
    (pending : List Nat) (hp : ∀ i ∈ pending, i ∈ members) (s : State)
    (hs : Within M s.store.toList) (hd : Within M s.derived.toList) :
    Run.Ends total (passes config rules g order bound left pending s) fun D => Within M D.toList := by
  induction left generalizing pending s with
  | zero =>
    cases pending with
    | nil => exact Run.ends_pure hd
    | cons i pending =>
      unfold passes
      exact (Run.ends_report _).bind fun _ _ => Run.ends_pure hd
  | succ left ih =>
    cases pending with
    | nil => exact Run.ends_pure hd
    | cons i pending =>
      unfold passes
      refine (firePending_within noVar hr _ (i :: pending) hp { s with triggered := [] }
        hs hd).bind fun s h => ?_
      exact ih _ (fun j hj => ho j (List.mem_filter.1 hj).1) s h.1 h.2

omit noVar hr in
/-- Without negations a cycle runs its passes over the walk through its members. -/
theorem derive_of_walk (config : Config) {walk : List Nat} (hne : members.filterMap (fun i => rules[i]?) ≠ [])
    (pos : ∀ r ∈ members.filterMap fun i => rules[i]?, r.isNegative = false)
    (hwalk : g.walk members = some walk) (facts : Graph) :
    derive config facts rules g members = (do
      let bound := config.rounds (← passBound config (.graph facts) rules walk)
      Run.report (.walk walk bound)
      let order := (OrderedSet.ofList walk).toList
      passes config rules g order bound bound order ⟨facts, ∅, []⟩) := by
  unfold derive
  cases hrules : members.filterMap (fun i => rules[i]?) with
  | nil => exact absurd hrules hne
  | cons lead others =>
    have hfind : (lead :: others).find? Rule.isNegative = none := by
      rw [← hrules, List.find?_eq_none]
      intro r hr
      rw [pos r hr]
      exact Bool.false_ne_true
    dsimp only
    rw [hfind, hwalk]

omit noVar hr in
theorem derive_nil (h : members.filterMap (fun i => rules[i]?) = []) (facts : Graph) :
    derive config facts rules g members = pure ∅ := by
  rw [derive, h]

omit noVar hr in
theorem derive_no_walk (config : Config) (hne : members.filterMap (fun i => rules[i]?) ≠ [])
    (hwalk : g.walk members = none) (facts : Graph) (D : OrderedSet Triple) :
    (derive config facts rules g members).result ≠ .ok D := by
  unfold derive
  cases hrules : members.filterMap (fun i => rules[i]?) with
  | nil => exact absurd hrules hne
  | cons lead others =>
    dsimp only
    rw [hwalk]
    cases (lead :: others).find? Rule.isNegative <;> nofun

/-- The condition of each rule of the walk splits by the conclusion of the one before. -/
def Splits (rules : List Rule) (walk : List Nat) : Prop :=
  walk.IsChain fun i j => ∀ producer consumer, rules[i]? = some producer → rules[j]? = some consumer →
    ∃ split, Guard.split producer consumer = .ok split

omit noVar hr in
theorem passBound_cons_cons (store : Store) {i j : Nat} {walk : List Nat} {producer consumer : Rule}
    (hi : rules[i]? = some producer) (hj : rules[j]? = some consumer) :
    passBound config store rules (i :: j :: walk) =
      (Guard.split producer consumer).bind fun split =>
        (Guard.instances config store split.guard).bind fun guarding =>
          (Guard.instances config store split.rest).bind fun resting =>
            (passBound config store rules (j :: walk)).map fun others =>
              split.bound guarding resting + others := by
  rw [passBound, hi, hj]
  rfl

omit noVar hr in
theorem splits_of_passBound {store : Store} : {walk : List Nat} → {n : Nat} →
    passBound config store rules walk = .ok n → Splits rules walk
  | [], _, _ => .nil
  | [_], _, _ => .singleton _
  | i :: j :: walk, n, h => by
    rw [Splits, List.isChain_cons_cons]
    cases hi : rules[i]? with
    | none =>
      rw [passBound, hi] at h
      exact ⟨nofun, splits_of_passBound h⟩
    | some producer =>
      cases hj : rules[j]? with
      | none =>
        rw [passBound, hi, hj] at h
        exact ⟨nofun, splits_of_passBound h⟩
      | some consumer =>
        rw [passBound_cons_cons store hi hj] at h
        obtain ⟨split, hsplit, h⟩ := bind_eq_ok.1 h
        obtain ⟨_, -, h⟩ := bind_eq_ok.1 h
        obtain ⟨_, -, h⟩ := bind_eq_ok.1 h
        cases hothers : passBound config store rules (j :: walk) with
        | error e =>
          rw [hothers] at h
          cases h
        | ok others =>
          refine ⟨fun p c hp hc => ⟨split, ?_⟩, splits_of_passBound hothers⟩
          rwa [← Option.some.inj hp, ← Option.some.inj hc]

omit noVar hr in
theorem exists_passBound {store : Store} (taken : ∀ t ∈ store.toList, t.hasVar = false) :
    {walk : List Nat} → (∀ r ∈ walk.filterMap fun i => rules[i]?, ∃ F G, r.IsPlain F G) →
    Splits rules walk → ∃ n, passBound config store rules walk = .ok n
  | [], _, _ => ⟨0, rfl⟩
  | [_], _, _ => ⟨0, rfl⟩
  | i :: j :: walk, plain, h => by
    rw [Splits, List.isChain_cons_cons] at h
    have rest : ∀ r ∈ (j :: walk).filterMap fun i => rules[i]?, ∃ F G, r.IsPlain F G := by
      intro r hr
      obtain ⟨k, hk, hkr⟩ := List.mem_filterMap.1 hr
      exact plain r (List.mem_filterMap.2 ⟨k, List.mem_cons_of_mem _ hk, hkr⟩)
    obtain ⟨n, hn⟩ := exists_passBound taken rest h.2
    cases hi : rules[i]? with
    | none => exact ⟨n, by rw [passBound, hi, hn]⟩
    | some producer =>
      cases hj : rules[j]? with
      | none => exact ⟨n, by rw [passBound, hi, hj, hn]⟩
      | some consumer =>
        obtain ⟨split, hsplit⟩ := h.1 producer consumer hi hj
        obtain ⟨F, G, hproducer⟩ := plain producer (List.mem_filterMap.2 ⟨i, by simp, hi⟩)
        obtain ⟨F', G', hconsumer⟩ := plain consumer (List.mem_filterMap.2 ⟨j, by simp, hj⟩)
        have parts := Guard.parts_of_split hproducer.conclusion hconsumer.condition
          hconsumer.scopeFree hsplit
        obtain ⟨guarding, hguarding⟩ := hconsumer.exists_instances config taken parts.guard
        obtain ⟨resting, hresting⟩ := hconsumer.exists_instances config taken parts.rest
        refine ⟨split.bound guarding resting + n, ?_⟩
        rw [passBound_cons_cons store hi hj, hsplit, ok_bind, hguarding, ok_bind, hresting, ok_bind, hn]
        rfl

/-- A cycle that has been evaluated once can be evaluated again. -/
theorem derive_within (pos : ∀ r ∈ members.filterMap fun i => rules[i]?, r.isNegative = false)
    (facts : Graph) (hf : Within M facts.toList) (before : total → ∃ facts₀ D₀,
      (derive config facts₀ rules g members).result = .ok D₀) :
    Run.Ends total (derive config facts rules g members) fun D => Within M D.toList := by
  by_cases hne : members.filterMap (fun i => rules[i]?) = []
  · rw [derive_nil hne]
    exact Run.ends_pure within_empty
  cases hwalk : g.walk members with
  | none =>
    have hno := derive_no_walk config hne hwalk
    refine ⟨fun D hD => absurd hD (hno facts D), fun ht => ?_⟩
    obtain ⟨facts₀, D₀, h₀⟩ := before ht
    exact absurd h₀ (hno facts₀ D₀)
  | some walk =>
    have eq := derive_of_walk config hne pos hwalk
    have horder : ∀ i ∈ (OrderedSet.ofList walk).toList, i ∈ members := fun i hi =>
      (DependencyGraph.mem_walk hwalk i).1 (OrderedSet.mem_ofList.1 hi)
    have hbound : total → ∃ n, passBound config (.graph facts) rules walk = .ok n := by
      intro ht
      obtain ⟨facts₀, D₀, h₀⟩ := before ht
      rw [eq, Run.result_bind] at h₀
      obtain ⟨n, hn, -⟩ := bind_eq_ok.1 h₀
      have taken : ∀ t ∈ (Store.graph facts).toList, t.hasVar = false :=
        fun t hm => noVar ht t (hf t hm)
      refine exists_passBound taken (fun r hwalked => ?_) (splits_of_passBound hn)
      obtain ⟨i, hi, hri⟩ := List.mem_filterMap.1 hwalked
      exact (hr r (List.mem_filterMap.2 ⟨i, (DependencyGraph.mem_walk hwalk i).1 hi, hri⟩)).plain ht
    rw [eq]
    refine (Run.ends_lift (P := fun _ => True) (fun _ _ => trivial) hbound).bind fun bound _ => ?_
    refine (Run.ends_report _).bind fun _ _ => ?_
    exact passes_within noVar hr _ horder _ _ _ horder ⟨facts, ∅, []⟩ hf within_empty

end Cycle

/-! ## All strata -/

/-- No rule has a negation, and the rules that are strata by themselves and feed themselves open no
scopes. -/
structure Evaluable (rules : List Rule) : Prop where
  notNegative : ∀ r ∈ rules, r.isNegative = false
  recursive : ∀ s ∈ stratify rules (.ofRules rules), s.kind = .recursive →
    ∀ r ∈ s.rulesOf rules, ∃ F G, r.OpensNoScope F G

theorem Stratum.derive_within (rule : Evaluable rules) {s : Stratum}
    (hs : s ∈ stratify rules (.ofRules rules))
    (hr : ∀ r ∈ s.rulesOf rules, r.Confined total config M) (facts : Graph)
    (hf : Within M facts.toList) (before : total → ∃ facts₀ D₀,
      (s.derive config facts₀ rules (.ofRules rules)).result = .ok D₀) :
    Run.Ends total (s.derive config facts rules (.ofRules rules)) fun D => Within M D.toList := by
  have hmem : ∀ {r}, s.rulesOf rules = [r] → r ∈ s.rulesOf rules := fun h => h ▸ List.mem_singleton_self _
  rcases Stratum.derive_cases rule.notNegative hs config with ⟨-, r, one, -, eq⟩ |
    ⟨kind, r, one, -, eq⟩ | ⟨-, eq⟩
  · rw [eq]
    exact (hr r (hmem one)).ends_derive hf
  · obtain ⟨F, G, opens⟩ := rule.recursive s hs kind r (hmem one)
    have splits : total → ∃ split, Guard.split r r = .ok split := by
      intro ht
      obtain ⟨facts₀, D₀, h₀⟩ := before ht
      rw [eq, Rule.deriveRecursive_of_formula opens.not_negative opens.conclusion, Run.result_bind] at h₀
      obtain ⟨split, hsplit, -⟩ := bind_eq_ok.1 h₀
      exact ⟨split, hsplit⟩
    rw [eq]
    exact Rule.deriveRecursive_within noVar opens (hr r (hmem one)) _ hf splits
  · rw [eq]
    refine Cycle.derive_within noVar hr
      (fun r h => rule.notNegative r (Stratum.mem_of_mem_rulesOf h)) facts hf fun ht => ?_
    obtain ⟨facts₀, D₀, h₀⟩ := before ht
    exact ⟨facts₀, D₀, by rwa [eq] at h₀⟩

theorem inferStrata_within (rule : Evaluable rules)
    (hr : ∀ r ∈ rules, r.Confined total config M) (strata : List Stratum)
    (hstrata : ∀ s ∈ strata, s ∈ stratify rules (.ofRules rules)) (level : Nat) (closure : Graph)
    (derived : OrderedSet Triple) (hc : Within M closure.toList) (hd : Within M derived.toList)
    (before : total → ∀ s ∈ strata, ∃ facts₀ D₀,
      (s.derive config facts₀ rules (.ofRules rules)).result = .ok D₀) :
    Run.Ends total (inferStrata config rules (.ofRules rules) level strata closure derived) fun D =>
      Within M D.toList := by
  induction strata generalizing level closure derived with
  | nil => exact Run.ends_pure hd
  | cons s strata ih =>
    unfold inferStrata
    refine (Run.ends_report _).bind fun _ _ => ?_
    have here := Stratum.derive_within noVar rule (hstrata s (List.mem_cons_self ..))
      (fun r hm => hr r (Stratum.mem_of_mem_rulesOf hm)) closure hc
      fun ht => before ht s (List.mem_cons_self ..)
    refine here.bind fun found hfound => ?_
    refine (ends_addAll noVar hc hfound).bind fun grown hgrown => ?_
    exact ih (fun s hs => hstrata s (List.mem_cons_of_mem _ hs)) _ grown _ hgrown
      (hd.insertAll hfound) fun ht s hs => before ht s (List.mem_cons_of_mem _ hs)

omit noVar in
theorem evaluable_of_plain (plain : ∀ r ∈ rules, ∃ F G, r.IsPlain F G) : Evaluable rules where
  notNegative r h := by
    obtain ⟨F, G, hplain⟩ := plain r h
    exact hplain.opensNoScope.not_negative
  recursive s _ _ r h := by
    obtain ⟨F, G, hplain⟩ := plain r (Stratum.mem_of_mem_rulesOf h)
    exact ⟨F, G, hplain.opensNoScope⟩

theorem infer_ends (plain : ∀ r ∈ rules, ∃ F G, r.IsPlain F G) (hr : ∀ r ∈ rules, r.Closes config M)
    {facts : List Triple} (hf : Within M facts) (before : total → ∀ s ∈ stratify rules (.ofRules rules),
      ∃ facts₀ D₀, (s.derive config facts₀ rules (.ofRules rules)).result = .ok D₀) :
    Run.Ends total (infer facts rules config) fun D => Within M D.toList := by
  have confined : ∀ r ∈ rules, r.Confined total config M := by
    intro r h
    obtain ⟨F, G, hplain⟩ := plain r h
    exact hplain.confined (hr r h)
  have start : Run.Ends total (liftM (Graph.ofList facts)) fun g => Within M g.toList :=
    ends_addAll noVar (fun _ ht => absurd ht List.not_mem_nil) hf
  unfold infer
  refine start.bind fun closure hc => ?_
  exact inferStrata_within noVar (evaluable_of_plain plain) confined _ (fun _ hs => hs) 0 closure ∅ hc
    within_empty before

omit noVar in
theorem infer_within (plain : ∀ r ∈ rules, ∃ F G, r.IsPlain F G) (hr : ∀ r ∈ rules, r.Closes config M)
    {facts : List Triple} (hf : Within M facts) :
    (infer facts rules config).Ensures fun D => Within M D.toList :=
  (infer_ends False.elim plain hr hf False.elim).ensures

end

/-- Whatever is derived from facts by rules whose conditions quote nothing and open no scope is in
every set of triples that holds the facts and is closed under the rules; in particular in every
store that holds the facts and all that a pass of a rule derives from it. -/
theorem infer_sound (config : Config) (facts : List Triple) (rules : List Rule)
    (plain : ∀ r ∈ rules, ∃ F G, r.IsPlain F G) (D : OrderedSet Triple)
    (hD : (infer facts rules config).result = .ok D) :
    (∀ M : Set Triple, (∀ t ∈ facts, t ∈ M) → (∀ r ∈ rules, r.Closes config M) → ∀ t ∈ D, t ∈ M) ∧
      ∀ store : Store, (∀ t ∈ facts, t ∈ store.toList) →
        (∀ r ∈ rules, ∀ E, r.derive config store = .ok E → ∀ t ∈ E, t ∈ store.toList) →
        ∀ t ∈ D, t ∈ store.toList := by
  have sound : ∀ M : Set Triple, (∀ t ∈ facts, t ∈ M) → (∀ r ∈ rules, r.Closes config M) →
      ∀ t ∈ D, t ∈ M := fun M hf hr => infer_within plain hr hf D hD
  refine ⟨sound, fun store hf hstore => ?_⟩
  apply sound {t | t ∈ store.toList} hf
  intro r hr g E hg hE t ht
  obtain ⟨F, G, hplain⟩ := plain r hr
  obtain ⟨E', hE', -⟩ := Rule.derive_eq_ok hplain config store
  have hsub : ∀ u ∈ (Store.graph g).toList, u ∈ store.toList := hg
  exact hstore r hr E' hE' t (Rule.derive_mono hplain hsub hE hE' ht)

/-- One rule starts paths and the other, which feeds itself, makes them longer. -/
theorem infer_sound_reach :
    let link (x y : Term) : Triple := ⟨x, .iri "next", y⟩
    let path (x y : Term) : Triple := ⟨x, .iri "reach", y⟩
    let start := Rule.ofLists [link (.var "x") (.var "y")] [path (.var "x") (.var "y")]
    let step := Rule.ofLists [path (.var "x") (.var "y"), link (.var "y") (.var "z")]
      [path (.var "x") (.var "z")]
    let facts := [link (.iri "a") (.iri "b"), link (.iri "b") (.iri "c")]
    let store := Store.formula [link (.iri "a") (.iri "b"), link (.iri "b") (.iri "c"),
      path (.iri "a") (.iri "b"), path (.iri "a") (.iri "c"), path (.iri "b") (.iri "c")]
    ∃ D, (infer facts [start, step]).result = .ok D ∧ path (.iri "a") (.iri "c") ∈ D ∧
      ∀ t ∈ D, t ∈ store.toList := by
  intro link path start step facts store
  have hrun : ((infer facts [start, step]).result.toOption.map fun D => D.toList) =
      some [path (.iri "a") (.iri "b"), path (.iri "b") (.iri "c"), path (.iri "a") (.iri "c")] := by
    decide +kernel
  have hpass : ∀ r ∈ [start, step], ∀ E, r.derive {} store = .ok E → ∀ t ∈ E, t ∈ store.toList := by
    have hfound : ∀ r ∈ [start, step], ∀ ts ∈ (r.derive {} store).toOption.map (·.toList),
        ∀ t ∈ ts, t ∈ store.toList := by
      decide +kernel
    intro r hr E hE t ht
    apply hfound r hr E.toList ?_ t ht
    rw [hE]
    rfl
  have plain : ∀ r ∈ [start, step], ∃ F G, r.IsPlain F G := by
    intro r hr
    simp only [List.mem_cons, List.not_mem_nil, or_false] at hr
    rcases hr with rfl | rfl
    · refine ⟨_, _, rfl, rfl, ?_, ?_⟩
      · unfold Triple.IsFlat; decide
      · unfold Triple.ScopeFree; decide
    · refine ⟨_, _, rfl, rfl, ?_, ?_⟩
      · unfold Triple.IsFlat; decide
      · unfold Triple.ScopeFree; decide
  cases hD : (infer facts [start, step]).result with
  | error e => rw [hD] at hrun; cases hrun
  | ok D =>
    rw [hD] at hrun
    have found : D.toList = _ := Option.some.inj hrun
    refine ⟨D, rfl, ?_, (infer_sound {} facts _ plain D hD).2 store (by decide) hpass⟩
    rw [OrderedSet.mem_def, found]
    decide

end TripleChain
