import Mathlib.Order.Bounds.Basic
import TripleChain.Proofs.Idempotence
import TripleChain.Proofs.Values

/-!
# The least model

Rules that conclude one clause each, none of which feeds itself through others, are passed over once, each
after those that feed it. With the facts, what they derive is the least set that holds the facts and is
closed under the rules, in whatever order the rules are listed (`infer_isLeast`).
-/

namespace TripleChain

variable {rules listed : List Rule}

/-! ## Strata of one rule each -/

namespace DependencyGraph

theorem acyclic_of_simple (simple : ∀ s ∈ stratify rules (ofRules rules), s.kind = .simple) :
    (ofRules rules).Acyclic := by
  intro x hx
  obtain ⟨given, perm⟩ := components_given (ofRules rules)
  obtain ⟨z, -, hzx⟩ := Relation.TransGen.tail'_iff.1 hx
  obtain ⟨c, hc, hxc⟩ := List.mem_flatten.1 (perm.mem_iff.2 (List.mem_range.2 (lt_of_mem_dependsOn hzx)))
  obtain ⟨i, rfl, hself, -⟩ := stratumKind_eq_simple.1 (simple _ (List.mem_map_of_mem hc))
  obtain rfl := List.mem_singleton.1 hxc
  exact given.not_depends_self hc hself hx

theorem simple_of_acyclic (pos : ∀ r ∈ rules, r.isNegative = false) (h : (ofRules rules).Acyclic) :
    ∀ s ∈ stratify rules (ofRules rules), s.kind = .simple := by
  intro s hs
  obtain ⟨c, hc, rfl⟩ := List.mem_map.1 hs
  obtain ⟨x, rfl⟩ := (components_given (ofRules rules)).1.singleton h hc
  refine stratumKind_eq_simple.2 ⟨x, rfl, fun hx => h x (.single hx), ?_⟩
  cases hr : rules[x]? with
  | none => rfl
  | some r => exact pos r (List.mem_of_getElem? hr)

/-- Listing the same rules in another order makes no cycle. -/
theorem acyclic_congr (same : ∀ r, r ∈ listed ↔ r ∈ rules) (h : (ofRules rules).Acyclic) :
    (ofRules listed).Acyclic := by
  let place (i : Nat) : Nat := (listed[i]?.map fun r => rules.idxOf r).getD 0
  have edge : ∀ i j, j ∈ (ofRules listed).dependsOn i → place j ∈ (ofRules rules).dependsOn (place i) := by
    intro i j hij
    have known : ∀ {k}, k < (ofRules listed).size → ∃ r, listed[k]? = some r ∧ rules[place k]? = some r := by
      intro k hk
      rw [size_ofRules] at hk
      have hr := (same _).1 (List.getElem_mem hk)
      refine ⟨listed[k], List.getElem?_eq_getElem hk, ?_⟩
      have hplace : place k = rules.idxOf listed[k] := by simp [place, hk]
      rw [hplace]
      exact List.getElem?_idxOf hr
    have hi := (List.mem_filter.1 (mem_triggers.2 hij)).1
    obtain ⟨r, hr, hr'⟩ := known (List.mem_range.1 hi)
    obtain ⟨p, hp, hp'⟩ := known (lt_of_mem_dependsOn hij)
    rw [mem_dependsOn_ofRules hp hr] at hij
    exact (mem_dependsOn_ofRules hp' hr').2 hij
  exact fun x hx => h (place x) (hx.lift place edge)

end DependencyGraph

theorem simple_congr (pos : ∀ r ∈ rules, r.isNegative = false) (same : ∀ r, r ∈ listed ↔ r ∈ rules)
    (simple : ∀ s ∈ stratify rules (.ofRules rules), s.kind = .simple) :
    ∀ s ∈ stratify listed (.ofRules listed), s.kind = .simple :=
  DependencyGraph.simple_of_acyclic (fun r hr => pos r ((same r).1 hr))
    (DependencyGraph.acyclic_congr same (DependencyGraph.acyclic_of_simple simple))

/-! ## One pass for each rule -/

/-- Every pass over triples of the set succeeds and gives triples of the set. -/
def Rule.Keeps (r : Rule) (config : Config) (M : Set Triple) : Prop :=
  ∀ store : Store, Within M store.toList → ∃ E, r.derive config store = .ok E ∧ Within M E.toList

theorem Rule.Keeps.closes {r : Rule} {config : Config} {M : Set Triple} (h : r.Keeps config M) :
    r.Closes config M := by
  intro g D hg hD
  obtain ⟨E, hE, hM⟩ := h (.graph g) hg
  obtain rfl : D = E := Except.ok.inj (hD.symm.trans hE)
  exact hM

theorem Rule.IsPlain.keeps {r : Rule} {F G : Formula} (h : r.IsPlain F G) {config : Config} {store : Store}
    (closed : ∀ E, r.derive config store = .ok E → ∀ t ∈ E, t ∈ store.toList) :
    r.Keeps config {t | t ∈ store.toList} := by
  intro store' hstore'
  obtain ⟨E, hE, -⟩ := derive_eq_ok h config store
  obtain ⟨E', hE', -⟩ := derive_eq_ok h config store'
  exact ⟨E', hE', fun t ht => closed E hE t (derive_mono h hstore' hE' hE ht)⟩

/-- The rule concludes one clause, and its condition has no blank nodes. -/
structure Rule.IsBasic (r : Rule) (F : Formula) (c : Triple) : Prop where
  plain : r.IsPlain F [c]
  noBlank : ∀ d ∈ F, ∀ a ∈ d.terms, a.isBlank = false

theorem Rule.IsPlain.keeps_of_saturated {r : Rule} {F G : Formula} (h : r.IsPlain F G) {config : Config}
    {facts : Graph} {D : OrderedSet Triple} (saturated : r.SaturatedBy config facts D)
    (noVar : ∀ t ∈ D, t.hasVar = false) : r.Keeps config {t | t ∈ facts.toList ∨ t ∈ D} := by
  obtain ⟨grown, hgrown⟩ := facts.exists_addAll noVar
  have members : ∀ t, t ∈ grown.toList ↔ t ∈ facts.toList ∨ t ∈ D := fun t => Graph.mem_addAll hgrown
  have keeps : r.Keeps config {t | t ∈ (Store.graph grown).toList} := h.keeps (saturated grown members)
  have eq : {t | t ∈ (Store.graph grown).toList} = {t | t ∈ facts.toList ∨ t ∈ D} := Set.ext members
  rwa [eq] at keeps

section
variable (basic : ∀ r ∈ rules, ∃ F c, r.IsBasic F c)
  (simple : ∀ s ∈ stratify rules (.ofRules rules), s.kind = .simple)
include basic

theorem plain_of_basic : ∀ r ∈ rules, ∃ F G, r.IsPlain F G := by
  intro r hr
  obtain ⟨F, c, h⟩ := basic r hr
  exact ⟨F, [c], h.plain⟩

theorem feedsWhatFits_of_basic : ∀ p ∈ rules, ∀ c ∈ rules, p.FeedsWhatFits c := by
  intro p hp c hc
  obtain ⟨F, _, h⟩ := basic c hc
  obtain ⟨_, d, h'⟩ := basic p hp
  refine Rule.feedsWhatFits_of_single h.plain.condition h'.plain.conclusion (fun e he => ?_) (.inl rfl)
  exact h.noBlank e ((Formula.mem_readClauses h.plain.scopeFree).1 he).1

include simple

theorem exact_of_simple : Exact rules where
  plain := plain_of_basic basic
  edges := feedsWhatFits_of_basic basic
  recursive s hs kind := by
    rw [simple s hs] at kind
    cases kind

variable (config : Config) {facts : List Triple} (noVar : ∀ t ∈ facts, t.hasVar = false)
include noVar

/-- The run comes to its end, and no variable enters what it derives. -/
theorem infer_simple_succeeds :
    ∃ D, (infer facts rules config).result = .ok D ∧ ∀ t ∈ D, t.hasVar = false := by
  have plain := plain_of_basic basic
  have closes : ∀ r ∈ rules, r.Closes config {t | t.hasVar = false} := by
    intro r hr g D _ hD
    obtain ⟨F, G, h⟩ := plain r hr
    exact Rule.hasVar_of_derive h.conclusion hD
  have evaluated : ∀ s ∈ stratify rules (.ofRules rules), ∃ facts₀ D₀,
      (s.derive config facts₀ rules (.ofRules rules)).result = .ok D₀ := by
    intro s hs
    obtain ⟨r, one, -, eq⟩ :=
      Stratum.derive_of_simple (evaluable_of_plain plain).notNegative hs (simple s hs) config
    obtain ⟨F, G, h⟩ := plain r (Stratum.mem_of_mem_rulesOf (s := s) (one ▸ List.mem_singleton_self r))
    obtain ⟨D, hD, -⟩ := Rule.derive_eq_ok h config (.graph ∅)
    exact ⟨∅, D, by rw [eq, Run.result_lift, hD]⟩
  have run : Run.Ends True (infer facts rules config) fun D => Within {t | t.hasVar = false} D.toList :=
    infer_ends (fun _ _ h => h) plain closes noVar fun _ => evaluated
  obtain ⟨D, hD⟩ := run.succeeds trivial
  exact ⟨D, hD, run.ensures D hD⟩

/-- With the facts, what is derived is closed under the rules, and in every such set. -/
theorem infer_simple_isLeast : ∃ D, (infer facts rules config).result = .ok D ∧
    IsLeast {M : Set Triple | (∀ t ∈ facts, t ∈ M) ∧ ∀ r ∈ rules, r.Keeps config M}
      {t | t ∈ facts ∨ t ∈ D} := by
  have plain := plain_of_basic basic
  obtain ⟨D, hD, hvar⟩ := infer_simple_succeeds basic simple config noVar
  refine ⟨D, hD, ⟨fun t ht => .inl ht, fun r hr => ?_⟩, fun M hM t ht => ?_⟩
  · have exact := exact_of_simple basic simple
    -- No event tells of a bound, so none is excluded.
    have run : Run.Yields (fun _ => True) (infer facts rules config) fun D =>
        ∃ g, Graph.ofList facts = .ok g ∧ ∀ r ∈ rules, r.SaturatedBy config g D :=
      infer_saturated_of exact facts fun s hs => Stratum.simple_saturated exact hs (simple s hs)
    obtain ⟨g, hg, saturated⟩ := run D hD fun _ _ => trivial
    obtain ⟨F, G, h⟩ := plain r hr
    have keeps := h.keeps_of_saturated (saturated r hr) hvar
    have eq : {t | t ∈ g.toList ∨ t ∈ D} = {t | t ∈ facts ∨ t ∈ D} :=
      Set.ext fun t => or_congr_left (Graph.mem_ofList hg)
    rwa [eq] at keeps
  · rcases ht with ht | ht
    · exact hM.1 t ht
    · exact infer_within plain (fun r hr => (hM.2 r hr).closes) hM.1 D hD t ht

end

/-- Where every stratum is one rule that does not feed itself, each rule concludes one clause, and the
conditions quote nothing, open no scope and have no blank nodes, the facts and what is derived from them
are the least set that holds the facts and is closed under the rules. Rules listed in another order
derive the same. -/
theorem infer_isLeast (config : Config) (facts : List Triple) (rules : List Rule)
    (noVar : ∀ t ∈ facts, t.hasVar = false) (basic : ∀ r ∈ rules, ∃ F c, r.IsBasic F c)
    (simple : ∀ s ∈ stratify rules (.ofRules rules), s.kind = .simple) :
    ∃ D, (infer facts rules config).result = .ok D ∧
      IsLeast {M : Set Triple | (∀ t ∈ facts, t ∈ M) ∧ ∀ r ∈ rules, r.Keeps config M}
        {t | t ∈ facts ∨ t ∈ D} ∧
      (∀ store : Store, (∀ t ∈ facts, t ∈ store.toList) →
        (∀ r ∈ rules, ∀ E, r.derive config store = .ok E → ∀ t ∈ E, t ∈ store.toList) →
        ∀ t ∈ D, t ∈ store.toList) ∧
      ∀ listed : List Rule, (∀ r, r ∈ listed ↔ r ∈ rules) → ∃ D',
        (infer facts listed config).result = .ok D' ∧
          ∀ t, t ∈ facts ∨ t ∈ D' ↔ t ∈ facts ∨ t ∈ D := by
  have plain := plain_of_basic basic
  obtain ⟨D, hD, least⟩ := infer_simple_isLeast basic simple config noVar
  refine ⟨D, hD, least, fun store hf closed t ht => ?_, fun listed same => ?_⟩
  · have model : (∀ t ∈ facts, t ∈ {t | t ∈ store.toList}) ∧
        ∀ r ∈ rules, r.Keeps config {t | t ∈ store.toList} := by
      refine ⟨hf, fun r hr => ?_⟩
      obtain ⟨F, G, h⟩ := plain r hr
      exact h.keeps (closed r hr)
    exact least.2 model (.inr ht)
  · have pos := (evaluable_of_plain plain).notNegative
    obtain ⟨D', hD', least'⟩ := infer_simple_isLeast (fun r hr => basic r ((same r).1 hr))
      (simple_congr pos same simple) config noVar
    simp only [same] at least'
    have eq := least'.unique least
    exact ⟨D', hD', fun t => Set.ext_iff.1 eq t⟩

/-- The rules are listed against the direction in which they feed each other, and one computes. -/
theorem infer_isLeast_chain :
    let fact (x p y : String) : Triple := ⟨.iri x, .iri p, .iri y⟩
    let ask (p y : String) : Triple := ⟨.var "x", .iri p, .iri y⟩
    let late := Rule.ofLists [⟨.var "x", .iri "named", .var "n"⟩,
      ⟨.var "n", .iri Vocabulary.stringNotLessThan, .literal (.string "m")⟩] [ask "is" "late"]
    let queued := Rule.ofLists [ask "is" "late", ⟨.var "x", .iri "at", .var "d"⟩]
      [⟨.var "d", .iri "queues", .var "x"⟩]
    let busy := Rule.ofLists [⟨.var "d", .iri "queues", .var "y"⟩] [⟨.var "d", .iri "is", .iri "busy"⟩]
    let facts : List Triple := [⟨.iri "zoe", .iri "named", .literal (.string "zoe")⟩,
      ⟨.iri "ann", .iri "named", .literal (.string "ann")⟩, fact "zoe" "at" "door", fact "ann" "at" "desk"]
    (∀ t ∈ facts, t.hasVar = false) ∧ (∀ r ∈ [busy, queued, late], ∃ F c, r.IsBasic F c) ∧
      (∀ s ∈ stratify [busy, queued, late] (.ofRules [busy, queued, late]), s.kind = .simple) ∧
      ∃ D D', (infer facts [busy, queued, late]).result = .ok D ∧
        (infer facts [late, busy, queued]).result = .ok D' ∧ fact "door" "is" "busy" ∈ D ∧
        (∀ t, t ∈ facts ∨ t ∈ D' ↔ t ∈ facts ∨ t ∈ D) ∧
        IsLeast {M : Set Triple | (∀ t ∈ facts, t ∈ M) ∧ ∀ r ∈ [busy, queued, late], r.Keeps {} M}
          {t | t ∈ facts ∨ t ∈ D} := by
  intro fact ask late queued busy facts
  have noVar : ∀ t ∈ facts, t.hasVar = false := by decide
  have basic : ∀ r ∈ [busy, queued, late], ∃ F c, r.IsBasic F c := by
    intro r hr
    simp only [List.mem_cons, List.not_mem_nil, or_false] at hr
    rcases hr with rfl | rfl | rfl
    · exact ⟨_, _, ⟨rfl, rfl, by decide, by decide⟩, by decide⟩
    · exact ⟨_, _, ⟨rfl, rfl, by decide, by decide⟩, by decide⟩
    · exact ⟨_, _, ⟨rfl, rfl, by decide, by decide⟩, by decide⟩
  have simple : ∀ s ∈ stratify [busy, queued, late] (.ofRules [busy, queued, late]),
      s.kind = .simple := by decide +kernel
  have listed : ∀ r, r ∈ [late, busy, queued] ↔ r ∈ [busy, queued, late] := by
    intro r
    simp only [List.mem_cons, List.not_mem_nil, or_false]
    tauto
  have run : (infer facts [busy, queued, late]).result.toOption.map (·.toList.getLast?) =
      some (some (fact "door" "is" "busy")) := by decide +kernel
  obtain ⟨E, hE, last⟩ := exists_ok_of_map run
  obtain ⟨D, hD, least, -, order⟩ := infer_isLeast {} facts _ noVar basic simple
  obtain ⟨D', hD', same⟩ := order _ listed
  obtain rfl : D = E := Except.ok.inj (hD.symm.trans hE)
  exact ⟨noVar, basic, simple, D, D', hD, hD', List.mem_of_getLast? last, same, least⟩

end TripleChain
