import TripleChain.Proofs.LeastModel

/-!
# Work lists

Rules that feed each other are fired from a list of those that may still have something to derive. No rule
is left out that has not derived all that it can (`Cycle.State.Settled`), so when the list is empty the
facts and what was derived are the least set that holds the facts and is closed under the rules
(`Cycle.derive_isLeast`).
-/

namespace TripleChain

namespace Cycle

section
variable {config : Config} {rules : List Rule} {members : List Nat} {facts : Graph} {D : OrderedSet Triple}
  (basic : ∀ r ∈ members.filterMap fun i => rules[i]?, ∃ F c, r.IsBasic F c)
  (hD : (derive config facts rules (.ofRules rules) members).result = .ok D)
include basic hD

/-- However the passes end. -/
theorem derive_subset {M : Set Triple} (hf : Within M facts.toList)
    (closes : ∀ r ∈ members.filterMap fun i => rules[i]?, r.Closes config M) : Within M D.toList := by
  have plain := plain_of_basic basic
  have confined : ∀ r ∈ members.filterMap fun i => rules[i]?, r.Confined False config M := by
    intro r hr
    obtain ⟨F, G, h⟩ := plain r hr
    exact h.confined (closes r hr)
  have run : Run.Ends False (derive config facts rules (.ofRules rules) members) fun D => Within M D.toList :=
    derive_within False.elim confined (evaluable_of_plain plain).notNegative facts hf False.elim
  exact run.ensures D hD

theorem hasVar_of_derive : ∀ t ∈ D, t.hasVar = false := by
  apply derive_subset basic hD facts.noVar
  intro r hr g E _ hE
  obtain ⟨F, G, h⟩ := plain_of_basic basic r hr
  exact Rule.hasVar_of_derive h.conclusion hE

theorem derive_keeps (uncut : ∀ bound, .passesExhausted bound ∉
      (derive config facts rules (.ofRules rules) members).events) :
    ∀ r ∈ members.filterMap fun i => rules[i]?, r.Keeps config {t | t ∈ facts.toList ∨ t ∈ D} := by
  have plain := plain_of_basic basic
  have run : Run.Yields (fun e => ∀ bound, e ≠ .passesExhausted bound)
      (derive config facts rules (.ofRules rules) members) fun D =>
        ∀ r ∈ members.filterMap fun i => rules[i]?, r.SaturatedBy config facts D :=
    derive_saturated (fun bound h => h bound rfl) plain (feedsWhatFits_of_basic basic) facts
  have saturated := run D hD fun e he bound same => uncut bound (same ▸ he)
  intro r hr
  obtain ⟨F, G, h⟩ := plain r hr
  exact h.keeps_of_saturated (saturated r hr) (hasVar_of_derive basic hD)

end

/-- What rules that feed each other derive, each of which concludes one triple and whose conditions quote
nothing, open no scope and have no blank nodes, is in every set that holds the facts and is closed under
the rules. Unless the number of passes is exhausted while rules are pending, it is with the facts the least
such set. -/
theorem derive_isLeast (config : Config) (facts : Graph) (rules : List Rule) (members : List Nat)
    (basic : ∀ r ∈ members.filterMap fun i => rules[i]?, ∃ F c, r.IsBasic F c) (D : OrderedSet Triple)
    (hD : (derive config facts rules (.ofRules rules) members).result = .ok D) :
    (∀ M : Set Triple, (∀ t ∈ facts.toList, t ∈ M) →
      (∀ r ∈ members.filterMap fun i => rules[i]?, r.Closes config M) → ∀ t ∈ D, t ∈ M) ∧
    ((∀ bound, .passesExhausted bound ∉ (derive config facts rules (.ofRules rules) members).events) →
      IsLeast {M : Set Triple | (∀ t ∈ facts.toList, t ∈ M) ∧
          ∀ r ∈ members.filterMap fun i => rules[i]?, r.Keeps config M}
        {t | t ∈ facts.toList ∨ t ∈ D}) := by
  refine ⟨fun M hf closes => derive_subset basic hD hf closes, fun uncut => ⟨⟨?_, ?_⟩, ?_⟩⟩
  · exact fun t ht => .inl ht
  · exact derive_keeps basic hD uncut
  · intro M hM t ht
    cases ht with
    | inl ht => exact hM.1 t ht
    | inr ht => exact derive_subset basic hD hM.1 (fun r hr => (hM.2 r hr).closes) t ht

/-- Along a chain each step turns even to odd and odd to even. With a single pass what comes later than the
second step is not found. -/
theorem derive_isLeast_parity :
    let next (x y : String) : Triple := ⟨.iri x, .iri "next", .iri y⟩
    let is (x y : String) : Triple := ⟨.iri x, .iri "is", .iri y⟩
    let turn (a b : String) := Rule.ofLists [⟨.var "x", .iri "is", .iri a⟩, ⟨.var "x", .iri "next", .var "y"⟩]
      [⟨.var "y", .iri "is", .iri b⟩]
    let rules := [turn "even" "odd", turn "odd" "even"]
    let facts := (Graph.ofList [is "a" "even", next "a" "b", next "b" "c", next "c" "d"]).toOption.getD ∅
    (∃ D, (derive {} facts rules (.ofRules rules) [0, 1]).result = .ok D ∧ is "d" "odd" ∈ D ∧
      IsLeast {M : Set Triple | (∀ t ∈ facts.toList, t ∈ M) ∧ ∀ r ∈ rules, r.Keeps {} M}
        {t | t ∈ facts.toList ∨ t ∈ D}) ∧
    ∃ D, (derive (Config.withRoundLimit {} 1) facts rules (.ofRules rules) [0, 1]).result = .ok D ∧
      is "d" "odd" ∉ D ∧ ∀ M : Set Triple, (∀ t ∈ facts.toList, t ∈ M) →
        (∀ r ∈ rules, r.Closes (Config.withRoundLimit {} 1) M) → ∀ t ∈ D, t ∈ M := by
  intro next is turn rules facts
  have basic : ∀ r ∈ rules, ∃ F c, r.IsBasic F c := by
    intro r hr
    rcases List.mem_pair.1 hr with rfl | rfl
    · exact ⟨_, _, ⟨rfl, rfl, by decide, by decide⟩, by decide⟩
    · exact ⟨_, _, ⟨rfl, rfl, by decide, by decide⟩, by decide⟩
  have run : (derive {} facts rules (.ofRules rules) [0, 1]).result.toOption.map
      (fun D => decide (is "d" "odd" ∈ D)) = some true := by decide +kernel
  have quiet : ∀ e ∈ (derive {} facts rules (.ofRules rules) [0, 1]).events, e.level ≠ .warning := by
    decide +kernel
  have run' : (derive (Config.withRoundLimit {} 1) facts rules (.ofRules rules) [0, 1]).result.toOption.map
      (fun D => decide (is "d" "odd" ∈ D)) = some false := by decide +kernel
  constructor
  · obtain ⟨D, hD, found⟩ := exists_ok_of_map run
    refine ⟨D, hD, of_decide_eq_true found, (derive_isLeast {} facts rules [0, 1] basic D hD).2 ?_⟩
    exact fun bound h => quiet _ h rfl
  · obtain ⟨D, hD, missed⟩ := exists_ok_of_map run'
    refine ⟨D, hD, of_decide_eq_false missed, ?_⟩
    exact (derive_isLeast (Config.withRoundLimit {} 1) facts rules [0, 1] basic D hD).1

end Cycle

end TripleChain
