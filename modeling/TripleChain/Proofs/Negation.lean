import TripleChain.Inference.Negation
import TripleChain.Proofs.Passes

/-!
# What a negation blocks

A rule with negations derives what its other clauses give, less all that some match of them gives
under which the negated formulas hold together (`mem_deriveNegated`). So a triple is lost once one
of the matches that give it is blocked, and several negations block together, not each by itself.
-/

namespace TripleChain

/-! ## Matches -/

theorem Bindings.Extends.congr {b s : Bindings} {xs ys : List Term} (h : ∀ k, k ∈ xs ↔ k ∈ ys)
    (hs : b.Extends xs s) : b.Extends ys s :=
  ⟨hs.keeps, fun k => by rw [hs.keys, h]⟩

/-- `s` gives values to the slots of the clauses, besides those of `b`, and every clause matches a
triple of the store. -/
structure Store.IsMatch (store : Store) (clauses : List Triple) (b s : Bindings) : Prop where
  extends' : b.Extends (Triple.allSlots clauses) s
  holds : ∀ c ∈ clauses, ∃ t ∈ store.toList, c.Matches t s

section
variable {store : Store} {config : Config} {cs ds : List Triple} {b s m : Bindings}

theorem Store.isMatch_iff : store.IsMatch cs b s ↔ s ∈ Triple.bindAll cs store.toList b := by
  rw [Triple.mem_bindAll, Triple.allMatch_iff]
  exact ⟨fun h => ⟨h.extends', h.holds⟩, fun h => ⟨h.1, h.2⟩⟩

theorem Store.not_exists_isMatch : (¬ ∃ m, store.IsMatch cs b m) ↔ Triple.bindAll cs store.toList b = [] := by
  simp only [isMatch_iff, List.eq_nil_iff_forall_not_mem, not_exists]

theorem Store.IsMatch.congr (h : ∀ c, c ∈ cs ↔ c ∈ ds) (hs : store.IsMatch cs b s) :
    store.IsMatch ds b s where
  extends' := hs.extends'.congr fun k => by simp only [Triple.mem_allSlots, h]
  holds c hc := hs.holds c ((h c).2 hc)

theorem Store.isMatch_append : store.IsMatch (cs ++ ds) b m ↔
    ∃ s, store.IsMatch cs b s ∧ store.IsMatch ds s m := by
  have hslots : Triple.allSlots (cs ++ ds) = Triple.allSlots cs ++ Triple.allSlots ds := by
    simp [Triple.allSlots_eq_flatMap]
  -- A clause matched after the first part is matched after both, and the other way round.
  have stable : ∀ {s}, b.Extends (Triple.allSlots cs) s → s.Extends (Triple.allSlots ds) m →
      ∀ c ∈ cs, ∀ t, c.Matches t s ↔ c.Matches t m := by
    intro s hs hm c hc t
    exact Triple.matches_congr c t fun k hk =>
      hs.values_eq hm k (Triple.mem_allSlots.2 ⟨c, hc, hk⟩)
  constructor
  · rintro ⟨hext, holds⟩
    rw [hslots, Bindings.extends_append] at hext
    obtain ⟨s, hs, hm⟩ := hext
    refine ⟨s, ⟨hs, fun c hc => ?_⟩, hm, fun c hc => holds c (List.mem_append_right _ hc)⟩
    obtain ⟨t, ht, h⟩ := holds c (List.mem_append_left _ hc)
    exact ⟨t, ht, (stable hs hm c hc t).2 h⟩
  · rintro ⟨s, hs, hm⟩
    refine ⟨hslots ▸ hs.extends'.trans hm.extends', fun c hc => ?_⟩
    rcases List.mem_append.1 hc with hc | hc
    · obtain ⟨t, ht, h⟩ := hs.holds c hc
      exact ⟨t, ht, (stable hs.extends' hm.extends' c hc t).1 h⟩
    · exact hm.holds c hc

theorem Store.answers_stored (config : Config) (store : Store) (h : ∀ c ∈ cs, c.isComputed = false) :
    ∃ bs, store.answers config cs = .all bs ∧ ∀ s, s ∈ bs ↔ store.IsMatch cs ∅ s := by
  refine ⟨_, Search.solveWith_stored (fun c hc => h c (Config.mem_order.1 hc)) ∅, fun s => ?_⟩
  rw [← Store.isMatch_iff]
  exact ⟨.congr fun _ => Config.mem_order, .congr fun _ => Config.mem_order.symm⟩

theorem Store.answers_ofList (config : Config) (store : Store) (h : ∀ c ∈ cs, c.isComputed = false) :
    ∃ bs, store.answers config (Formula.ofList cs) = .all bs ∧ ∀ s, s ∈ bs ↔ store.IsMatch cs ∅ s := by
  obtain ⟨bs, hbs, mem⟩ := store.answers_stored config fun c hc => h c (Formula.mem_ofList.1 hc)
  refine ⟨bs, hbs, fun s => ?_⟩
  rw [mem]
  exact ⟨.congr fun _ => Formula.mem_ofList, .congr fun _ => Formula.mem_ofList.symm⟩

/-- Cutting a match down to the slots of some of its clauses gives the match of these. -/
theorem Store.IsMatch.restrict_eq (hs : store.IsMatch cs ∅ s) (hm : store.IsMatch ds s m)
    {p : Term → Bool} (hp : ∀ k, p k = true ↔ k ∈ Triple.allSlots cs) : m.restrict p = s := by
  apply Bindings.ext_get?
  intro k
  rw [Bindings.get?_restrict]
  have hkeys : k ∈ s.keys ↔ k ∈ Triple.allSlots cs := by
    rw [hs.extends'.keys]
    exact or_iff_right (by simp [Bindings.mem_keys])
  by_cases hk : k ∈ Triple.allSlots cs
  · rw [if_pos ((hp k).2 hk), hm.extends'.get?_eq (hkeys.2 hk)]
  · rw [if_neg (fun h => hk ((hp k).1 h)), Bindings.get?_eq_none.2 (fun h => hk (hkeys.1 h))]

end

/-! ## Rules with negations -/

namespace Rule

/-- The clauses of all negated formulas. -/
def negatedClauses (F : Formula) : List Triple :=
  F.flatMap fun c => if c.isNegation then c.object.formula?.getD [] else []

theorem mem_heldClauses {F : Formula} {c : Triple} :
    c ∈ heldClauses F ↔ c ∈ plainClauses F ∨ c ∈ negatedClauses F := by
  simp only [heldClauses, plainClauses, negatedClauses, List.mem_flatMap, List.mem_filter]
  constructor
  · rintro ⟨d, hd, hc⟩
    by_cases hn : d.isNegation = true
    · exact .inr ⟨d, hd, by rwa [if_pos hn] at hc ⊢⟩
    · rw [if_neg hn, List.mem_singleton] at hc
      exact .inl ⟨hc ▸ hd, by simpa [hc] using hn⟩
  · rintro (⟨hc, hn⟩ | ⟨d, hd, hc⟩)
    · exact ⟨c, hc, by simp_all⟩
    · refine ⟨d, hd, ?_⟩
      by_cases hn : d.isNegation = true
      · rwa [if_pos hn] at hc ⊢
      · rw [if_neg hn] at hc
        exact absurd hc List.not_mem_nil

theorem mem_negatedClauses {F : Formula} {c : Triple} : c ∈ negatedClauses F ↔
    ∃ d ∈ F, d.isNegation = true ∧ ∃ N, d.object = .formula N ∧ c ∈ N := by
  simp only [negatedClauses, List.mem_flatMap]
  refine exists_congr fun d => and_congr_right fun _ => ?_
  by_cases hn : d.isNegation = true
  · rw [if_pos hn]
    cases d.object <;> simp [Term.formula?, hn]
  · rw [if_neg hn]
    simp [hn]

variable {r : Rule} {F G : Formula}

theorem mem_slots_quoting {cs : List Triple} {k : Term} :
    k ∈ (Term.quoting cs).slots ↔ k ∈ Triple.allSlots cs := by
  simp only [Term.quoting, Term.slots, Triple.mem_allSlots, Formula.mem_ofList]

/-- A negated rule fires the matches of its plain clauses, and those of all clauses cut down to
the slots of the plain ones. -/
theorem result_deriveNegated (hF : r.condition = .formula F) (config : Config) (store : Store) :
    (r.deriveNegated config store).result =
      ((r.withCondition (plainClauses F)).derive config store).bind fun candidates =>
        let matched := store.answers config (Formula.ofList (heldClauses F))
        ((r.withCondition (heldClauses F)).fireAnswers { matched with
          found := matched.found.map fun m =>
            m.restrict fun k => (Term.quoting (plainClauses F)).slots.contains k }).bind fun blocked =>
              .ok (candidates.filter fun t => t ∉ blocked) := by
  have hr : r.conditionFormula = .ok F := by rw [conditionFormula, hF]
  have hheld : (r.withCondition (heldClauses F)).conditionFormula =
      .ok (Formula.ofList (heldClauses F)) := rfl
  simp only [deriveNegated, held, plain, hr, Run.result_bind, Run.result_lift, Except.map, ok_bind,
    hheld, Run.result_report, Run.result_pure]
  rfl

theorem isMatch_heldClauses {store : Store} {m : Bindings} : store.IsMatch (heldClauses F) ∅ m ↔
    ∃ s, store.IsMatch (plainClauses F) ∅ s ∧ store.IsMatch (negatedClauses F) s m := by
  have hmem : ∀ c, c ∈ heldClauses F ↔ c ∈ plainClauses F ++ negatedClauses F := by
    intro c
    rw [mem_heldClauses, List.mem_append]
  rw [← Store.isMatch_append]
  exact ⟨.congr hmem, .congr fun c => (hmem c).symm⟩

theorem restrict_plain {store : Store} {s m : Bindings} (hs : store.IsMatch (plainClauses F) ∅ s)
    (hm : store.IsMatch (negatedClauses F) s m) :
    (m.restrict fun k => (Term.quoting (plainClauses F)).slots.contains k) = s := by
  refine hs.restrict_eq hm fun k => ?_
  rw [List.contains_iff_mem, mem_slots_quoting]

/-- Without its negations the rule derives what the matches of its plain clauses give. -/
theorem derive_plain (hG : r.conclusion = .formula G) (config : Config) (store : Store)
    (stored : ∀ c ∈ plainClauses F, c.isComputed = false) :
    ∃ candidates, (r.withCondition (plainClauses F)).derive config store = .ok candidates ∧
      ∀ t, t ∈ candidates ↔ ∃ s, store.IsMatch (plainClauses F) ∅ s ∧ r.Fires s t := by
  obtain ⟨bs, hbs, memBs⟩ := Store.answers_ofList config store stored
  obtain ⟨candidates, hcand, memCand⟩ :=
    fireAnswers_formula (r := r.withCondition (plainClauses F)) hG bs
  refine ⟨candidates, ?_, fun t => by simp only [memCand, memBs, fires_iff hG]⟩
  rw [← hcand, ← hbs]
  rfl

theorem mem_deriveNegated (hF : r.condition = .formula F) (hG : r.conclusion = .formula G)
    (config : Config) (store : Store) (stored : ∀ c ∈ heldClauses F, c.isComputed = false) :
    ∃ D, (r.deriveNegated config store).result = .ok D ∧ ∀ t, t ∈ D ↔
      (∃ s, store.IsMatch (plainClauses F) ∅ s ∧ r.Fires s t) ∧
        ¬ ∃ s m, store.IsMatch (plainClauses F) ∅ s ∧ store.IsMatch (negatedClauses F) s m ∧
          r.Fires s t := by
  have plainStored : ∀ c ∈ plainClauses F, c.isComputed = false :=
    fun c hc => stored c (mem_heldClauses.2 (.inl hc))
  obtain ⟨candidates, hplain, memCand⟩ := derive_plain (r := r) hG config store plainStored
  obtain ⟨ms, hms, memMs⟩ := Store.answers_ofList config store stored
  obtain ⟨blocked, hblocked, memBlocked⟩ :=
    fireAnswers_formula (r := r.withCondition (heldClauses F)) hG
      (ms.map fun m => m.restrict fun k => (Term.quoting (plainClauses F)).slots.contains k)
  refine ⟨candidates.filter fun t => t ∉ blocked, ?_, fun t => ?_⟩
  · rw [result_deriveNegated hF, hplain, ok_bind, hms]
    dsimp only [Answers.all] at hblocked ⊢
    rw [hblocked, ok_bind]
  have matchHeld : ∀ m, m ∈ ms ↔ ∃ s, store.IsMatch (plainClauses F) ∅ s ∧
      store.IsMatch (negatedClauses F) s m := fun m => (memMs m).trans isMatch_heldClauses
  have hblocked : t ∈ blocked ↔ ∃ s m, store.IsMatch (plainClauses F) ∅ s ∧
      store.IsMatch (negatedClauses F) s m ∧ r.Fires s t := by
    rw [memBlocked]
    simp only [← fires_iff hG]
    constructor
    · rintro ⟨b, hb, hfires⟩
      obtain ⟨m, hm, rfl⟩ := List.mem_map.1 hb
      obtain ⟨s, hs, hsm⟩ := (matchHeld m).1 hm
      exact ⟨s, m, hs, hsm, restrict_plain hs hsm ▸ hfires⟩
    · rintro ⟨s, m, hs, hsm, hfires⟩
      exact ⟨s, List.mem_map.2 ⟨m, (matchHeld m).2 ⟨s, hs, hsm⟩, restrict_plain hs hsm⟩, hfires⟩
  rw [OrderedSet.mem_filter, decide_eq_true_eq, memCand, hblocked]

/-- A rule with negations derives what some match of its other clauses gives, and no match under
which all its negated formulas hold together. With one negation, a triple that a single match gives
is derived exactly if the negated formula does not hold under this match. -/
theorem deriveNegated_correct (r : Rule) (F G : Formula) (hF : r.condition = .formula F)
    (hG : r.conclusion = .formula G) (config : Config) (store : Store)
    (plainStored : ∀ c ∈ plainClauses F, c.isComputed = false)
    (negatedStored : ∀ c ∈ negatedClauses F, c.isComputed = false) :
    ∃ D, (r.deriveNegated config store).result = .ok D ∧
      (∀ t, t ∈ D ↔ (∃ s, store.IsMatch (plainClauses F) ∅ s ∧ r.Fires s t) ∧
        ∀ s, store.IsMatch (plainClauses F) ∅ s → r.Fires s t →
          ¬ ∃ m, store.IsMatch (negatedClauses F) s m) ∧
      ∀ d N, F.filter Triple.isNegation = [d] → d.object = .formula N →
        ∀ t, (∀ s s', store.IsMatch (plainClauses F) ∅ s → store.IsMatch (plainClauses F) ∅ s' →
          r.Fires s t → r.Fires s' t → s = s') →
        (t ∈ D ↔ ∃ s, store.IsMatch (plainClauses F) ∅ s ∧ (¬ ∃ m, store.IsMatch N s m) ∧
          r.Fires s t) := by
  have stored : ∀ c ∈ heldClauses F, c.isComputed = false := by
    intro c hc
    rcases mem_heldClauses.1 hc with hc | hc
    · exact plainStored c hc
    · exact negatedStored c hc
  obtain ⟨D, hD, mem⟩ := mem_deriveNegated hF hG config store stored
  refine ⟨D, hD, fun t => ?_, fun d N hd hN t unique => ?_⟩
  · rw [mem]
    refine and_congr_right fun _ => ⟨fun h s hs hfires ⟨m, hm⟩ => h ⟨s, m, hs, hm, hfires⟩, ?_⟩
    rintro h ⟨s, m, hs, hm, hfires⟩
    exact h s hs hfires ⟨m, hm⟩
  · have hmem : ∀ c, c ∈ negatedClauses F ↔ c ∈ N := by
      intro c
      have hone : ∀ e, e ∈ F ∧ e.isNegation = true ↔ e = d := by
        intro e
        rw [← List.mem_filter, hd, List.mem_singleton]
      rw [mem_negatedClauses]
      constructor
      · rintro ⟨e, he, hn, M, hM, hc⟩
        obtain rfl := (hone e).1 ⟨he, hn⟩
        rw [hN] at hM
        exact Term.formula.inj hM ▸ hc
      · intro hc
        obtain ⟨he, hn⟩ := (hone d).2 rfl
        exact ⟨d, he, hn, N, hN, hc⟩
    rw [mem]
    constructor
    · rintro ⟨⟨s, hs, hfires⟩, h⟩
      exact ⟨s, hs, fun ⟨m, hm⟩ => h ⟨s, m, hs, hm.congr fun c => (hmem c).symm, hfires⟩, hfires⟩
    · rintro ⟨s, hs, free, hfires⟩
      refine ⟨⟨s, hs, hfires⟩, ?_⟩
      rintro ⟨s', m, hs', hm, hfires'⟩
      obtain rfl := unique s s' hs hs' hfires hfires'
      exact free ⟨m, hm.congr hmem⟩

/-- A group has a member if someone in it is in neither of two lists. -/
def memberRule : Rule := .ofLists
  [⟨.var "x", .iri "group", .var "y"⟩,
    ⟨.blank "s", .iri Vocabulary.notIncludes, .formula [⟨.var "x", .iri "first", .iri "on"⟩]⟩,
    ⟨.blank "s", .iri Vocabulary.notIncludes, .formula [⟨.var "x", .iri "second", .iri "on"⟩]⟩]
  [⟨.var "y", .iri "has", .iri "member"⟩]

/-- In the group `g`, `a` is in no list and `b` in both; in the group `h`, `c` is in one list. -/
def groupFacts : List Triple :=
  [⟨.iri "a", .iri "group", .iri "g"⟩, ⟨.iri "b", .iri "group", .iri "g"⟩,
    ⟨.iri "b", .iri "first", .iri "on"⟩, ⟨.iri "b", .iri "second", .iri "on"⟩,
    ⟨.iri "c", .iri "group", .iri "h"⟩, ⟨.iri "c", .iri "first", .iri "on"⟩]

theorem exists_groupGraph : ∃ g, Graph.ofList groupFacts = .ok g ∧ g.toList = groupFacts :=
  exists_ok_of_map (by decide +kernel)

/-- Only the group `h` is derived. -/
theorem deriveNegated_correct_groups : ∃ g D, Graph.ofList groupFacts = .ok g ∧
    (memberRule.deriveNegated {} (.graph g)).result = .ok D ∧
    ⟨.iri "h", .iri "has", .iri "member"⟩ ∈ D ∧ ⟨.iri "g", .iri "has", .iri "member"⟩ ∉ D := by
  obtain ⟨g, hg, facts⟩ := exists_groupGraph
  obtain ⟨D, hD, mem, -⟩ := deriveNegated_correct memberRule _ _ rfl rfl {} (.graph g)
    (by decide) (by decide)
  have store : (Store.graph g).toList = groupFacts := facts
  simp only [Store.not_exists_isMatch] at mem
  simp only [Store.isMatch_iff, fires_iff (r := memberRule) rfl, store] at mem
  refine ⟨g, D, hg, hD, (mem _).2 (by decide +kernel), fun h => ?_⟩
  exact absurd ((mem _).1 h) (by decide +kernel)

/-- `a` is in no list, so each negation by itself lets its match through; yet the group `g` is lost,
because the match of `b` gives it as well. -/
theorem deriveNegated_per_match_false :
    ¬ ∀ (r : Rule) (F G : Formula), r.condition = .formula F → r.conclusion = .formula G →
      (∀ c ∈ plainClauses F, c.isComputed = false) → (∀ c ∈ negatedClauses F, c.isComputed = false) →
      ∀ (config : Config) (store : Store) (D : OrderedSet Triple),
      (r.deriveNegated config store).result = .ok D → ∀ t, t ∈ D ↔
        ∃ s, store.IsMatch (plainClauses F) ∅ s ∧
          (∀ d ∈ F, d.isNegation = true → ∀ N, d.object = .formula N → ¬ ∃ m, store.IsMatch N s m) ∧
          r.Fires s t := by
  intro claim
  obtain ⟨g, hg, facts⟩ := exists_groupGraph
  have store : (Store.graph g).toList = groupFacts := facts
  obtain ⟨D, hD, mem⟩ := mem_deriveNegated (r := memberRule) rfl rfl {} (.graph g) (by decide)
  let lost : Triple := ⟨.iri "g", .iri "has", .iri "member"⟩
  let s := Bindings.ofList [(.var "x", .iri "a"), (.var "y", .iri "g")]
  have hlost : lost ∉ D := by
    rw [mem]
    simp only [Store.isMatch_iff, fires_iff (r := memberRule) rfl, store]
    let m := Bindings.ofList [(.var "x", .iri "b"), (.var "y", .iri "g")]
    exact fun h => h.2 ⟨m, m, by decide +kernel, by decide +kernel, by decide +kernel⟩
  apply hlost
  rw [claim memberRule _ _ rfl rfl (by decide) (by decide) {} (.graph g) D hD lost]
  refine ⟨s, ?_, ?_, (fires_iff rfl).2 (by decide +kernel)⟩
  · rw [Store.isMatch_iff, store]
    decide +kernel
  · have none : ∀ d ∈ (memberRule.condition.formula?.getD []), d.isNegation = true →
        Triple.bindAll (d.object.formula?.getD []) groupFacts s = [] := by decide +kernel
    intro d hd hn N hN
    rw [Store.not_exists_isMatch, store]
    have := none d hd hn
    rwa [hN] at this

end Rule

end TripleChain
