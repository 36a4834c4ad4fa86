import TripleChain.Proofs.Negation

/-!
# Blocked matches

A match of all clauses, the negated ones included, is cut down to the match of the plain ones that it
extends before it is fired. So it mints the labels that this match mints, and a match that is blocked
takes away what it would have given and nothing else (`Rule.deriveNegated_diff`).
-/

namespace TripleChain

namespace Rule

/-- What a match of all clauses tells of the plain ones. -/
def plainPart (F : Formula) (m : Bindings) : Bindings :=
  m.restrict fun k => (Term.quoting (plainClauses F)).slots.contains k

/-- A match of the plain clauses that extends to one of all the negated formulas together. -/
structure Blocked (store : Store) (F : Formula) (s : Bindings) : Prop where
  plain : store.IsMatch (plainClauses F) ∅ s
  held : ∃ m, store.IsMatch (negatedClauses F) s m

section
variable {r : Rule} {F G : Formula} {store : Store} {s m : Bindings}

theorem isMatch_plainPart (h : store.IsMatch (heldClauses F) ∅ m) :
    store.IsMatch (plainClauses F) ∅ (plainPart F m) ∧ store.IsMatch (negatedClauses F) (plainPart F m) m := by
  obtain ⟨s, hs, hm⟩ := isMatch_heldClauses.1 h
  have part : plainPart F m = s := restrict_plain hs hm
  rw [part]
  exact ⟨hs, hm⟩

theorem blocked_iff : Blocked store F s ↔ ∃ m, store.IsMatch (heldClauses F) ∅ m ∧ plainPart F m = s := by
  constructor
  · rintro ⟨hs, m, hm⟩
    exact ⟨m, isMatch_heldClauses.2 ⟨s, hs, hm⟩, restrict_plain hs hm⟩
  · rintro ⟨m, hm, rfl⟩
    exact ⟨(isMatch_plainPart hm).1, m, (isMatch_plainPart hm).2⟩

theorem fire_plainPart (hG : r.conclusion = .formula G) (hs : store.IsMatch (plainClauses F) ∅ s)
    (hm : store.IsMatch (negatedClauses F) s m) :
    (r.withCondition (heldClauses F)).fire (plainPart F m) = .ok (G.map fun c => c.assign G s) := by
  have part : plainPart F m = s := restrict_plain hs hm
  rw [part, fire_formula (r := r.withCondition (heldClauses F)) hG]

end

/-- A rule with negations gives what its plain clauses give, less what the blocked matches give: those that
extend to a match of all clauses, of which they are the part that is fired. Labels minted for them are the
same with the negated clauses and without. -/
theorem deriveNegated_diff (r : Rule) (F G : Formula) (hF : r.condition = .formula F)
    (hG : r.conclusion = .formula G) (config : Config) (store : Store)
    (plainStored : ∀ c ∈ plainClauses F, c.isComputed = false)
    (negatedStored : ∀ c ∈ negatedClauses F, c.isComputed = false) :
    ∃ D candidates, (r.deriveNegated config store).result = .ok D ∧
      (r.withCondition (plainClauses F)).derive config store = .ok candidates ∧
      (∀ t, t ∈ D ↔ (∃ s, store.IsMatch (plainClauses F) ∅ s ∧ r.Fires s t) ∧
        ¬ ∃ s, Blocked store F s ∧ r.Fires s t) ∧
      (∀ t, t ∈ candidates ∧ t ∉ D ↔ ∃ s, Blocked store F s ∧ r.Fires s t) ∧
      (∀ s, Blocked store F s ↔ ∃ m, store.IsMatch (heldClauses F) ∅ m ∧ plainPart F m = s) ∧
      ∀ s m, store.IsMatch (plainClauses F) ∅ s → store.IsMatch (negatedClauses F) s m →
        (r.withCondition (heldClauses F)).fire (plainPart F m) = .ok (G.map fun c => c.assign G s) := by
  have stored : ∀ c ∈ heldClauses F, c.isComputed = false := by
    intro c hc
    cases mem_heldClauses.1 hc with
    | inl hc => exact plainStored c hc
    | inr hc => exact negatedStored c hc
  obtain ⟨D, hD, mem⟩ := mem_deriveNegated hF hG config store stored
  obtain ⟨candidates, hcand, memCand⟩ := derive_plain (r := r) hG config store plainStored
  have memD : ∀ t, t ∈ D ↔ (∃ s, store.IsMatch (plainClauses F) ∅ s ∧ r.Fires s t) ∧
      ¬ ∃ s, Blocked store F s ∧ r.Fires s t := by
    intro t
    rw [mem]
    refine and_congr_right fun _ => not_congr ⟨?_, ?_⟩
    · exact fun ⟨s, m, hs, hm, hfires⟩ => ⟨s, ⟨hs, m, hm⟩, hfires⟩
    · exact fun ⟨s, ⟨hs, m, hm⟩, hfires⟩ => ⟨s, m, hs, hm, hfires⟩
  refine ⟨D, candidates, hD, hcand, memD, fun t => ?_, fun s => blocked_iff, ?_⟩
  · rw [memD, memCand]
    constructor
    · intro ⟨given, lost⟩
      by_contra free
      exact lost ⟨given, free⟩
    · intro ⟨s, blocked, hfires⟩
      exact ⟨⟨s, blocked.plain, hfires⟩, fun h => h.2 ⟨s, blocked, hfires⟩⟩
  · intro s m hs hm
    exact fire_plainPart hG hs hm

/-- Whoever is in no list is tagged with a blank node. -/
def tagCondition : Formula := .ofList [⟨.var "x", .iri "is", .iri "on"⟩,
  ⟨.blank "s", .iri Vocabulary.notIncludes, .formula [⟨.var "x", .iri "listed", .var "l"⟩]⟩]

def tagRule : Rule := .ofLists tagCondition [⟨.var "x", .iri "tag", .blank "t"⟩]

/-- The tag of `b` is minted with the list and without it, and so it is lost. -/
theorem deriveNegated_diff_minted :
    let facts : List Triple := [⟨.iri "a", .iri "is", .iri "on"⟩, ⟨.iri "b", .iri "is", .iri "on"⟩,
      ⟨.iri "b", .iri "listed", .iri "l"⟩]
    let tag (x : String) := Triple.assign [⟨.var "x", .iri "tag", .blank "t"⟩]
      ⟨.var "x", .iri "tag", .blank "t"⟩ (.ofList [(.var "x", .iri x)])
    ∃ g D candidates, Graph.ofList facts = .ok g ∧ (tagRule.deriveNegated {} (.graph g)).result = .ok D ∧
      (tagRule.withCondition (plainClauses tagCondition)).derive {} (.graph g) = .ok candidates ∧
      tag "b" ∈ candidates ∧ ∀ t, t ∈ D ↔ t = tag "a" := by
  intro facts tag
  obtain ⟨g, hg, hfacts⟩ : ∃ g, Graph.ofList facts = .ok g ∧ g.toList = facts :=
    exists_ok_of_map (by decide +kernel)
  obtain ⟨D, candidates, hD, hcand, memD, memLost, -⟩ :=
    deriveNegated_diff tagRule tagCondition _ rfl rfl {} (.graph g) (by decide) (by decide)
  have store : (Store.graph g).toList = facts := hfacts
  let one (x : String) := Bindings.ofList [(.var "x", .iri x)]
  have isMatch : ∀ s, (Store.graph g).IsMatch (plainClauses tagCondition) ∅ s ↔
      s = one "a" ∨ s = one "b" := by
    intro s
    have all : Triple.bindAll (plainClauses tagCondition) facts ∅ = [one "a", one "b"] := by decide +kernel
    rw [Store.isMatch_iff, store, all, List.mem_pair]
  have blocked : ∀ s, Blocked (.graph g) tagCondition s ↔ s = one "b" := by
    intro s
    have none : Triple.bindAll (negatedClauses tagCondition) facts (one "a") = [] := by decide +kernel
    have found : Triple.bindAll (negatedClauses tagCondition) facts (one "b") ≠ [] := by decide +kernel
    rw [← store, ← Store.not_exists_isMatch] at none
    rw [← store, Ne, ← Store.not_exists_isMatch, not_not] at found
    constructor
    · rintro ⟨plain, held⟩
      rcases (isMatch s).1 plain with rfl | rfl
      · exact absurd held none
      · rfl
    · rintro rfl
      exact ⟨(isMatch _).2 (.inr rfl), found⟩
  have fires : ∀ x t, tagRule.Fires (one x) t ↔ t = tag x := by
    intro x t
    rw [fires_iff (r := tagRule) rfl]
    constructor
    · rintro ⟨c, hc, h⟩
      rw [List.mem_singleton.1 hc] at h
      exact h
    · exact fun h => ⟨_, List.mem_singleton_self _, h⟩
  have other : tag "a" ≠ tag "b" := by
    intro h
    have subject : Term.iri "a" = .iri "b" := congrArg Triple.subject h
    exact absurd subject (by decide)
  refine ⟨g, D, candidates, hg, hD, hcand, ?_, fun t => ?_⟩
  · exact ((memLost _).2 ⟨_, (blocked _).2 rfl, (fires _ _).2 rfl⟩).1
  · rw [memD]
    simp only [isMatch, blocked, fires, or_and_right, exists_or, exists_eq_left]
    constructor
    · rintro (⟨h, -⟩ | ⟨h, kept⟩)
      · exact h
      · exact absurd h kept
    · rintro rfl
      exact .inl ⟨rfl, other⟩

end Rule

end TripleChain
