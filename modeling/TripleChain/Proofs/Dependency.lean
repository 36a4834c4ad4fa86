import TripleChain.Dependency.Graph
import TripleChain.Firing
import TripleChain.Proofs.Matching
import TripleChain.Proofs.Pairing

/-!
# Which matches an edge stands for

A triple that a conclusion gives and that a clause without quoted formulas matches comes from a
triple that fits the clause. An edge asks for more: some pairing has to use up the whole conclusion,
or all clauses with no two blank nodes meeting (`feeds_iff_pairing`). So an edge can be missing where
the conclusion and the condition have several triples each.
-/

namespace TripleChain

/-! ## Matched triples fit -/

theorem Term.fits_of_matches {a c : Term} {G : Formula} {b s : Bindings} (hc : c.isFormula = false)
    (h : c.Matches (a.assign G b) s) : a.Fits c := by
  by_cases hslot : a.isSlot = true ∨ c.isSlot = true
  · exact .slot hslot
  rw [not_or, Bool.not_eq_true, Bool.not_eq_true] at hslot
  have ha : a.assign G b = a.substitute b := by simp [Term.assign, hslot.1]
  rw [ha] at h
  cases c with
  | var x => cases hslot.2
  | blank x => cases hslot.2
  | formula cs => cases hc
  | literal l =>
    rw [Term.Matches] at h
    cases a with
    | var x => cases hslot.1
    | blank x => cases hslot.1
    | literal k => rw [Term.substitute] at h; exact h ▸ .literal k
    | iri i => rw [Term.substitute] at h; cases h
    | formula ts => rw [Term.substitute] at h; cases h
  | iri i =>
    rw [Term.Matches] at h
    cases a with
    | var x => cases hslot.1
    | blank x => cases hslot.1
    | literal l => rw [Term.substitute] at h; cases h
    | iri j => rw [Term.substitute] at h; exact h ▸ .iri j
    | formula ts => rw [Term.substitute] at h; cases h

theorem Triple.fits_of_matches {t c : Triple} {G : Formula} {b s : Bindings} (hc : c.IsFlat)
    (h : c.Matches (t.assign G b) s) : t.Fits c := by
  obtain ⟨h₁, h₂, h₃⟩ := Triple.isFlat_iff.1 hc
  obtain ⟨a, p, o⟩ := c
  rw [Triple.Matches] at h
  exact ⟨Term.fits_of_matches h₁ h.1, Term.fits_of_matches h₂ h.2.1, Term.fits_of_matches h₃ h.2.2⟩

theorem Term.blankPairs_of_not {a c : Term} (hc : c.isBlank = false) : a.blankPairs c = [] := by
  cases a <;> cases c <;> first | rfl | cases hc

theorem Triple.blankPairs_of_not {t c : Triple} (hc : ∀ a ∈ c.terms, a.isBlank = false) :
    t.blankPairs c = [] := by
  simp only [Triple.terms, List.mem_cons, List.not_mem_nil, or_false, forall_eq_or_imp,
    forall_eq] at hc
  rw [Triple.blankPairs, Term.blankPairs_of_not hc.1, Term.blankPairs_of_not hc.2.1,
    Term.blankPairs_of_not hc.2.2]
  rfl

/-! ## Edges -/

theorem isPairing_single {ts cs : List Triple} {t c : Triple} (ht : t ∈ ts) (hc : c ∈ cs)
    (fits : t.Fits c) (one : OneToOne (t.blankPairs c)) :
    IsPairing [] ts cs [(t, c)] (ts.erase t) (cs.erase c) :=
  ⟨List.perm_cons_erase ht, List.perm_cons_erase hc, by simpa using fits,
    by simpa using one⟩

theorem ne_nil_of_conclusionFeeds {G F : Formula}
    (h : conclusionFeeds (.formula G) (.formula F) = true) : G ≠ [] ∧ F.readClauses ≠ [] := by
  constructor
  · rintro rfl
    simp [conclusionFeeds] at h
  · intro hF
    simp [conclusionFeeds, hF] at h

theorem conclusionFeeds_iff {B H : Formula} (hB : B ≠ []) (hH : H.readClauses ≠ []) :
    conclusionFeeds (.formula B) (.formula H) = true ↔
      ∃ ps left rest, IsPairing [] B H.readClauses ps left rest ∧
        (left = [] ∨ rest = [] ∧ blankPairsOf ps = []) := by
  rw [← Pairing.anyResidual_true_iff, conclusionFeeds]
  · simp [hH]
  · exact hB

/-- Where a fact from the conclusion `B` of a rule is matched by a clause that the condition `H` of
another rule is read for, the second rule depends on the first exactly if some pairing uses up `B`,
or the clauses with no two blank nodes meeting. -/
theorem feeds_iff_pairing (producer consumer : Rule) (B H : Formula)
    (hB : producer.conclusion = .formula B) (hH : consumer.condition = .formula H) (b : Bindings)
    (fired : List Triple) (hfired : producer.fire b = .ok fired) (f : Triple) (hf : f ∈ fired)
    (c : Triple) (hc : c ∈ H.readClauses) (hbind : c.bind f ∅ ≠ []) :
    (conclusionFeeds producer.conclusion consumer.condition = true ↔
      ∃ ps left rest, IsPairing [] B H.readClauses ps left rest ∧
        (left = [] ∨ rest = [] ∧ blankPairsOf ps = [])) ∧
    (c.IsFlat → ∃ t ∈ B, t.assign B b = f ∧ t.Fits c) ∧
    (c.IsFlat → (∀ a ∈ c.terms, a.isBlank = false) → B.length = 1 ∨ H.readClauses.length = 1 →
      conclusionFeeds producer.conclusion consumer.condition = true) := by
  rw [Rule.fire, hB] at hfired
  obtain rfl := Except.ok.inj hfired
  obtain ⟨t, ht, rfl⟩ := List.mem_map.1 hf
  obtain ⟨s, hs⟩ := List.exists_mem_of_ne_nil _ hbind
  have hm := ((Triple.mem_bind c _ _).1 hs).2
  have hedge := conclusionFeeds_iff (List.ne_nil_of_mem ht) (List.ne_nil_of_mem hc)
  rw [hB, hH]
  refine ⟨hedge, fun flat => ⟨t, ht, rfl, Triple.fits_of_matches flat hm⟩, ?_⟩
  intro flat noBlank hone
  have noPairs : t.blankPairs c = [] := Triple.blankPairs_of_not noBlank
  have one : OneToOne (t.blankPairs c) := by rw [noPairs]; exact fun p hp => absurd hp List.not_mem_nil
  refine hedge.2 ⟨_, _, _, isPairing_single ht hc (Triple.fits_of_matches flat hm) one, ?_⟩
  rcases hone with hone | hone
  · obtain ⟨u, rfl⟩ := List.length_eq_one_iff.1 hone
    left
    rw [List.mem_singleton.1 ht, List.erase_cons_head]
  · obtain ⟨d, hd⟩ := List.length_eq_one_iff.1 hone
    right
    rw [hd] at hc
    rw [hd, List.mem_singleton.1 hc, List.erase_cons_head]
    refine ⟨rfl, ?_⟩
    rw [← List.mem_singleton.1 hc, blankPairsOf_cons, noPairs, blankPairsOf_nil, List.append_nil]

/-- A conclusion of two triples feeds the one clause that is read. -/
theorem feeds_iff_pairing_one_clause :
    let known : Triple := ⟨.var "x", .iri "knows", .var "y"⟩
    let met : Triple := ⟨.var "x", .iri "met", .var "y"⟩
    let clause : Triple := ⟨.var "u", .iri "knows", .var "v"⟩
    let producer := Rule.ofLists [⟨.var "x", .iri "likes", .var "y"⟩] [known, met]
    let consumer := Rule.ofLists [clause] [⟨.var "v", .iri "knownBy", .var "u"⟩]
    let b := Bindings.ofList [(.var "x", .iri "a"), (.var "y", .iri "b")]
    let f : Triple := ⟨.iri "a", .iri "knows", .iri "b"⟩
    conclusionFeeds producer.conclusion consumer.condition = true ∧
      (∃ ps left rest, IsPairing [] [known, met] [clause] ps left rest ∧
        (left = [] ∨ rest = [] ∧ blankPairsOf ps = [])) ∧
      ∃ t ∈ [known, met], t.assign [known, met] b = f ∧ t.Fits clause := by
  intro known met clause producer consumer b f
  have flat : clause.IsFlat := by unfold Triple.IsFlat; decide
  obtain ⟨hiff, hfits, hone⟩ := feeds_iff_pairing producer consumer [known, met] [clause] rfl rfl b _
    rfl f (by decide) clause (by decide) (by decide)
  have hedge := hone flat (by decide) (.inr (by decide))
  exact ⟨hedge, hiff.1 hedge, hfits flat⟩

/-- A conclusion and a condition of two triples each have one in common, and there is no edge. -/
theorem feeds_of_matched_false :
    ¬ ∀ (producer consumer : Rule) (B H : Formula), producer.conclusion = .formula B →
      consumer.condition = .formula H → ∀ b : Bindings, (∀ e ∈ b.entries, e.2.isVar = false) →
      ∀ fired, producer.fire b = .ok fired → ∀ f ∈ fired, ∀ c ∈ H.readClauses, c.bind f ∅ ≠ [] →
      conclusionFeeds producer.conclusion consumer.condition = true := by
  intro claim
  let common : Triple := ⟨.var "x", .iri "p", .var "y"⟩
  let producer := Rule.ofLists [⟨.var "x", .iri "s", .var "y"⟩] [common, ⟨.var "x", .iri "r", .var "y"⟩]
  let consumer := Rule.ofLists [common, ⟨.var "x", .iri "q", .var "y"⟩] [⟨.var "x", .iri "t", .var "y"⟩]
  let b := Bindings.ofList [(.var "x", .iri "a"), (.var "y", .iri "b")]
  have hedge := claim producer consumer _ _ rfl rfl b (by decide) _ rfl
    ⟨.iri "a", .iri "p", .iri "b"⟩ (by decide) common (by decide) (by decide)
  have hnone : conclusionFeeds producer.conclusion consumer.condition = false := by decide
  rw [hnone] at hedge
  cases hedge

end TripleChain
