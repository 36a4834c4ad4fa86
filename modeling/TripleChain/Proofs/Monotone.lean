import TripleChain.Proofs.BoundValues

/-!
# More facts, no fewer consequences

Where `log:notIncludes` occurs nowhere, not in a rule and not inside a quoted formula among the
facts, a search of more facts finds whatever a search of fewer finds. This goes through every scope
that a builtin opens. So a pass over more facts derives no less (`derive_subset`), and does not end
earlier than one over fewer facts.
-/

namespace TripleChain

/-! ## Terms without negation -/

mutual

/-- `log:notIncludes` occurs nowhere in the term, not inside quoted formulas either. -/
def Term.isPositive : Term → Bool
  | .iri s => s ≠ Vocabulary.notIncludes
  | .formula ts => Triple.allPositive ts
  | .literal _ | .var _ | .blank _ => true

def Triple.isPositive : Triple → Bool
  | ⟨s, p, o⟩ => s.isPositive && p.isPositive && o.isPositive

def Triple.allPositive : List Triple → Bool
  | [] => true
  | t :: ts => t.isPositive && Triple.allPositive ts

end

/-- Both sides of the rule are formulas, and `log:notIncludes` occurs nowhere in them. -/
structure Rule.IsMonotone (r : Rule) : Prop where
  condition : r.condition.isFormula = true
  conclusion : r.conclusion.isFormula = true
  positive : r.condition.isPositive = true ∧ r.conclusion.isPositive = true

theorem Rule.isMonotone_iff {r : Rule} : r.IsMonotone ↔ r.condition.isFormula = true ∧
    r.conclusion.isFormula = true ∧ r.condition.isPositive = true ∧ r.conclusion.isPositive = true :=
  ⟨fun h => ⟨h.condition, h.conclusion, h.positive⟩, fun h => ⟨h.1, h.2.1, h.2.2⟩⟩

instance (r : Rule) : Decidable r.IsMonotone := decidable_of_iff _ Rule.isMonotone_iff.symm

theorem Term.isFormula_iff {a : Term} : a.isFormula = true ↔ ∃ F, a = .formula F := by
  cases a <;> simp [isFormula]

theorem Triple.allPositive_iff {ts : List Triple} :
    allPositive ts = true ↔ ∀ t ∈ ts, t.isPositive = true := by
  induction ts with
  | nil => simp [allPositive]
  | cons t ts ih => simp [allPositive, ih]

theorem Triple.isPositive_iff {t : Triple} : t.isPositive = true ↔
    t.subject.isPositive = true ∧ t.predicate.isPositive = true ∧ t.object.isPositive = true := by
  obtain ⟨s, p, o⟩ := t
  simp [isPositive, and_assoc]

theorem Triple.isPositive_iff_terms {t : Triple} :
    t.isPositive = true ↔ ∀ a ∈ t.terms, a.isPositive = true := by
  rw [isPositive_iff]
  simp [terms]

/-- A term with the property, as a proposition. -/
def Term.Positive (a : Term) : Prop := a.isPositive = true

theorem Triple.compositional_positive : Compositional Term.Positive fun t => t.isPositive = true where
  literal _ := rfl
  formula _ := Triple.allPositive_iff
  terms _ := Triple.isPositive_iff_terms.1
  substitute t b _ h := by
    refine Triple.isPositive_iff_terms.2 fun a ha => ?_
    rw [Triple.terms_substitute] at ha
    obtain ⟨c, hc, rfl⟩ := List.mem_map.1 ha
    exact h c hc

section
variable {b : Bindings}

theorem Term.positive_assign (h : b.Within Term.Positive) (G : Formula) {a : Term}
    (ha : a.isPositive = true) : (a.assign G b).isPositive = true := by
  unfold Term.assign
  split
  · rfl
  · exact Term.substitute_within Triple.compositional_positive h a ha

theorem Triple.positive_assign (h : b.Within Term.Positive) (G : Formula) {c : Triple}
    (hc : c.isPositive = true) : (c.assign G b).isPositive = true := by
  obtain ⟨h₁, h₂, h₃⟩ := Triple.isPositive_iff.1 hc
  exact Triple.isPositive_iff.2 ⟨Term.positive_assign h G h₁, Term.positive_assign h G h₂,
    Term.positive_assign h G h₃⟩

end

/-! ## Answers from more facts -/

namespace Answers

/-- Where the second search comes to its end, so does the first, and it finds no more. -/
def IsPart (a a' : Answers) : Prop :=
  a'.complete = true → a.complete = true ∧ ∀ s ∈ a.found, s ∈ a'.found

theorem IsPart.refl (a : Answers) : a.IsPart a := fun h => ⟨h, fun _ hs => hs⟩

theorem isPart_all {bs bs' : List Bindings} (h : ∀ s ∈ bs, s ∈ bs') : (all bs).IsPart (all bs') :=
  fun _ => ⟨rfl, h⟩

theorem IsPart.whole {a a' : Answers} (h : a.IsPart a') : (Builtin.whole a).IsPart (Builtin.whole a') := by
  intro h'
  unfold Builtin.whole at h' ⊢
  by_cases hc : a'.complete = true
  · rw [if_pos hc, if_pos (h hc).1]
    exact h hc
  · rw [if_neg hc] at h'
    cases h'

theorem IsPart.andThen {a a' : Answers} (h : a.IsPart a') {next next' : Bindings → Answers}
    (hn : ∀ b ∈ a.found, (next b).IsPart (next' b)) :
    (a.andThen next).IsPart (a'.andThen next') := by
  intro h'
  obtain ⟨ha', hall'⟩ := complete_andThen.1 h'
  obtain ⟨ha, hsub⟩ := h ha'
  have hcomplete : (a.andThen next).complete = true :=
    complete_andThen.2 ⟨ha, fun b hb => (hn b hb (hall' b (hsub b hb))).1⟩
  refine ⟨hcomplete, fun s hs => ?_⟩
  rw [found_andThen hcomplete, List.mem_flatMap] at hs
  rw [found_andThen h', List.mem_flatMap]
  obtain ⟨b, hb, hs⟩ := hs
  exact ⟨b, hsub b hb, (hn b hb (hall' b (hsub b hb))).2 s hs⟩

end Answers

def Store.Positive (store : Store) : Prop := ∀ t ∈ store.toList, t.isPositive = true

theorem Store.Positive.within {store : Store} (h : store.Positive) : store.Within Term.Positive :=
  fun t ht => Triple.isPositive_iff_terms.1 (h t ht)

theorem searchInvariant_positive : SearchInvariant (fun b => b.Within Term.Positive)
    (fun store => store.Within Term.Positive) fun c => c.ScopesIn Term.Positive :=
  searchInvariant_within Triple.compositional_positive.inherited Triple.compositional_positive.substitutes

theorem Triple.scopesIn_of_isPositive {c : Triple} (h : c.isPositive = true) :
    c.ScopesIn Term.Positive :=
  Triple.scopesIn Triple.compositional_positive.inherited c (isPositive_iff_terms.1 h)

/-- More facts give no fewer answers, where patterns and facts are without negation. -/
def Solver.Monotone (inner : Solver) : Prop :=
  ∀ (store store' : Store) (cs : List Triple) (b : Bindings), store.Positive →
    (∀ t ∈ store.toList, t ∈ store'.toList) → (∀ c ∈ cs, c.isPositive = true) →
    b.Within Term.Positive → (inner store cs b).IsPart (inner store' cs b)

namespace Builtin

theorem ne_notIncludes {a : Term} {f : Builtin} (h : a.isPositive = true) (hf : a.builtin? = some f) :
    f ≠ notIncludes := by
  rintro rfl
  rw [eq_of_builtin? hf] at h
  exact absurd h (by decide)

section
variable {inner : Solver} {store store' : Store} {s o : Term} {b : Bindings}

theorem positive_ordered (ho : o.isPositive = true) (hb : b.Within Term.Positive)
    {clauses : Formula} (h : o.resolve b = some (.formula clauses)) :
    ∀ c ∈ orderClauses clauses b.keys, c.isPositive = true := by
  have hclauses : (Term.formula clauses).isPositive = true := Term.resolve_within hb (fun _ => ho) h
  rw [Term.isPositive, Triple.allPositive_iff] at hclauses
  exact fun c hc => hclauses c ((orderClauses_perm clauses b.keys).mem_iff.1 hc)

theorem isPart_evalIncludes (hi : inner.Monotone) (ho : o.isPositive = true)
    (hb : b.Within Term.Positive) (hstore : store.Positive)
    (hsub : ∀ t ∈ store.toList, t ∈ store'.toList) :
    (evalIncludes inner store s o b).IsPart (evalIncludes inner store' s o b) := by
  rcases evalIncludes_cases inner s o b with e | ⟨clauses, hclauses, e | ⟨scope, -, e⟩⟩
  · rw [e, e]
    exact .refl _
  · rw [e, e]
    exact (hi _ _ _ _ hstore hsub (positive_ordered ho hb hclauses) hb).whole
  · rw [e, e]
    exact .refl _

end

end Builtin

namespace Search

section
variable {inner : Solver} (hi : inner.Monotone)
include hi

theorem isPart_extend {store store' : Store} {c : Triple} {b : Bindings} (hstore : store.Positive)
    (hsub : ∀ t ∈ store.toList, t ∈ store'.toList) (hc : c.isPositive = true)
    (hb : b.Within Term.Positive) : (extend inner store c b).IsPart (extend inner store' c b) := by
  obtain ⟨-, hp, ho⟩ := Triple.isPositive_iff.1 hc
  unfold extend
  cases hf : c.predicate.builtin? with
  | none =>
    simp only [Store.flatMap_query]
    refine Answers.isPart_all fun m hm => ?_
    obtain ⟨t, ht, hm⟩ := List.mem_flatMap.1 hm
    exact List.mem_flatMap.2 ⟨t, hsub t ht, hm⟩
  | some f =>
    by_cases hinc : f = .includes
    · subst hinc
      exact Builtin.isPart_evalIncludes hi ho hb hstore hsub
    · have hnot := Builtin.ne_notIncludes hp hf
      simp only [Builtin.eval_plain hinc hnot]
      exact .refl _

theorem monotone_solveWith (hkeeps : inner.Keeps (fun b => b.Within Term.Positive)
      (fun store => store.Within Term.Positive) fun c => c.ScopesIn Term.Positive) :
    Solver.Monotone (solveWith inner) := by
  intro store store' cs b hstore hsub hcs hb
  induction cs generalizing b with
  | nil => exact .refl _
  | cons c cs ih =>
    obtain ⟨hc, hcs⟩ := List.forall_mem_cons.1 hcs
    refine (isPart_extend hi hstore hsub hc hb).andThen fun m hm => ih m hcs ?_
    exact searchInvariant_positive.extend hkeeps hstore.within (Triple.scopesIn_of_isPositive hc) hb m hm

end

theorem monotone_solveScope : (depth : Nat) → (solveScope depth).Monotone
  | 0 => fun _ _ _ _ _ _ _ _ => .refl _
  | depth + 1 => monotone_solveWith (monotone_solveScope depth) (searchInvariant_positive.solveScope depth)

theorem monotone_solve (depth : Nat) : (solve depth).Monotone := monotone_solveScope (depth + 1)

end Search

/-! ## Passes -/

namespace Rule

section
variable {r : Rule} {F G : Formula} {config : Config} {store store' : Store}

theorem derive_of_complete (hF : r.condition = .formula F) (hG : r.conclusion = .formula G)
    (h : (store.answers config F).complete = true) : ∃ D, r.derive config store = .ok D ∧
      ∀ t, t ∈ D ↔ ∃ s ∈ (store.answers config F).found, ∃ c ∈ G, t = c.assign G s := by
  have hanswers : store.answers config F = .all (store.answers config F).found := by
    cases ha : store.answers config F with
    | mk found complete => rw [ha] at h; cases h; rfl
  rw [derive, conditionFormula, hF, ok_bind, hanswers]
  exact fireAnswers_formula hG _

theorem complete_of_derive (hF : r.condition = .formula F) {D : OrderedSet Triple}
    (h : r.derive config store = .ok D) : (store.answers config F).complete = true := by
  rw [derive, conditionFormula, hF, ok_bind] at h
  exact (fireAnswers_eq_ok.1 h).2

theorem IsMonotone.sides (h : r.IsMonotone) : ∃ F G, r.condition = .formula F ∧
    r.conclusion = .formula G ∧ (∀ c ∈ F, c.isPositive = true) ∧ ∀ c ∈ G, c.isPositive = true := by
  obtain ⟨F, hF⟩ := Term.isFormula_iff.1 h.condition
  obtain ⟨G, hG⟩ := Term.isFormula_iff.1 h.conclusion
  have hp := h.positive
  rw [hF, hG, Term.isPositive, Term.isPositive, Triple.allPositive_iff, Triple.allPositive_iff] at hp
  exact ⟨F, G, hF, hG, hp⟩

theorem IsMonotone.not_negative (h : r.IsMonotone) : r.isNegative = false := by
  obtain ⟨F, -, hF, -, hpos, -⟩ := h.sides
  refine isNegative_eq_false hF fun c hc => Bool.eq_false_iff.2 fun hneg => ?_
  simp only [Triple.isNegation, Bool.and_eq_true, decide_eq_true_eq] at hneg
  have hpred := (Triple.isPositive_iff.1 (hpos c hc)).2.1
  rw [hneg.1.1] at hpred
  exact absurd hpred (by decide)

/-- A pass over more facts derives no less, and one over fewer facts comes to its end too. Only the fewer
facts must not have a negation in them. -/
theorem IsMonotone.derive_subset (h : r.IsMonotone) (hstore : store.Positive)
    (hsub : ∀ t ∈ store.toList, t ∈ store'.toList) {D' : OrderedSet Triple}
    (hD' : r.derive config store' = .ok D') :
    ∃ D, r.derive config store = .ok D ∧ ∀ t ∈ D, t ∈ D' := by
  obtain ⟨F, G, hF, hG, hpos, -⟩ := h.sides
  have hcs : ∀ c ∈ config.order F, c.isPositive = true := fun c hc => hpos c (Config.mem_order.1 hc)
  have part : (store.answers config F).IsPart (store'.answers config F) :=
    Search.monotone_solve config.patience store store' (config.order F) ∅ hstore hsub hcs
      Bindings.within_empty
  have hcomplete' := complete_of_derive hF hD'
  obtain ⟨hcomplete, hfound⟩ := part hcomplete'
  obtain ⟨D, hD, mem⟩ := derive_of_complete hF hG hcomplete
  obtain ⟨E, hE, mem'⟩ := derive_of_complete hF hG hcomplete'
  obtain rfl : D' = E := Except.ok.inj (hD'.symm.trans hE)
  refine ⟨D, hD, fun t ht => ?_⟩
  obtain ⟨s, hs, c, hc, e⟩ := (mem t).1 ht
  exact (mem' t).2 ⟨s, hfound s hs, c, hc, e⟩

theorem IsMonotone.positive_derive (h : r.IsMonotone) (hstore : store.Positive) {D : OrderedSet Triple}
    (hD : r.derive config store = .ok D) : ∀ t ∈ D, t.isPositive = true := by
  obtain ⟨F, G, hF, hG, hpos, hpos'⟩ := h.sides
  obtain ⟨E, hE, mem⟩ := derive_of_complete hF hG (complete_of_derive hF hD)
  obtain rfl : D = E := Except.ok.inj (hD.symm.trans hE)
  intro t ht
  obtain ⟨s, hs, c, hc, rfl⟩ := (mem t).1 ht
  have hb := searchInvariant_positive.solve config.patience store _ ∅ hstore.within
    (fun c hc => Triple.scopesIn_of_isPositive (hpos c (Config.mem_order.1 hc))) Bindings.within_empty s hs
  exact Triple.positive_assign hb G (hpos' c hc)

/-- A rule that concludes clauses from themselves. -/
theorem isMonotone_ofLists {cs : List Triple} (h : ∀ c ∈ cs, c.isPositive = true) :
    (Rule.ofLists cs cs).IsMonotone := by
  have hquoting : (Term.quoting cs).isPositive = true := by
    rw [Term.quoting, Term.isPositive, Triple.allPositive_iff]
    exact fun c hc => h c (Formula.mem_ofList.1 hc)
  exact ⟨rfl, rfl, hquoting, hquoting⟩

end

end Rule

end TripleChain
