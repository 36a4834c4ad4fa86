import Mathlib.Data.Finset.Card
import TripleChain.Proofs.Extensional
import TripleChain.Proofs.Termination

/-!
# Rules that give quoted triples

A variable conclusion gives the triples of the formula that it is bound to. As long as this formula is one
that the facts or the condition quote, there are finitely many triples to give, and the rounds come to an
end (`Rule.deriveRecursive_settles`). A search that opens a scope with values put into it may find other
formulas there: where a slot stands in a formula inside the scope, each round can make a new one
(`deriveRecursive_settles_false`).
-/

namespace TripleChain

/-! ## Quoted formulas -/

mutual

/-- The formulas that the term quotes, at any depth. -/
def Term.quoted : Term → List Formula
  | .formula ts => ts :: Triple.allQuoted ts
  | .literal _ | .iri _ | .var _ | .blank _ => []

def Triple.quoted : Triple → List Formula
  | ⟨s, p, o⟩ => s.quoted ++ p.quoted ++ o.quoted

def Triple.allQuoted : List Triple → List Formula
  | [] => []
  | t :: ts => t.quoted ++ Triple.allQuoted ts

end

theorem Triple.mem_quoted {t : Triple} {G : Formula} : G ∈ t.quoted ↔ ∃ a ∈ t.terms, G ∈ a.quoted := by
  obtain ⟨s, p, o⟩ := t
  simp [quoted, terms]

theorem Triple.mem_allQuoted {ts : List Triple} {G : Formula} :
    G ∈ allQuoted ts ↔ ∃ t ∈ ts, ∃ a ∈ t.terms, G ∈ a.quoted := by
  induction ts with
  | nil => simp [allQuoted]
  | cons t ts ih => simp only [allQuoted, List.mem_append, ih, mem_quoted, List.exists_mem_cons_iff]

theorem Triple.canonical_iff {t : Triple} : t.Canonical ↔ ∀ a ∈ t.terms, a.Canonical := by
  obtain ⟨s, p, o⟩ := t
  simp [Canonical, terms]

mutual

theorem Term.substitute_of_unbound {b : Bindings} : (a : Term) → a.Canonical →
    (∀ k ∈ a.slots, b.get? k = none) → a.substitute b = a
  | .literal _, _, _ | .iri _, _, _ => rfl
  | .var x, _, h | .blank x, _, h => by
    rw [Term.substitute, h _ (List.mem_singleton_self _), Option.getD_none]
  | .formula ts, ha, h => by
    rw [Term.substitute, Triple.substituteAll_of_unbound ts ha.2 h, Formula.Ascending.ofList_eq ha.1]

theorem Triple.substitute_of_unbound {b : Bindings} : (t : Triple) → t.Canonical →
    (∀ k ∈ t.slots, b.get? k = none) → t.substitute b = t
  | ⟨s, p, o⟩, ⟨hs, hp, ho⟩, h => by
    simp only [Triple.slots, List.forall_mem_append] at h
    rw [Triple.substitute, Term.substitute_of_unbound s hs h.1.1, Term.substitute_of_unbound p hp h.1.2,
      Term.substitute_of_unbound o ho h.2]

theorem Triple.substituteAll_of_unbound {b : Bindings} : (ts : List Triple) → Triple.AllCanonical ts →
    (∀ k ∈ Triple.allSlots ts, b.get? k = none) → Triple.substituteAll ts b = ts
  | [], _, _ => rfl
  | t :: ts, ⟨ht, hts⟩, h => by
    rw [Triple.allSlots, List.forall_mem_append] at h
    rw [Triple.substituteAll, Triple.substitute_of_unbound t ht h.1,
      Triple.substituteAll_of_unbound ts hts h.2]

end

/-! ## Scopes that quote what they quoted before -/

/-- None of the given slots stands in a formula that the term quotes inside another one. -/
def Term.ClearInside (K : Term → Bool) (a : Term) : Prop :=
  ∀ G ∈ a.quoted, ∀ H ∈ Triple.allQuoted G, ∀ k ∈ Triple.allSlots H, K k = false

instance (K : Term → Bool) (a : Term) : Decidable (a.ClearInside K) :=
  inferInstanceAs (Decidable (∀ _ ∈ _, _))

/-- The term quotes formulas of the list, which stay as they are when values are put in for the slots. -/
structure Term.QuotesOnly (Q : List Formula) (K : Term → Bool) (a : Term) : Prop where
  canonical : a.Canonical
  quoted : ∀ G ∈ a.quoted, G ∈ Q
  clear : a.ClearInside K

section
variable {Q : List Formula} {K : Term → Bool}

theorem inherited_quotesOnly : Inherited (Term.QuotesOnly Q K) where
  literal l := ⟨trivial, fun _ h => absurd h List.not_mem_nil, fun _ h => absurd h List.not_mem_nil⟩
  inside F hF t ht a ha := by
    have sub : ∀ G ∈ a.quoted, G ∈ (Term.formula F).quoted := fun G hG =>
      List.mem_cons_of_mem _ (Triple.mem_allQuoted.2 ⟨t, ht, a, ha, hG⟩)
    have canonical := Triple.canonical_iff.1 (Triple.allCanonical_iff.1 hF.canonical.2 t ht) a ha
    exact ⟨canonical, fun G hG => hF.quoted G (sub G hG), fun G hG => hF.clear G (sub G hG)⟩

theorem Term.QuotesOnly.mem {G : Formula} (h : (Term.formula G).QuotesOnly Q K) : G ∈ Q :=
  h.quoted G (List.mem_cons_self ..)

/-- Values for the given slots leave the formulas inside a formula as they are. -/
theorem keepsInside_quotesOnly {b : Bindings} (hb : b.Within (Term.QuotesOnly Q K))
    (keys : ∀ k ∈ b.keys, K k = true) : b.KeepsInside (Term.QuotesOnly Q K) := by
  intro F hF t ht a ha
  have here := inherited_quotesOnly.inside F hF t ht a ha
  cases a with
  | literal | iri => exact here
  | var x | blank x =>
    rw [Term.substitute]
    cases hv : b.get? _ with
    | none => exact here
    | some v => exact hb _ v hv
  | formula ts =>
    have quoted : ts ∈ Triple.allQuoted F :=
      Triple.mem_allQuoted.2 ⟨t, ht, _, ha, List.mem_cons_self ..⟩
    rw [Term.substitute_of_unbound _ here.canonical fun k hk => ?_]
    · exact here
    · rw [Bindings.get?_eq_none]
      intro hmem
      have unset := hF.clear F (List.mem_cons_self ..) ts quoted k hk
      exact Bool.false_ne_true (unset.symm.trans (keys k hmem))

end

/-- Whether a search for the clauses may put a value for the slot into a scope. Where every inclusion has
its clauses written in it, only slots of the clauses get values. -/
def Formula.putsIn (F : Formula) (k : Term) : Bool :=
  F.any (fun c => c.predicate.opensScope) && (!Triple.allWritten F || (Triple.allSlots F).contains k)

/-- A clause that a search for the formula comes to, whose written scopes have the property. -/
structure Triple.ReadIn (F : Formula) (P : Term → Prop) (c : Triple) : Prop where
  scopes : c.ScopesIn P
  opens : c.predicate.opensScope = true → F.any (fun d => d.predicate.opensScope) = true
  written : Triple.allWritten F = true → c.isWritten = true ∧ ∀ k ∈ c.slots, k ∈ Triple.allSlots F

/-- The clauses of an inclusion with written clauses are part of it. -/
theorem Triple.isWritten_task {c : Triple} {store : Store} {b : Bindings} {t : Task}
    (hc : c.isWritten = true) (h : c.task? store b = some t) :
    ∀ d ∈ t.clauses, d.isWritten = true ∧ ∀ k ∈ d.slots, k ∈ c.slots := by
  obtain ⟨F, hF, written, hclauses⟩ := object_of_isWritten hc h
  rw [hF] at written
  refine fun d hd => ⟨allWritten_iff.1 written d (hclauses d hd), fun k hk => ?_⟩
  refine mem_slots.2 ⟨c.object, by simp [terms], ?_⟩
  rw [hF]
  exact mem_allSlots.2 ⟨d, hclauses d hd, hk⟩

theorem Triple.keys_evalPlain {c : Triple} {f : Builtin} {b m : Bindings}
    (h : m ∈ f.evalPlain c.subject c.object b) {k : Term} (hk : k ∈ m.keys) : k ∈ b.keys ∨ k ∈ c.slots := by
  rcases f.mem_evalPlain h with rfl | ⟨slot, hslot, l, -, rfl⟩
  · exact .inl hk
  · rw [Bindings.mem_keys, Bindings.get?_insert] at hk
    by_cases e : k = slot
    · subst e
      refine .inr (Triple.mem_slots.2 ?_)
      rcases List.mem_append.1 hslot with hslot | hslot
      · exact ⟨_, by simp [terms], hslot⟩
      · exact ⟨_, by simp [terms], hslot⟩
    · rw [if_neg e] at hk
      exact .inl (Bindings.mem_keys.2 hk)

/-- A search finds values that quote formulas of the list alone, if the data and the written scopes quote
these alone, and no slot that it may put in stands further inside. -/
theorem searchInvariant_quotesOnly (Q : List Formula) (F : Formula) :
    SearchInvariant
      (fun b => b.Within (Term.QuotesOnly Q F.putsIn) ∧
        ∀ k ∈ b.keys, Triple.allWritten F = true → k ∈ Triple.allSlots F)
      (fun store => store.Within (Term.QuotesOnly Q F.putsIn))
      fun c => c.ReadIn F (Term.QuotesOnly Q F.putsIn) where
  stored store c b t hstore hc hb ht m hm := by
    refine ⟨Triple.within_bind inherited_quotesOnly c t (hstore t ht) b hb.1 m hm, fun k hk written => ?_⟩
    rcases (((Triple.mem_bind c t b).1 hm).1.keys k).1 hk with hk | hk
    · exact hb.2 k hk written
    · exact (hc.written written).2 k hk
  computed c b f hc hb m hm := by
    refine ⟨Builtin.within_evalPlain inherited_quotesOnly f hb.1 m hm, fun k hk written => ?_⟩
    rcases Triple.keys_evalPlain hm hk with hk | hk
    · exact hb.2 k hk written
    · exact (hc.written written).2 k hk
  scope store c b t hstore hc hb ht := by
    obtain ⟨opens, task⟩ := Triple.task?_eq_some ht
    have some := hc.opens (Triple.opensScope_of_not_scopeFree opens)
    have keeps : b.KeepsInside (Term.QuotesOnly Q F.putsIn) := by
      refine keepsInside_quotesOnly hb.1 fun k hk => ?_
      rw [Formula.putsIn, some, Bool.true_and, Bool.or_eq_true, Bool.not_eq_true', List.contains_iff_mem]
      exact (Bool.eq_false_or_eq_true _).symm.imp id (hb.2 k hk)
    obtain ⟨s, p, o⟩ := c
    obtain ⟨hs, ho⟩ := Or.resolve_left hc.scopes opens
    obtain ⟨hstore', scopes⟩ := Builtin.within_task inherited_quotesOnly keeps hstore hb.1 hs ho task
    refine ⟨hstore', fun d hd => ⟨scopes d hd, fun _ => some, fun written => ?_⟩⟩
    obtain ⟨hd', sub⟩ := Triple.isWritten_task (hc.written written).1 ht d hd
    exact ⟨hd', fun k hk => (hc.written written).2 k (sub k hk)⟩

/-! ## Passes -/

def Config.withPatience (c : Config) (n : Nat) : Config := { c with patience := n }

namespace Rule

/-- The stores that the rounds of the rule on the facts come to. -/
inductive Visits (r : Rule) (config : Config) (facts : Graph) : Graph → Prop
  | start {g : Graph} (h : Graph.ofList facts.toList = .ok g) : Visits r config facts g
  | round {g g' : Graph} {found : OrderedSet Triple} (patience : Nat) (before : Visits r config facts g)
      (pass : r.derive (config.withPatience patience) (.graph g) = .ok found)
      (added : g.addAll found.toList = .ok g') : Visits r config facts g'

/-- A pass of the rule comes to a result, or to a fault of its own, if it is given patience. -/
def PassEnds (r : Rule) (config : Config) (g : Graph) : Prop :=
  ∃ n, r.derive (config.withPatience n) (.graph g) ≠ .error .outOfPatience

/-- Some round of the rule on the facts gives the triple. -/
def Emits (r : Rule) (config : Config) (facts : Graph) (t : Triple) : Prop :=
  ∃ g patience found, r.Visits config facts g ∧
    r.derive (config.withPatience patience) (.graph g) = .ok found ∧ t ∈ found

/-- Some round of the rule on the facts fails with the fault, and not for want of patience: the pass does, or
it gives a triple that is no fact. -/
def FailsWith (r : Rule) (config : Config) (facts : Graph) (e : Fault) : Prop :=
  e ≠ .outOfPatience ∧
    ((∃ g patience, r.Visits config facts g ∧
      r.derive (config.withPatience patience) (.graph g) = .error e) ∨
    ∃ t, r.Emits config facts t ∧ t.hasVar = true ∧ e = .variableInFact t)

section
variable {r : Rule} {F : Formula} {x : String} {config : Config} {facts g : Graph}

theorem exists_formula_of_fires (conclusion : r.conclusion = .var x) {s : Bindings} {t : Triple}
    (h : r.Fires s t) : ∃ G, s.get? (.var x) = some (.formula G) ∧ t ∈ G := by
  obtain ⟨ts, hts, ht⟩ := h
  rw [fire, conclusion] at hts
  dsimp only at hts
  split at hts
  · next G hG => exact ⟨G, hG, Except.ok.inj hts ▸ ht⟩
  · cases hts

theorem derive_eq_fireAnswers (condition : r.condition = .formula F) (store : Store) :
    r.derive config store = r.fireAnswers (store.answers config F) := by
  rw [derive, conditionFormula_eq_ok.2 condition]
  rfl

theorem fireAll_of_prefix {derived : OrderedSet Triple} {bs bs' : List Bindings} {e : Fault}
    (sub : bs <+: bs') (h : r.fireAll derived bs = .error e) : r.fireAll derived bs' = .error e := by
  obtain ⟨more, rfl⟩ := sub
  unfold fireAll at h ⊢
  rw [List.foldlM_append, h]
  rfl

/-- Where patience is not what a pass lacks, its search ends, or firing fails for a match that it finds. -/
theorem fireAnswers_of_continuedBy {a a' : Answers} (h : a.ContinuedBy a')
    (patient : r.fireAnswers a ≠ .error .outOfPatience) : r.fireAnswers a' = r.fireAnswers a := by
  by_cases complete : a.complete = true
  · rw [h.same complete]
  cases fired : r.fireAll ∅ a.found with
  | ok D => exact absurd (by rw [fireAnswers, fired, ok_bind, if_neg complete]) patient
  | error e =>
    rw [fireAnswers, fireAnswers, fired, fireAll_of_prefix h.found fired]
    rfl

/-- More patience does not change a pass that had enough. -/
theorem derive_of_patient (condition : r.condition = .formula F) {n m : Nat} (hle : n ≤ m)
    (patient : r.derive (config.withPatience n) (.graph g) ≠ .error .outOfPatience) :
    r.derive (config.withPatience m) (.graph g) = r.derive (config.withPatience n) (.graph g) := by
  simp only [derive_eq_fireAnswers condition] at patient ⊢
  exact fireAnswers_of_continuedBy (Search.solve_refines hle _ _ _) patient

/-- A pass ends if its search does. -/
theorem passEnds (condition : r.condition = .formula F)
    (ends : (⟨.graph g, config.order F, ∅⟩ : Task).Ends) : r.PassEnds config g := by
  obtain ⟨n, hn⟩ := ends
  refine ⟨n, fun h => ?_⟩
  rw [derive_eq_fireAnswers condition] at h
  rcases fireAnswers_eq_error h with ⟨b, -, hb⟩ | ⟨cut, -⟩
  · have kind := (kind_of_fire hb).2
    split at kind <;> cases kind
  · exact Bool.false_ne_true (cut.symm.trans hn)

/-- A pass derives the same from stores with the same triples. -/
theorem derive_congr_store (condition : r.condition = .formula F) {store store' : Store}
    (h : store.Same store') {D : OrderedSet Triple} (hD : r.derive config store = .ok D) :
    ∃ E, r.derive config store' = .ok E ∧ ∀ t, t ∈ E ↔ t ∈ D := by
  rw [derive_eq_fireAnswers condition] at hD ⊢
  have same := Store.same_answers h config F
  obtain ⟨fires, complete⟩ := exists_fireAnswers_iff.1 ⟨D, hD⟩
  have mem := same.mem_iff complete
  obtain ⟨E, hE⟩ := exists_fireAnswers_iff.2
    ⟨fun s hs => fires s ((mem s).2 hs), same.complete_iff.1 complete⟩
  refine ⟨E, hE, fun t => ?_⟩
  simp only [mem_fireAnswers hD, mem_fireAnswers hE, mem]

end

end Rule

/-- A search for the clauses in the facts leaves what is quoted inside a scope as it is. -/
structure Formula.KeepsScopes (F : Formula) (facts : Graph) : Prop where
  canonical : ∀ t ∈ facts.toList ++ F, t.Canonical
  facts : ∀ t ∈ facts.toList, ∀ a ∈ t.terms, a.ClearInside F.putsIn
  scopes : ∀ c ∈ F, c.ScopesIn fun a => a.ClearInside F.putsIn

section
variable {r : Rule} {F : Formula} {x : String} {config : Config} {facts g : Graph}

theorem Formula.KeepsScopes.within (h : F.KeepsScopes facts) :
    (Store.graph facts).Within (Term.QuotesOnly (Triple.allQuoted (facts.toList ++ F)) F.putsIn) := by
  intro t ht a ha
  have ht' : t ∈ facts.toList ++ F := List.mem_append_left _ ht
  exact ⟨Triple.canonical_iff.1 (h.canonical t ht') a ha,
    fun G hG => Triple.mem_allQuoted.2 ⟨t, ht', a, ha, hG⟩, h.facts t ht a ha⟩

theorem Formula.KeepsScopes.readIn (h : F.KeepsScopes facts) : ∀ c ∈ F,
    c.ReadIn F (Term.QuotesOnly (Triple.allQuoted (facts.toList ++ F)) F.putsIn) := by
  intro c hc
  have inherited := inherited_quotesOnly (Q := Triple.allQuoted (facts.toList ++ F)) (K := fun _ => false)
  have hc' : c ∈ facts.toList ++ F := List.mem_append_right _ hc
  have quoted := Triple.scopesIn inherited c fun a ha =>
    ⟨Triple.canonical_iff.1 (h.canonical c hc') a ha,
      fun G hG => Triple.mem_allQuoted.2 ⟨c, hc', a, ha, hG⟩, fun _ _ _ _ _ _ => rfl⟩
  refine ⟨quoted.combine (fun a ha clear => ⟨ha.canonical, ha.quoted, clear⟩) (h.scopes c hc), ?_, ?_⟩
  · exact fun opens => List.any_eq_true.2 ⟨c, hc, opens⟩
  · exact fun written => ⟨Triple.allWritten_iff.1 written c hc,
      fun k hk => Triple.mem_allSlots.2 ⟨c, hc, hk⟩⟩

namespace Rule

variable (condition : r.condition = .formula F) (conclusion : r.conclusion = .var x)
  (keeps : F.KeepsScopes facts)
include condition conclusion keeps

/-- A pass over a store that quotes nothing new gives triples of formulas that the facts or the condition
quote, and these quote nothing new. -/
theorem quoted_of_mem_derive
    (within : (Store.graph g).Within (Term.QuotesOnly (Triple.allQuoted (facts.toList ++ F)) F.putsIn))
    {D : OrderedSet Triple} (hD : r.derive config (.graph g) = .ok D) {t : Triple} (ht : t ∈ D) :
    (∃ G ∈ Triple.allQuoted (facts.toList ++ F), t ∈ G) ∧
      ∀ a ∈ t.terms, a.QuotesOnly (Triple.allQuoted (facts.toList ++ F)) F.putsIn := by
  rw [derive_eq_fireAnswers condition] at hD
  obtain ⟨s, hs, fires⟩ := (mem_fireAnswers hD).1 ht
  obtain ⟨G, hG, htG⟩ := exists_formula_of_fires conclusion fires
  have found := (searchInvariant_quotesOnly _ F).solve config.patience (.graph g) (config.order F) ∅ within
    (fun c hc => keeps.readIn c (Config.mem_order.1 hc))
    ⟨Bindings.within_empty, fun k hk => absurd hk List.not_mem_nil⟩ s hs
  have value := found.1 _ _ hG
  exact ⟨⟨G, value.mem, htG⟩, inherited_quotesOnly.inside G value t htG⟩

theorem Visits.within (h : r.Visits config facts g) :
    (Store.graph g).Within (Term.QuotesOnly (Triple.allQuoted (facts.toList ++ F)) F.putsIn) := by
  induction h with
  | start h => exact fun t ht => keeps.within t ((Graph.mem_ofList h).1 ht)
  | round patience _ pass added ih =>
    intro t ht
    rcases (Graph.mem_addAll added).1 ht with ht | ht
    · exact ih t ht
    · exact (quoted_of_mem_derive condition conclusion keeps ih pass ht).2

theorem quoted_of_emits {t : Triple} (h : r.Emits config facts t) :
    ∃ G ∈ Triple.allQuoted (facts.toList ++ F), t ∈ G := by
  obtain ⟨g, patience, found, visits, pass, ht⟩ := h
  exact (quoted_of_mem_derive condition conclusion keeps
    (visits.within condition conclusion keeps) pass ht).1

theorem Visits.bounded (h : r.Visits config facts g) :
    ∀ t ∈ g.toList, t ∈ facts.toList ++ (Triple.allQuoted (facts.toList ++ F)).flatten := by
  induction h with
  | start h => exact fun t ht => List.mem_append_left _ ((Graph.mem_ofList h).1 ht)
  | round patience before pass added ih =>
    intro t ht
    rcases (Graph.mem_addAll added).1 ht with ht | ht
    · exact ih t ht
    · obtain ⟨G, hG, htG⟩ := quoted_of_emits condition conclusion keeps ⟨_, patience, _, before, pass, ht⟩
      exact List.mem_append_right _ (List.mem_flatten.2 ⟨G, hG, htG⟩)

end Rule

end

/-! ## Rounds -/

namespace Rule

section
variable {r : Rule} {F : Formula} {x : String} {config : Config} {facts g : Graph}
  (unlimited : config.roundLimit = none)
include unlimited

theorem result_saturate_zero (n number : Nat) (derived : OrderedSet Triple) :
    (r.saturate (config.withPatience n) 0 number g derived).result = .error .outOfPatience := by
  have unlimited : (config.withPatience n).roundLimit = none := unlimited
  rw [saturate, unlimited]
  rfl

theorem result_saturate_succ (n left number : Nat) (derived : OrderedSet Triple) :
    (r.saturate (config.withPatience n) (left + 1) number g derived).result =
      (r.derive (config.withPatience n) (.graph g)).bind fun found =>
        (g.addAll found.toList).bind fun grown =>
          if found.toList.countP (fun t => !g.contains t) = 0 then .ok (derived.insertAll found.toList)
          else (r.saturate (config.withPatience n) left (number + 1) grown
            (derived.insertAll found.toList)).result := by
  have unlimited : (config.withPatience n).roundLimit = none := unlimited
  rw [saturate, unlimited]
  simp only [Option.any_none, Bool.false_eq_true, if_false, Run.result_bind, Run.result_lift,
    Run.result_report, ok_bind]
  refine congrArg _ (funext fun found => congrArg _ (funext fun grown => ?_))
  split <;> rfl

/-- What the rounds give in the end are the triples of the rounds, and a last round gave nothing new. -/
theorem saturate_eq_ok (n left number : Nat) {derived D : OrderedSet Triple}
    (visits : r.Visits config facts g)
    (members : ∀ t, t ∈ g.toList ↔ t ∈ facts.toList ∨ t ∈ derived)
    (emitted : ∀ t ∈ derived, r.Emits config facts t)
    (h : (r.saturate (config.withPatience n) left number g derived).result = .ok D) :
    (∀ t ∈ D, r.Emits config facts t) ∧ ∃ last found,
      (∀ t, t ∈ last.toList ↔ t ∈ facts.toList ∨ t ∈ D) ∧
      r.derive (config.withPatience n) (.graph last) = .ok found ∧ ∀ t ∈ found, t ∈ last.toList := by
  induction left generalizing number g derived with
  | zero =>
    rw [result_saturate_zero unlimited] at h
    cases h
  | succ left ih =>
    rw [result_saturate_succ unlimited] at h
    obtain ⟨found, pass, h⟩ := bind_eq_ok.1 h
    obtain ⟨grown, hgrown, h⟩ := bind_eq_ok.1 h
    have emitted' : ∀ t ∈ derived.insertAll found.toList, r.Emits config facts t := by
      intro t ht
      rcases OrderedSet.mem_insertAll.1 ht with ht | ht
      · exact emitted t ht
      · exact ⟨g, n, found, visits, pass, ht⟩
    have members' : ∀ t, t ∈ grown.toList ↔ t ∈ facts.toList ∨ t ∈ derived.insertAll found.toList := by
      intro t
      rw [Graph.mem_addAll hgrown, members, OrderedSet.mem_insertAll, or_assoc]
    split at h
    · next none =>
      obtain rfl := Except.ok.inj h
      have known : ∀ t ∈ found, t ∈ g.toList := fun t ht => by
        simpa [Graph.contains_iff] using List.countP_eq_zero.1 none t ht
      refine ⟨emitted', g, found, fun t => ?_, pass, known⟩
      rw [← members', Graph.mem_addAll hgrown]
      exact (or_iff_left_of_imp (known t)).symm
    · exact ih (number + 1) (.round n visits pass hgrown) members' emitted' h

omit unlimited in
/-- A round that adds a triple leaves fewer of finitely many triples to add. -/
theorem card_lacking_lt {all found : List Triple} {grown : Graph} (hgrown : g.addAll found = .ok grown)
    (bounded : ∀ t ∈ grown.toList, t ∈ all) (some : found.countP (fun t => !g.contains t) ≠ 0) :
    (all.toFinset \ grown.toList.toFinset).card < (all.toFinset \ g.toList.toFinset).card := by
  obtain ⟨t, ht, new⟩ := List.countP_pos_iff.1 (Nat.pos_of_ne_zero some)
  have new : t ∉ g.toList := by simpa [← Graph.contains_iff] using new
  have added : t ∈ grown.toList := (Graph.mem_addAll hgrown).2 (.inr ht)
  refine Finset.card_lt_card ((Finset.ssubset_iff_of_subset ?_).2 ⟨t, ?_, ?_⟩)
  · refine Finset.sdiff_subset_sdiff subset_rfl fun u hu => ?_
    exact List.mem_toFinset.2 ((Graph.mem_addAll hgrown).2 (.inl (List.mem_toFinset.1 hu)))
  · simp [new, bounded t added]
  · simp [added]

/-- The rounds end where every pass does and the stores stay within finitely many triples. -/
theorem saturate_settles (condition : r.condition = .formula F) {all : List Triple}
    (passes : ∀ g, r.Visits config facts g → r.PassEnds config g)
    (bounded : ∀ g, r.Visits config facts g → ∀ t ∈ g.toList, t ∈ all) (number : Nat)
    (derived : OrderedSet Triple) (visits : r.Visits config facts g) :
    ∃ n result, (∀ e, result = .error e → r.FailsWith config facts e) ∧ ∀ m left, n ≤ m → n ≤ left →
      (r.saturate (config.withPatience m) left number g derived).result = result := by
  -- Every round but the last one adds one of the triples that the store lacks.
  induction hk : (all.toFinset \ g.toList.toFinset).card using Nat.strong_induction_on
    generalizing g number derived with
  | _ k ih =>
  obtain ⟨n, patient⟩ := passes g visits
  generalize pass : r.derive (config.withPatience n) (.graph g) = result at patient
  have round : ∀ m left, n + 1 ≤ m → n + 1 ≤ left →
      (r.saturate (config.withPatience m) left number g derived).result =
        result.bind fun found => (g.addAll found.toList).bind fun grown =>
          if found.toList.countP (fun t => !g.contains t) = 0 then .ok (derived.insertAll found.toList)
          else (r.saturate (config.withPatience m) (left - 1) (number + 1) grown
            (derived.insertAll found.toList)).result := by
    intro m left hm hleft
    obtain ⟨left, rfl⟩ : ∃ l, left = l + 1 := ⟨left - 1, by omega⟩
    rw [result_saturate_succ unlimited, derive_of_patient condition (by omega) (pass ▸ patient), pass,
      Nat.add_sub_cancel]
  cases result with
  | error e =>
    refine ⟨n + 1, .error e, fun e' he => ?_, round⟩
    obtain rfl := Except.error.inj he
    exact ⟨fun h => patient (congrArg _ h), .inl ⟨g, n, visits, pass⟩⟩
  | ok found =>
    simp only [ok_bind] at round
    cases hgrown : g.addAll found.toList with
    | error e =>
      simp only [hgrown] at round
      obtain ⟨t, ht, hvar, rfl⟩ := Graph.addAll_eq_error hgrown
      refine ⟨n + 1, .error (.variableInFact t), fun e' he => ?_, round⟩
      obtain rfl := Except.error.inj he
      exact ⟨nofun, .inr ⟨t, ⟨g, n, found, visits, pass, ht⟩, hvar, rfl⟩⟩
    | ok grown =>
      simp only [hgrown, ok_bind] at round
      by_cases none : found.toList.countP (fun t => !g.contains t) = 0
      · simp only [if_pos none] at round
        exact ⟨n + 1, .ok _, nofun, round⟩
      simp only [if_neg none] at round
      have visits' : r.Visits config facts grown := .round n visits pass hgrown
      have fewer : (all.toFinset \ grown.toList.toFinset).card < k :=
        hk ▸ card_lacking_lt hgrown (bounded grown visits') none
      obtain ⟨n', result, fails, rest⟩ :=
        ih _ fewer (number + 1) (derived.insertAll found.toList) visits' rfl
      refine ⟨max n n' + 1, result, fails, fun m left hm hleft => ?_⟩
      rw [round m left (by omega) (by omega), rest m (left - 1) (by omega) (by omega)]

end

theorem exists_deriveRecursive (r : Rule) {x : String} (conclusion : r.conclusion = .var x)
    (positive : r.isNegative = false) (facts : Graph) : ∃ start, Graph.ofList facts.toList = .ok start ∧
      ∀ config, (r.deriveRecursive config (.graph facts)).result =
        (r.saturate config config.patience 0 start ∅).result := by
  obtain ⟨start, hstart⟩ := Graph.exists_addAll facts.noVar .empty
  refine ⟨start, hstart, fun config => ?_⟩
  have ofList : Graph.ofList (Store.graph facts).toList = .ok start := hstart
  rw [deriveRecursive, positive, conclusion, ofList]
  rfl

/-- What a rule with a variable conclusion gives, if it comes to give anything, is closed under the rule
together with the facts. Where no search changes what is quoted inside a scope, all that its rounds give is
quoted in the facts or in the condition, and if each of its passes ends, so do its rounds: with the triples
or with the fault of a round. -/
theorem deriveRecursive_settles (r : Rule) (config : Config) (facts : Graph) {F : Formula} {x : String}
    (condition : r.condition = .formula F) (conclusion : r.conclusion = .var x)
    (positive : r.isNegative = false) (unlimited : config.roundLimit = none) :
    let run := fun n => (r.deriveRecursive (config.withPatience n) (.graph facts)).result
    (∀ n D, run n = .ok D → (∀ t ∈ D, r.Emits config facts t) ∧
      ∀ g : Graph, (∀ t, t ∈ g.toList ↔ t ∈ facts.toList ∨ t ∈ D) →
        ∃ E, r.derive (config.withPatience n) (.graph g) = .ok E ∧ ∀ t ∈ E, t ∈ g.toList) ∧
    (F.KeepsScopes facts →
      (∀ t, r.Emits config facts t → ∃ G ∈ Triple.allQuoted (facts.toList ++ F), t ∈ G) ∧
      ((∀ g, r.Visits config facts g → r.PassEnds config g) →
        ∃ n result, (∀ e, result = .error e → r.FailsWith config facts e) ∧ ∀ m, n ≤ m → run m = result)) := by
  intro run
  obtain ⟨start, hstart, run_eq⟩ := r.exists_deriveRecursive conclusion positive facts
  refine ⟨fun n D hD => ?_, fun keeps => ⟨fun _ => quoted_of_emits condition conclusion keeps, ?_⟩⟩
  · have run := (run_eq (config.withPatience n)).symm.trans hD
    obtain ⟨emitted, last, found, members, pass, known⟩ := saturate_eq_ok unlimited n n 0 (.start hstart)
      (fun t => (Graph.mem_ofList hstart).trans (or_iff_left List.not_mem_nil).symm)
      (fun t ht => absurd ht List.not_mem_nil) run
    refine ⟨emitted, fun g hg => ?_⟩
    have same : (Store.graph last).Same (.graph g) := fun t => (members t).trans (hg t).symm
    obtain ⟨E, hE, mem⟩ := derive_congr_store condition same pass
    exact ⟨E, hE, fun t ht => (same t).1 (known t ((mem t).1 ht))⟩
  · intro passes
    have settles := saturate_settles unlimited condition passes
      (fun g hg => hg.bounded condition conclusion keeps) 0 ∅ (.start hstart)
    obtain ⟨n, result, fails, rest⟩ := settles
    exact ⟨n, result, fails, fun m hm => (run_eq (config.withPatience m)).trans (rest m m hm hm)⟩

end Rule

theorem Rule.passEnds_of_written {r : Rule} {F : Formula} (condition : r.condition = .formula F)
    (written : ∀ c ∈ F, c.isWritten = true) (config : Config) (g : Graph) : r.PassEnds config g :=
  passEnds condition (Task.ends_of_written fun c hc => written c (Config.mem_order.1 hc))

/-- A library holds what two documents say. -/
def libraryFacts : Graph :=
  let report : Triple := ⟨.iri "report", .iri "says", .quoting [⟨.iri "rex", .iri "is", .iri "dog"⟩]⟩
  let survey : Triple := ⟨.iri "survey", .iri "says", .quoting [⟨.var "who", .iri "is", .iri "cat"⟩]⟩
  (Graph.empty.insert ⟨.iri "library", .iri "holds", .quoting [report, survey]⟩ rfl).insert
    ⟨.iri "ann", .iri "trusts", .iri "report"⟩ rfl

def trustClauses : Formula :=
  Formula.ofList [⟨.var "x", .iri "trusts", .var "s"⟩, ⟨.var "y", .iri "holds", .var "g"⟩,
    ⟨.var "g", .iri Vocabulary.includes, .quoting [⟨.var "s", .iri "says", .var "f"⟩]⟩]

/-- What a trusted document in a library says is so. -/
def trustRule : Rule := ⟨.formula trustClauses, .forward, .var "f"⟩

theorem keepsScopes_library : trustClauses.KeepsScopes libraryFacts where
  canonical := by
    have list : libraryFacts.toList = [⟨.iri "library", .iri "holds", .quoting [
      ⟨.iri "report", .iri "says", .quoting [⟨.iri "rex", .iri "is", .iri "dog"⟩]⟩,
      ⟨.iri "survey", .iri "says", .quoting [⟨.var "who", .iri "is", .iri "cat"⟩]⟩]⟩,
      ⟨.iri "ann", .iri "trusts", .iri "report"⟩] := by decide +kernel
    simp [list, trustClauses, Triple.Canonical, Term.Canonical, Term.canonical_quoting]
  facts := by decide +kernel
  scopes := by
    simp [trustClauses, Triple.ScopesIn, Term.ScopesIn, Term.isSlot, Term.quoting, Triple.allScopesIn_iff,
      Triple.ScopeFree, Term.builtin?]

theorem deriveRecursive_settles_library :
    (∃ n result, (∀ e, result = .error e → trustRule.FailsWith {} libraryFacts e) ∧ ∀ m, n ≤ m →
      (trustRule.deriveRecursive (Config.withPatience {} m) (.graph libraryFacts)).result = result) ∧
    (trustRule.deriveRecursive {} (.graph libraryFacts)).result.toOption.map (·.toList) =
      some [⟨.iri "rex", .iri "is", .iri "dog"⟩] := by
  have settles :=
    (Rule.deriveRecursive_settles trustRule {} libraryFacts rfl rfl rfl rfl).2 keepsScopes_library
  have written : ∀ c ∈ trustClauses, c.isWritten = true := by decide +kernel
  exact ⟨settles.2 fun g _ => Rule.passEnds_of_written rfl written {} g, by decide +kernel⟩

/-! ## Scopes that change inside -/

def boxHolds (v : Term) : Triple := ⟨.iri "box", .iri "holds", v⟩

def boxed (v : Term) : Term := .formula [⟨v, .iri "in", .iri "box"⟩]

/-- What the box shows has a slot, inside a formula, which stands in the condition as well. -/
def boxNext : Triple :=
  ⟨.iri "box", .iri "next", .formula [⟨.iri "box", .iri "shows", .formula [boxHolds (boxed (.var "y"))]⟩]⟩

/-- The box holds a thing, and shows how to hold it boxed. -/
def boxFacts : Graph := (Graph.empty.insert boxNext rfl).insert (boxHolds (.iri "b")) rfl

def boxIncludes : Triple :=
  ⟨.var "g", .iri Vocabulary.includes, .formula [⟨.iri "box", .iri "shows", .var "f"⟩]⟩

def boxClauses : Formula :=
  Formula.ofList [⟨.iri "box", .iri "next", .var "g"⟩, boxHolds (.var "y"), boxIncludes]

def boxRule : Rule := ⟨.formula boxClauses, .forward, .var "f"⟩

/-- The stores of the rounds. -/
structure Boxes (g : Graph) : Prop where
  next : boxNext ∈ g.toList
  holds : ∃ v, boxHolds v ∈ g.toList
  only : ∀ t ∈ g.toList, t = boxNext ∨ ∃ v, t = boxHolds v

/-- What is known once the box and a thing in it are found. -/
def boxBindings (v : Term) : Bindings := ((∅ : Bindings).insert (.var "y") v).insert (.var "g") boxNext.object

def boxMatch (v : Term) : Bindings := (boxBindings v).insert (.var "f") (.formula [boxHolds (boxed v)])

theorem get?_boxBindings (v : Term) : (boxBindings v).get? (.var "g") = some boxNext.object ∧
    (boxBindings v).get? (.var "y") = some v ∧ (boxBindings v).get? (.var "f") = none := by
  simp [boxBindings, Bindings.get?_insert]

theorem extend_boxIncludes (depth : Nat) (store : Store) (v : Term) :
    Search.extend (Search.solveScope depth) store boxIncludes (boxBindings v) =
      if depth = 0 then .cut else .all [boxMatch v] := by
  obtain ⟨hg, hy, hf⟩ := get?_boxBindings v
  let shown : Triple := ⟨.iri "box", .iri "shows", .formula [boxHolds (boxed v)]⟩
  let clause : Triple := ⟨.iri "box", .iri "shows", .var "f"⟩
  have scope : Formula.substitute [⟨.iri "box", .iri "shows", .formula [boxHolds (boxed (.var "y"))]⟩]
      (boxBindings v) = [shown] := by
    simp [Formula.substitute, Formula.ofList, Formula.insert, Triple.substitute, Term.substitute,
      Triple.substituteAll, boxHolds, boxed, hy, shown]
  have ordered : orderClauses [clause] (boxBindings v).keys = [clause] :=
    List.perm_singleton.1 (orderClauses_perm _ _)
  have opens : Search.extend (Search.solveScope depth) store boxIncludes (boxBindings v) =
      Builtin.whole (Search.solveScope depth (.formula [shown]) [clause] (boxBindings v)) := by
    rw [← ordered, ← scope]
    simp only [Search.extend, Builtin.eval, Builtin.evalIncludes, boxIncludes, Term.resolve, Term.isSlot,
      Bool.false_eq_true, if_false, if_true, Option.bind_some, Term.formula?, hg, boxNext]
    rfl
  rw [opens]
  cases depth with
  | zero => rfl
  | succ depth =>
    have bind : clause.bind shown (boxBindings v) = [boxMatch v] := by
      simp [clause, shown, Triple.bind, Term.bind, Bindings.unify, hf, boxMatch]
    have stored : clause.predicate.builtin? = none := by decide
    rw [Search.solveScope, Search.solveWith_scopeFree _ (by decide)]
    simp [Triple.solutions, Triple.extensions, stored, Store.toList, bind, Builtin.whole, Answers.all]

def boxAsks : Triple := ⟨.iri "box", .iri "next", .var "g"⟩

section
variable {g : Graph} (h : Boxes g)
include h

theorem mem_extensions_boxHolds {m : Bindings} : m ∈ (boxHolds (.var "y")).extensions g.toList ∅ ↔
    ∃ v, boxHolds v ∈ g.toList ∧ m = (∅ : Bindings).insert (.var "y") v := by
  have stored : (boxHolds (.var "y")).predicate.builtin? = none := by decide
  have bind : ∀ v, boxHolds v ∈ g.toList →
      (boxHolds (.var "y")).bind (boxHolds v) ∅ = [(∅ : Bindings).insert (.var "y") v] := by
    intro v hv
    have noVar := g.noVar _ hv
    cases v with
    | var x => cases noVar
    | _ => simp [boxHolds, Triple.bind, Term.bind, Bindings.unify]
  simp only [Triple.extensions, stored, List.mem_flatMap]
  constructor
  · rintro ⟨t, ht, hm⟩
    rcases h.only t ht with rfl | ⟨v, rfl⟩
    · simp [boxNext, boxHolds, Triple.bind, Term.bind] at hm
    · exact ⟨v, ht, List.mem_singleton.1 (bind v ht ▸ hm)⟩
  · rintro ⟨v, hv, rfl⟩
    exact ⟨boxHolds v, hv, bind v hv ▸ List.mem_singleton_self _⟩

theorem mem_extensions_boxAsks {v : Term} {m : Bindings} :
    m ∈ boxAsks.extensions g.toList ((∅ : Bindings).insert (.var "y") v) ↔ m = boxBindings v := by
  have stored : boxAsks.predicate.builtin? = none := by decide
  have bind : boxAsks.bind boxNext ((∅ : Bindings).insert (.var "y") v) = [boxBindings v] := by
    simp [boxAsks, boxNext, Triple.bind, Term.bind, Bindings.unify, Bindings.get?_insert, boxBindings]
  simp only [Triple.extensions, stored, List.mem_flatMap]
  constructor
  · rintro ⟨t, ht, hm⟩
    rcases h.only t ht with rfl | ⟨v, rfl⟩
    · exact List.mem_singleton.1 (bind ▸ hm)
    · simp [boxAsks, boxHolds, Triple.bind, Term.bind] at hm
  · rintro rfl
    exact ⟨boxNext, h.next, bind ▸ List.mem_singleton_self _⟩

omit h in
theorem answers_box (g : Graph) (n : Nat) :
    (Store.graph g).answers (Config.withPatience {} n) boxClauses =
      (Answers.all ((boxHolds (.var "y")).extensions g.toList ∅)).andThen fun b =>
        (Answers.all (boxAsks.extensions g.toList b)).andThen fun m =>
          (Search.extend (Search.solveScope n) (.graph g) boxIncludes m).andThen fun s => .all [s] := by
  have ordered : Config.order {} boxClauses = [boxHolds (.var "y"), boxAsks, boxIncludes] := by decide +kernel
  have answers : (Store.graph g).answers (Config.withPatience {} n) boxClauses =
      Search.solve n (.graph g) [boxHolds (.var "y"), boxAsks, boxIncludes] ∅ :=
    congrArg (fun cs => Search.solve n (.graph g) cs ∅) ordered
  rw [answers]
  simp only [Search.solve, Search.solveWith, Search.extend_scopeFree (c := boxAsks) (by decide),
    Search.extend_scopeFree (c := boxHolds (.var "y")) (by decide)]
  rfl

theorem eq_boxMatch_of_mem {n : Nat} {m : Bindings}
    (hm : m ∈ ((Store.graph g).answers (Config.withPatience {} n) boxClauses).found) :
    ∃ v, boxHolds v ∈ g.toList ∧ m = boxMatch v := by
  rw [answers_box] at hm
  obtain ⟨b, hb, hm⟩ := Answers.mem_found_chain hm
  obtain ⟨v, hv, rfl⟩ := (mem_extensions_boxHolds h).1 hb
  obtain ⟨b, hb, hm⟩ := Answers.mem_found_chain hm
  obtain rfl := (mem_extensions_boxAsks h).1 hb
  obtain ⟨s, hs, hm⟩ := Answers.mem_found_chain hm
  obtain rfl := List.mem_singleton.1 hm
  rw [extend_boxIncludes] at hs
  refine ⟨v, hv, ?_⟩
  split at hs
  · exact absurd hs List.not_mem_nil
  · exact List.mem_singleton.1 hs

theorem boxMatch_mem {n : Nat} {v : Term} (hv : boxHolds v ∈ g.toList)
    (complete : ((Store.graph g).answers (Config.withPatience {} n) boxClauses).complete = true) :
    boxMatch v ∈ ((Store.graph g).answers (Config.withPatience {} n) boxClauses).found := by
  rw [answers_box] at complete ⊢
  have first := (mem_extensions_boxHolds h).2 ⟨v, hv, rfl⟩
  have complete₁ := (Answers.complete_andThen.1 complete).2 _ first
  have second := (mem_extensions_boxAsks h (v := v)).2 rfl
  have complete₂ := (Answers.complete_andThen.1 complete₁).2 _ second
  have third : boxMatch v ∈
      (Search.extend (Search.solveScope n) (.graph g) boxIncludes (boxBindings v)).found := by
    have complete₃ := (Answers.complete_andThen.1 complete₂).1
    rw [extend_boxIncludes] at complete₃ ⊢
    split at complete₃
    · cases complete₃
    · next hn =>
      rw [if_neg hn]
      exact List.mem_singleton_self _
  rw [Answers.found_andThen complete, List.mem_flatMap]
  refine ⟨_, first, ?_⟩
  rw [Answers.found_andThen complete₁, List.mem_flatMap]
  refine ⟨_, second, ?_⟩
  rw [Answers.found_andThen complete₂, List.mem_flatMap]
  exact ⟨_, third, List.mem_singleton_self _⟩

theorem derive_box (n : Nat) : boxRule.derive (Config.withPatience {} n) (.graph g) = .error .outOfPatience ∨
    ∃ found, boxRule.derive (Config.withPatience {} n) (.graph g) = .ok found ∧
      ∀ t, t ∈ found ↔ ∃ v, boxHolds v ∈ g.toList ∧ t = boxHolds (boxed v) := by
  have fires : ∀ v, boxRule.fire (boxMatch v) = .ok [boxHolds (boxed v)] := by
    intro v
    simp [Rule.fire, boxRule, boxMatch]
  rw [Rule.derive_eq_fireAnswers (F := boxClauses) rfl]
  cases hD : boxRule.fireAnswers ((Store.graph g).answers (Config.withPatience {} n) boxClauses) with
  | error e =>
    rcases Rule.fireAnswers_eq_error hD with ⟨m, hm, he⟩ | ⟨-, rfl⟩
    · obtain ⟨v, -, rfl⟩ := eq_boxMatch_of_mem h hm
      rw [fires] at he
      cases he
    · exact .inl rfl
  | ok found =>
    refine .inr ⟨found, rfl, fun t => ?_⟩
    rw [Rule.mem_fireAnswers hD]
    constructor
    · rintro ⟨m, hm, ts, hts, ht⟩
      obtain ⟨v, hv, rfl⟩ := eq_boxMatch_of_mem h hm
      rw [fires] at hts
      obtain rfl := Except.ok.inj hts
      exact ⟨v, hv, List.mem_singleton.1 ht⟩
    · rintro ⟨v, hv, rfl⟩
      have complete := (Rule.fireAnswers_eq_ok.1 hD).2
      exact ⟨_, boxMatch_mem h hv complete, _, fires v, List.mem_singleton_self _⟩

/-- Some thing in the box is not yet in it boxed: there would be no largest one. -/
theorem exists_unboxed : ∃ v, boxHolds v ∈ g.toList ∧ boxHolds (boxed v) ∉ g.toList := by
  by_contra all
  push Not at all
  have large : ∀ n, ∃ v, boxHolds v ∈ g.toList ∧ n ≤ sizeOf v := by
    intro n
    induction n with
    | zero =>
      obtain ⟨v, hv⟩ := h.holds
      exact ⟨v, hv, Nat.zero_le _⟩
    | succ n ih =>
      obtain ⟨v, hv, hn⟩ := ih
      refine ⟨boxed v, all v hv, ?_⟩
      simp only [boxed, Term.formula.sizeOf_spec, List.cons.sizeOf_spec, Triple.mk.sizeOf_spec]
      omega
  obtain ⟨v, hv, hn⟩ := large (sizeOf g.toList)
  have small := List.sizeOf_lt_of_mem hv
  simp only [boxHolds, Triple.mk.sizeOf_spec] at small
  omega

end

theorem saturate_box (n left number : Nat) {g : Graph} (h : Boxes g) (derived : OrderedSet Triple) :
    (boxRule.saturate (Config.withPatience {} n) left number g derived).result = .error .outOfPatience := by
  induction left generalizing number g derived with
  | zero => exact Rule.result_saturate_zero rfl n number derived
  | succ left ih =>
    rw [Rule.result_saturate_succ rfl]
    rcases derive_box h n with hD | ⟨found, hD, mem⟩
    · rw [hD]
      rfl
    have noVar : ∀ t ∈ found.toList, t.hasVar = false := by
      intro t ht
      obtain ⟨v, -, rfl⟩ := (mem t).1 ht
      rfl
    obtain ⟨grown, hgrown⟩ := Graph.exists_addAll noVar g
    have next : Boxes grown := by
      constructor
      · exact (Graph.mem_addAll hgrown).2 (.inl h.next)
      · exact h.holds.imp fun v hv => (Graph.mem_addAll hgrown).2 (.inl hv)
      · intro t ht
        rcases (Graph.mem_addAll hgrown).1 ht with ht | ht
        · exact h.only t ht
        · obtain ⟨v, -, rfl⟩ := (mem t).1 ht
          exact .inr ⟨_, rfl⟩
    obtain ⟨v, hv, new⟩ := exists_unboxed h
    have some : found.toList.countP (fun t => !g.contains t) ≠ 0 := by
      rw [← Nat.pos_iff_ne_zero, List.countP_pos_iff]
      exact ⟨_, (mem _).2 ⟨v, hv, rfl⟩, by simpa [← Graph.contains_iff] using new⟩
    rw [hD, ok_bind, hgrown, ok_bind, if_neg some]
    exact ih (number + 1) next _

/-- Each round boxes what the box holds, without end. -/
theorem deriveRecursive_settles_false : ¬ ∀ (r : Rule) (F : Formula) (x : String) (config : Config)
    (facts : Graph), r.condition = .formula F → r.conclusion = .var x → r.isNegative = false →
      config.roundLimit = none → (∀ t ∈ facts.toList ++ F, t.Canonical) →
      (∀ g, r.Visits config facts g → r.PassEnds config g) →
      ∃ n, (r.deriveRecursive (config.withPatience n) (.graph facts)).result ≠ .error .outOfPatience := by
  intro all
  have list : boxFacts.toList = [boxNext, boxHolds (.iri "b")] := by decide +kernel
  have canonical : ∀ t ∈ boxFacts.toList ++ boxClauses, t.Canonical := by
    simp [list, boxClauses, boxNext, boxHolds, boxed, boxIncludes, Triple.Canonical, Term.Canonical,
      Triple.AllCanonical, Formula.Ascending]
  have written : ∀ c ∈ boxClauses, c.isWritten = true := by decide +kernel
  obtain ⟨n, hn⟩ := all boxRule boxClauses "f" {} boxFacts rfl rfl rfl rfl canonical fun g _ =>
    Rule.passEnds_of_written rfl written {} g
  obtain ⟨start, hstart, run⟩ := boxRule.exists_deriveRecursive (x := "f") rfl rfl boxFacts
  have boxes : Boxes start := by
    have mem : ∀ t, t ∈ start.toList ↔ t = boxNext ∨ t = boxHolds (.iri "b") := by
      intro t
      rw [Graph.mem_ofList hstart, list]
      simp
    exact ⟨(mem _).2 (.inl rfl), ⟨_, (mem _).2 (.inr rfl)⟩, fun t ht => ((mem t).1 ht).imp id fun e => ⟨_, e⟩⟩
  rw [run] at hn
  exact hn (saturate_box n n 0 boxes ∅)

end TripleChain
