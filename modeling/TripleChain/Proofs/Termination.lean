import Mathlib.Order.WellFounded
import TripleChain.Proofs.BoundValues

/-!
# Where matching ends

The clauses of an inclusion may be the value of a slot, and then they are no part of the clause. A formula
among the facts can so be matched for itself, again and again (`ends_false`). Where every inclusion has its
clauses written in it, the searches it opens lie inside one another no deeper than formulas are quoted.
Values may stand for clauses as well, as long as no inclusion quoted in the data leaves its clauses open:
then the clauses of a value are all written (`search_ends`).
-/

namespace TripleChain

/-! ## Inclusions with written clauses -/

/-- Whether the predicate makes an inclusion or a negated one of a clause. -/
def Term.opensScope (p : Term) : Bool := p = .iri Vocabulary.includes || p = .iri Vocabulary.notIncludes

mutual

/-- Every inclusion among the clauses that the term quotes has its clauses written in it, and so have the
inclusions among these. -/
def Term.isWritten : Term → Bool
  | .formula ts => Triple.allWritten ts
  | .literal _ | .iri _ | .var _ | .blank _ => true

def Triple.isWritten : Triple → Bool
  | ⟨_, p, o⟩ => !p.opensScope || !o.isSlot && o.isWritten

def Triple.allWritten : List Triple → Bool
  | [] => true
  | c :: cs => c.isWritten && Triple.allWritten cs

end

mutual

/-- No inclusion quoted in the term has a slot for its clauses, and with values put in for slots none will.
Where inclusions may not occur (`named` is false) no name of one stands anywhere; where they may, no slot
stands for the predicate of a triple with a slot for its object. -/
def Term.isSettled (named : Bool) : Term → Bool
  | .iri s => named || !(Term.iri s).opensScope
  | .formula ts => Triple.allSettled named ts
  | .literal _ | .var _ | .blank _ => true

def Triple.isSettled (named : Bool) : Triple → Bool
  | ⟨s, p, o⟩ => (!(p.opensScope || named && p.isSlot) || !o.isSlot) &&
    s.isSettled named && p.isSettled named && o.isSettled named

def Triple.allSettled (named : Bool) : List Triple → Bool
  | [] => true
  | t :: ts => t.isSettled named && Triple.allSettled named ts

end

theorem Triple.allWritten_iff {cs : List Triple} : allWritten cs = true ↔ ∀ c ∈ cs, c.isWritten = true := by
  induction cs with
  | nil => simp [allWritten]
  | cons c cs ih => simp [allWritten, ih]

theorem Triple.allSettled_iff {named : Bool} {ts : List Triple} :
    allSettled named ts = true ↔ ∀ t ∈ ts, t.isSettled named = true := by
  induction ts with
  | nil => simp [allSettled]
  | cons t ts ih => simp [allSettled, ih]

theorem Triple.isSettled_iff {named : Bool} {t : Triple} : t.isSettled named = true ↔
    ((t.predicate.opensScope || named && t.predicate.isSlot) = true → t.object.isSlot = false) ∧
      ∀ a ∈ t.terms, a.isSettled named = true := by
  obtain ⟨s, p, o⟩ := t
  simp only [isSettled, terms, Bool.and_eq_true, Bool.or_eq_true, Bool.not_eq_true', List.forall_mem_cons,
    List.not_mem_nil, false_imp_iff, implies_true, and_true, and_assoc]
  refine and_congr_left fun _ => ?_
  cases p.opensScope <;> cases named <;> cases p.isSlot <;> simp

theorem Triple.opensScope_of_not_scopeFree {c : Triple} (h : ¬ c.ScopeFree) :
    c.predicate.opensScope = true := by
  unfold ScopeFree at h
  rw [← not_or, not_not] at h
  unfold Term.opensScope
  rw [Bool.or_eq_true, decide_eq_true_eq, decide_eq_true_eq]
  exact h.imp Builtin.eq_of_builtin? Builtin.eq_of_builtin?

mutual

theorem Term.isWritten_of_isSettled {named : Bool} : (a : Term) → a.isSettled named = true → a.isWritten = true
  | .literal _, _ | .iri _, _ | .var _, _ | .blank _, _ => rfl
  | .formula ts, h => Triple.allWritten_of_allSettled ts h

theorem Triple.isWritten_of_isSettled {named : Bool} : (t : Triple) → t.isSettled named = true →
    t.isWritten = true
  | ⟨s, p, o⟩, h => by
    obtain ⟨hopen, hterms⟩ := Triple.isSettled_iff.1 h
    have ho := Term.isWritten_of_isSettled o (hterms o (by simp [Triple.terms]))
    cases hp : p.opensScope with
    | false => simp [Triple.isWritten, hp]
    | true =>
      have hslot : o.isSlot = false := hopen (by simp [hp])
      simp [Triple.isWritten, hslot, ho]

theorem Triple.allWritten_of_allSettled {named : Bool} : (ts : List Triple) →
    Triple.allSettled named ts = true → Triple.allWritten ts = true
  | [], _ => rfl
  | t :: ts, h => by
    rw [Triple.allSettled, Bool.and_eq_true] at h
    rw [Triple.allWritten, Triple.isWritten_of_isSettled t h.1, Triple.allWritten_of_allSettled ts h.2]
    rfl

end

theorem Term.isSlot_of_substitute {a : Term} {b : Bindings} (h : (a.substitute b).isSlot = true) :
    a.isSlot = true := by
  cases a with
  | var | blank => rfl
  | _ => simp [substitute, isSlot] at h

theorem Term.opensScope_of_substitute {p : Term} {b : Bindings} (h : (p.substitute b).opensScope = true) :
    p.opensScope = true ∨ p.isSlot = true := by
  cases p with
  | var | blank => exact .inr rfl
  | iri s => exact .inl h
  | _ => simp [substitute, opensScope] at h

theorem Term.not_opensScope_of_unnamed {p : Term} (h : p.isSettled false = true) : p.opensScope = false := by
  cases p with
  | iri s => simpa [isSettled] using h
  | _ => rfl

theorem Triple.compositional_settled (named : Bool) :
    Compositional (fun a => a.isSettled named = true) fun t => t.isSettled named = true where
  literal _ := rfl
  formula _ := Triple.allSettled_iff
  terms _ h := (Triple.isSettled_iff.1 h).2
  substitute t b h hterms := by
    obtain ⟨s, p, o⟩ := t
    obtain ⟨hopen, -⟩ := Triple.isSettled_iff.1 h
    refine Triple.isSettled_iff.2 ⟨fun hp => ?_, fun a ha => ?_⟩
    · by_contra hslot
      have ho : o.isSlot = true := Term.isSlot_of_substitute (Bool.not_eq_false _ ▸ hslot)
      -- The object was a slot before, so the predicate was one at most where no inclusion is named.
      have closed : p.opensScope = false ∧ (named = true → p.isSlot = false) := by
        by_contra hn
        have := hopen (by cases named <;> simp_all)
        exact absurd ho (by simpa using this)
      rcases Bool.or_eq_true_iff.1 hp with hopens | hp
      · have hpslot := (Term.opensScope_of_substitute hopens).resolve_left (by simp [closed.1])
        cases named with
        | true => exact absurd hpslot (by simp [closed.2 rfl])
        | false =>
          have hp' := Term.not_opensScope_of_unnamed (hterms p (by simp [Triple.terms]))
          exact Bool.false_ne_true (hp'.symm.trans hopens)
      · rw [Bool.and_eq_true] at hp
        have hpslot := Term.isSlot_of_substitute hp.2
        exact absurd hpslot (by simp [closed.2 hp.1])
    · rw [Triple.terms_substitute] at ha
      obtain ⟨c, hc, rfl⟩ := List.mem_map.1 ha
      exact hterms c hc

/-! ## Tasks of clauses -/

/-- An inclusion with its clauses written in it is searched for clauses of its object. -/
theorem Triple.object_of_isWritten {c : Triple} {store : Store} {b : Bindings} {t : Task}
    (hc : c.isWritten = true) (h : c.task? store b = some t) :
    ∃ F, c.object = .formula F ∧ c.object.isWritten = true ∧ ∀ d ∈ t.clauses, d ∈ F := by
  obtain ⟨opens, task⟩ := Triple.task?_eq_some h
  obtain ⟨F, hF, hclauses, -⟩ := Builtin.task?_eq_some task
  obtain ⟨s, p, o⟩ := c
  have hp : p.opensScope = true := Triple.opensScope_of_not_scopeFree opens
  simp only [isWritten, hp, Bool.not_true, Bool.false_or, Bool.and_eq_true, Bool.not_eq_true'] at hc
  simp only [Term.resolve, hc.1] at hF
  exact ⟨F, Option.some.inj hF, hc.2, hclauses⟩

/-- Clauses end whose tasks do. -/
theorem Task.ends_of_clauses {t : Task} (h : ∀ c ∈ t.clauses, ∀ m t', c.task? t.store m = some t' → t'.Ends) :
    t.Ends := by
  refine Task.ends_of_opens fun t' ht => ?_
  obtain ⟨c, cs, m, hr, htask⟩ := ht
  exact h c hr.mem m t' htask

mutual

theorem Term.ends_of_written : (a : Term) → a.isWritten = true → ∀ F, a = .formula F → ∀ t : Task,
    (∀ c ∈ t.clauses, c ∈ F) → t.Ends
  | .formula ts, ha, F, e, t, ht => by
    obtain rfl := Term.formula.inj e
    exact Task.ends_of_clauses fun c hc m t' => Triple.allTasks_end ts ha c (ht c hc) t.store m t'
  | .literal _, _, F, e, _, _ | .iri _, _, F, e, _, _ | .var _, _, F, e, _, _ | .blank _, _, F, e, _, _ => by
    cases e

theorem Triple.task_ends : (c : Triple) → c.isWritten = true → ∀ store b t, c.task? store b = some t → t.Ends
  | ⟨s, p, o⟩, hc, store, b, t, h => by
    obtain ⟨F, hF, written, hclauses⟩ := Triple.object_of_isWritten hc h
    exact Term.ends_of_written o written F hF t hclauses

theorem Triple.allTasks_end : (cs : List Triple) → Triple.allWritten cs = true → ∀ c ∈ cs, ∀ store b t,
    c.task? store b = some t → t.Ends
  | [], _, c, hc, _, _, _, _ => absurd hc List.not_mem_nil
  | d :: cs, h, c, hc, store, b, t, ht => by
    rw [Triple.allWritten, Bool.and_eq_true] at h
    rcases List.mem_cons.1 hc with e | hc
    · exact Triple.task_ends d h.1 store b t (e ▸ ht)
    · exact Triple.allTasks_end cs h.2 c hc store b t ht

end

/-- A search over the store with the bindings has data with the property alone. -/
structure Task.DataIn (P : Term → Prop) (t : Task) : Prop where
  store : t.store.Within P
  bindings : t.bindings.Within P
  /-- The scopes written in the clauses are data as well. -/
  scopes : ∀ c ∈ t.clauses, c.ScopesIn P

mutual

theorem Term.ends_of_dataIn {P : Term → Prop} (hP : Inherited P) (hsub : Substitutes P)
    (written : ∀ a, P a → a.isWritten = true) : (a : Term) → a.ScopesIn P → ∀ F, a = .formula F →
      ∀ t : Task, (∀ c ∈ t.clauses, c ∈ F) → t.store.Within P → t.bindings.Within P → t.Ends
  | .formula ts, ha, F, e, t, ht, hstore, hb => by
    obtain rfl := Term.formula.inj e
    refine Task.ends_of_opens fun t' ⟨c, cs, m, hr, htask⟩ => ?_
    have scopes : ∀ c ∈ t.clauses, c.ScopesIn P := fun c hc => Triple.allScopesIn_iff.1 ha c (ht c hc)
    exact Triple.allTasks_end_of_dataIn hP hsub written ts ha c (ht c hr.mem) t.store m t' hstore
      (hr.keeps (searchInvariant_within hP hsub) hstore scopes hb) htask
  | .literal _, _, F, e, _, _, _, _ | .iri _, _, F, e, _, _, _, _ | .var _, _, F, e, _, _, _, _
  | .blank _, _, F, e, _, _, _, _ => by cases e

theorem Triple.task_ends_of_dataIn {P : Term → Prop} (hP : Inherited P) (hsub : Substitutes P)
    (written : ∀ a, P a → a.isWritten = true) : (c : Triple) → c.ScopesIn P → ∀ store b t,
      store.Within P → b.Within P → c.task? store b = some t → t.Ends
  | ⟨s, p, o⟩, hc, store, b, t, hstore, hb, h => by
    obtain ⟨opens, task⟩ := Triple.task?_eq_some h
    obtain ⟨hs, ho⟩ := hc.resolve_left opens
    obtain ⟨hstore', -⟩ := Builtin.within_task hP (hsub b hb) hstore hb hs ho task
    obtain ⟨F, hF, hclauses, hbindings, -⟩ := Builtin.task?_eq_some task
    cases hslot : o.isSlot with
    | true =>
      -- The clauses are a value, and in a value all clauses are written.
      have value : b.get? o = some (.formula F) := by simpa [Term.resolve, hslot] using hF
      exact Term.ends_of_written (.formula F) (written _ (hb o _ value)) F rfl t hclauses
    | false =>
      have hF : o = .formula F := by simpa [Term.resolve, hslot] using hF
      exact Term.ends_of_dataIn hP hsub written o ho F hF t hclauses hstore' (hbindings ▸ hb)

theorem Triple.allTasks_end_of_dataIn {P : Term → Prop} (hP : Inherited P) (hsub : Substitutes P)
    (written : ∀ a, P a → a.isWritten = true) : (cs : List Triple) → Triple.AllScopesIn P cs → ∀ c ∈ cs,
      ∀ store b t, store.Within P → b.Within P → c.task? store b = some t → t.Ends
  | [], _, c, hc, _, _, _, _, _, _ => absurd hc List.not_mem_nil
  | d :: cs, h, c, hc, store, b, t, hstore, hb, ht => by
    rcases List.mem_cons.1 hc with e | hc
    · exact Triple.task_ends_of_dataIn hP hsub written d h.1 store b t hstore hb (e ▸ ht)
    · exact Triple.allTasks_end_of_dataIn hP hsub written cs h.2 c hc store b t hstore hb ht

end

/-! ## Drawing the answers -/

section
variable {t : Task}

theorem Task.ends_of_written (h : ∀ c ∈ t.clauses, c.isWritten = true) : t.Ends :=
  Term.ends_of_written (.formula t.clauses) (Triple.allWritten_iff.2 h) t.clauses rfl t fun _ hc => hc

theorem Task.DataIn.ends {named : Bool} (h : t.DataIn fun a => a.isSettled named = true) : t.Ends := by
  have hP := Triple.compositional_settled named
  exact Term.ends_of_dataIn hP.inherited hP.substitutes Term.isWritten_of_isSettled (.formula t.clauses)
    (Triple.allScopesIn_iff.2 h.scopes) t.clauses rfl t (fun _ hc => hc) h.store h.bindings

end

/-- Drawing all answers of a search ends exactly if there is no endless chain of searches, each opened by an
inclusion that the one before comes to. There is none where every inclusion among the clauses has its
clauses written in it, and none where the facts, the values at the start and the scopes written in the
clauses quote no inclusion that leaves its clauses open: then an inclusion may take its clauses and its
scope from the values of slots. -/
theorem search_ends (store : Store) (clauses : List Triple) (b : Bindings) :
    let t : Task := ⟨store, clauses, b⟩
    (t.Ends ↔ ¬ ∃ chain : Nat → Task, chain 0 = t ∧ ∀ n, (chain n).Opens (chain (n + 1))) ∧
      (t.Ends → ∃ depth, ∃ bs : List Bindings, ∀ n,
        (Cursor.start depth store clauses b).take n = .all (bs.take n)) ∧
      ((∀ c ∈ clauses, c.isWritten = true) → t.Ends) ∧
      ∀ named, (t.DataIn fun a => a.isSettled named = true) → t.Ends := by
  intro t
  refine ⟨?_, ?_, fun written => Task.ends_of_written written, fun named data => data.ends⟩
  · exact Task.ends_iff_acc.trans (not_iff_comm.1 not_acc_iff_exists_descending_chain).symm
  · rintro ⟨depth, hc⟩
    exact ⟨depth, _, Cursor.take_start hc⟩

/-- The facts quote a formula, and an inclusion with its clauses written in it. -/
def quotedFacts : Graph :=
  let quoted := Term.quoting [⟨.iri "c", .iri "p", .iri "d"⟩]
  let pattern := Term.quoting [⟨.var "u", .iri "says", .var "v"⟩,
    ⟨.var "v", .iri Vocabulary.includes, .quoting [⟨.var "w", .iri "p", .iri "d"⟩]⟩]
  (Graph.empty.insert ⟨.iri "a", .iri "doc", .quoting [⟨.iri "b", .iri "says", quoted⟩]⟩ rfl).insert
    ⟨.iri "a", .iri "asks", pattern⟩ rfl

/-- The scope and the clauses of the inclusion are values from the facts. -/
def quotedQuery : List Triple :=
  [⟨.iri "a", .iri "doc", .var "s"⟩, ⟨.iri "a", .iri "asks", .var "x"⟩,
    ⟨.var "s", .iri Vocabulary.includes, .var "x"⟩]

theorem search_ends_quoted : (⟨.graph quotedFacts, quotedQuery, ∅⟩ : Task).Ends ∧
    (Search.solve 2 (.graph quotedFacts) quotedQuery ∅).found.map (fun b => b.get? (.var "w")) =
      [some (.iri "c")] := by
  have data : (⟨.graph quotedFacts, quotedQuery, ∅⟩ : Task).DataIn fun a => a.isSettled true = true := by
    refine ⟨?_, Bindings.within_empty, ?_⟩
    · have : ∀ t ∈ quotedFacts.toList, ∀ a ∈ t.terms, a.isSettled true = true := by decide +kernel
      exact this
    · simp [quotedQuery, Triple.ScopesIn, Term.ScopesIn, Term.isSlot, Term.isSettled]
  exact ⟨(search_ends (.graph quotedFacts) quotedQuery ∅).2.2.2 true data, by decide +kernel⟩

/-- Asks whether the facts include what `x` stands for. -/
def openInclusion : Triple := ⟨.var "s", .iri Vocabulary.includes, .var "x"⟩

/-- The facts quote an inclusion that leaves its clauses open. -/
def openFacts : Graph := Graph.empty.insert ⟨.iri "a", .iri "p", .quoting [openInclusion]⟩ rfl

/-- Bound to the formula that it stands in, the inclusion opens a search for itself. -/
theorem ends_false : ¬ ∀ (store : Store) (clauses : List Triple) (b : Bindings),
    (⟨store, clauses, b⟩ : Task).Ends := by
  intro all
  let b := (∅ : Bindings).insert (.var "x") (.quoting [openInclusion])
  let again : Task := ⟨.graph openFacts, [openInclusion], b⟩
  have opens : again.Opens again := ⟨openInclusion, [], b, .refl _ _, rfl⟩
  have ends := all (.graph openFacts) [⟨.iri "a", .iri "p", .var "x"⟩, openInclusion] ∅
  have first : Task.Opens ⟨.graph openFacts, [⟨.iri "a", .iri "p", .var "x"⟩, openInclusion], ∅⟩ again :=
    ⟨openInclusion, [], b, .step 0 rfl (by decide) (.refl _ _), rfl⟩
  have acc := (Task.ends_iff_acc.1 ends).inv first
  have endless : ∃ chain : Nat → Task, chain 0 = again ∧ ∀ n, (chain n).Opens (chain (n + 1)) :=
    ⟨fun _ => again, rfl, fun _ => opens⟩
  exact not_acc_iff_exists_descending_chain.2 endless acc

end TripleChain
