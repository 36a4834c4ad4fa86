import Mathlib.Data.List.Perm.Basic
import TripleChain.Proofs.Comparison

/-!
# Clauses in any order

Matching one clause and then another finds the same bindings as the other way round, each as often, also
where a quoted formula is matched in several ways (`Triple.bindAll_perm`). So the order in which clauses
are matched makes no difference to what rules without builtins derive (`infer_reorderClauses`).
-/

namespace TripleChain

/-! ## Steps that commute -/

namespace Bindings

/-- In either order the two steps lead to the same bindings, equally often. -/
def Commutes (f g : Bindings → List Bindings) : Prop :=
  ∀ b, ((f b).flatMap g).Perm ((g b).flatMap f)

variable {f g h : Bindings → List Bindings}

theorem Commutes.symm (hfg : Commutes f g) : Commutes g f := fun b => (hfg b).symm

theorem commutes_nil : Commutes (fun _ => []) h := by
  intro b
  rw [List.flatMap_nil, List.flatMap_eq_nil_iff.2 fun _ _ => rfl]

theorem commutes_single : Commutes (fun b => [b]) h := by
  intro b
  rw [List.flatMap_singleton, List.flatMap_singleton']

theorem commutes_test (p : Prop) [Decidable p] : Commutes (fun b => if p then [b] else []) h := by
  by_cases hp : p
  · simp only [if_pos hp]
    exact commutes_single
  · simp only [if_neg hp]
    exact commutes_nil

theorem Commutes.andThen (hf : Commutes f h) (hg : Commutes g h) :
    Commutes (fun b => (f b).flatMap g) h := by
  intro b
  have first : (((f b).flatMap g).flatMap h).Perm (((f b).flatMap h).flatMap g) := by
    rw [List.flatMap_assoc, List.flatMap_assoc]
    exact List.Perm.flatMap_left _ fun m _ => hg m
  have second : (((f b).flatMap h).flatMap g).Perm ((h b).flatMap fun m => (f m).flatMap g) := by
    rw [← List.flatMap_assoc]
    exact (hf b).flatMap_right g
  exact first.trans second

theorem commutes_choice {α : Type} {step : α → Bindings → List Bindings} (hs : ∀ a, Commutes (step a) h)
    (as : List α) : Commutes (fun b => as.flatMap fun a => step a b) h := by
  intro b
  induction as with
  | nil => exact commutes_nil b
  | cons a as ih =>
    simp only [List.flatMap_cons, List.flatMap_append]
    exact ((hs a b).append ih).trans (List.flatMap_append_perm ..)

theorem commutes_unify (k v k' v' : Term) :
    Commutes (fun b => b.unify k v) (fun b => b.unify k' v') := by
  intro b
  have nodup : ∀ k v k' v', ((b.unify k v).flatMap fun m => m.unify k' v').Nodup :=
    fun k v k' v' => nodup_of_length_le_one
      (length_flatMap_le_one (b.length_unify_le k v) fun m => m.length_unify_le k' v')
  have mem : ∀ k v k' v' s, s ∈ ((b.unify k v).flatMap fun m => m.unify k' v') ↔
      b.Extends [k, k'] s ∧ s.get? k = some v ∧ s.get? k' = some v' := by
    intro k v k' v' s
    simp only [List.mem_flatMap, mem_unify]
    refine exists_extends_and fun m hm hs => ?_
    rw [hm.values_eq hs k (List.mem_singleton_self k)]
  refine (List.perm_ext_iff_of_nodup (nodup ..) (nodup ..)).2 fun s => ?_
  rw [mem, mem, and_comm (a := s.get? k = some v)]
  exact and_congr_left' ⟨.congr fun _ => by simp [or_comm], .congr fun _ => by simp [or_comm]⟩

end Bindings

/-! ## Clauses that commute -/

theorem Term.bind_literal (l : Literal) (t : Term) :
    (Term.literal l).bind t = fun b => if t = .literal l then [b] else [] := by
  funext b
  cases t <;> simp [Term.bind]

theorem Term.bind_iri (i : String) (t : Term) :
    (Term.iri i).bind t = fun b => if t = .iri i then [b] else [] := by
  funext b
  cases t <;> simp [Term.bind]

section
variable {h : Bindings → List Bindings}

mutual

theorem Term.commutes_bind_of_unify (hu : ∀ k v, Bindings.Commutes (fun b => b.unify k v) h) :
    (a t : Term) → Bindings.Commutes (a.bind t) h
  | .literal l, t => by
    rw [Term.bind_literal]
    exact Bindings.commutes_test _
  | .iri i, t => by
    rw [Term.bind_iri]
    exact Bindings.commutes_test _
  | .var _, .var _ | .blank _, .var _ | .formula _, .var _ => Bindings.commutes_nil
  | .var x, .literal _ | .var x, .iri _ | .var x, .blank _ | .var x, .formula _ => hu (.var x) _
  | .blank x, .literal _ | .blank x, .iri _ | .blank x, .blank _ | .blank x, .formula _ =>
    hu (.blank x) _
  | .formula cs, .formula ts => Triple.commutes_bindAll_of_unify hu cs ts
  | .formula _, .literal _ | .formula _, .iri _ | .formula _, .blank _ => Bindings.commutes_nil

theorem Triple.commutes_bind_of_unify (hu : ∀ k v, Bindings.Commutes (fun b => b.unify k v) h) :
    (c t : Triple) → Bindings.Commutes (c.bind t) h
  | ⟨a, p, o⟩, t =>
    (Term.commutes_bind_of_unify hu a t.subject).andThen
      ((Term.commutes_bind_of_unify hu p t.predicate).andThen
        (Term.commutes_bind_of_unify hu o t.object))

theorem Triple.commutes_bindAll_of_unify (hu : ∀ k v, Bindings.Commutes (fun b => b.unify k v) h) :
    (cs ts : List Triple) → Bindings.Commutes (Triple.bindAll cs ts) h
  | [], _ => Bindings.commutes_single
  | c :: cs, ts =>
    (Bindings.commutes_choice (fun t => Triple.commutes_bind_of_unify hu c t) ts).andThen
      (Triple.commutes_bindAll_of_unify hu cs ts)

end

end

namespace Triple

/-- Matching one clause and matching another commute, whatever triples they are matched with. -/
theorem commutes_bind (c d t u : Triple) : Bindings.Commutes (c.bind t) (d.bind u) := by
  -- What commutes with the binding of slots commutes with clauses: `d` does so, and then `c` with `d`.
  have slot : ∀ k v, Bindings.Commutes (fun b => b.unify k v) (d.bind u) := by
    intro k v
    exact (commutes_bind_of_unify (fun k' v' => Bindings.commutes_unify k' v' k v) d u).symm
  exact commutes_bind_of_unify slot c t

theorem commutes_choices (c d : Triple) (ts us : List Triple) :
    Bindings.Commutes (fun b => ts.flatMap fun t => c.bind t b) (fun b => us.flatMap fun u => d.bind u b) := by
  refine Bindings.commutes_choice (fun t => ?_) ts
  exact (Bindings.commutes_choice (fun u => (commutes_bind c d t u).symm) us).symm

theorem bindAll_perm (ts : List Triple) {cs cs' : List Triple} (h : cs.Perm cs') (b : Bindings) :
    (bindAll cs ts b).Perm (bindAll cs' ts b) := by
  induction h generalizing b with
  | nil => exact .refl _
  | cons c _ ih => exact List.Perm.flatMap_left _ fun m _ => ih m
  | swap c d cs =>
    simp only [bindAll, ← List.flatMap_assoc]
    exact (commutes_choices d c ts ts b).flatMap_right _
  | trans _ _ ih ih' => exact (ih b).trans (ih' b)

end Triple

/-! ## Rules without builtins -/

/-- No clause has a builtin for its predicate, negations apart, and none inside a negation has one. -/
def Rule.IsStored (r : Rule) : Prop := ∀ F, r.condition = .formula F →
  (∀ c ∈ Rule.plainClauses F, c.isComputed = false) ∧ ∀ c ∈ Rule.negatedClauses F, c.isComputed = false

theorem Rule.IsStored.of_searches {r : Rule} (h : r.IsStored) {clauses : List Triple}
    (hs : r.Searches clauses) : ∀ c ∈ clauses, c.isComputed = false := by
  intro c hc
  cases hs with
  | condition hF pos =>
    refine (h _ hF).1 c (List.mem_filter.2 ⟨hc, ?_⟩)
    rw [isNegative, hF, Term.formula?, Option.any_some, List.any_eq_false] at pos
    simpa using pos c hc
  | part hF sub => exact Formula.stored_of_mem_readClauses (sub c (Formula.mem_ofList.1 hc))
  | plain hF => exact (h _ hF).1 c (Formula.mem_ofList.1 hc)
  | held hF =>
    rcases mem_heldClauses.1 (Formula.mem_ofList.1 hc) with hc | hc
    · exact (h _ hF).1 c hc
    · exact (h _ hF).2 c hc

theorem Store.IsMatch.same {store store' : Store} (h : store.Same store') {cs : List Triple}
    {b s : Bindings} (hs : store.IsMatch cs b s) : store'.IsMatch cs b s where
  extends' := hs.extends'
  holds c hc := by
    obtain ⟨t, ht, hm⟩ := hs.holds c hc
    exact ⟨t, (h t).1 ht, hm⟩

theorem searchedAlike_of_stored (config config' : Config) {clauses : List Triple}
    (h : ∀ c ∈ clauses, c.isComputed = false) : SearchedAlike True config config' clauses where
  same store store' hs := by
    obtain ⟨bs, hbs, mem⟩ := store.answers_stored config h
    obtain ⟨bs', hbs', mem'⟩ := store'.answers_stored config' h
    rw [hbs, hbs']
    refine Answers.same_all fun s => ?_
    rw [mem, mem']
    exact ⟨.same hs, .same fun t => (hs t).symm⟩
  complete _ store := by
    obtain ⟨bs, hbs, -⟩ := store.answers_stored config h
    rw [hbs]
    rfl

/-- Rules without builtins derive the same whether or not clauses are put in order first, or fail for the
same kind of reason. Any order of stored clauses gives the same matches, each equally often. -/
theorem infer_reorderClauses (config : Config) (facts : List Triple) (rules : List Rule)
    (stored : ∀ r ∈ rules, r.IsStored) :
    EndAlike (fun e f => e.kind = f.kind) (fun D D' => ∀ t, t ∈ D ↔ t ∈ D')
      (infer facts rules (config.withReorderClauses true)).result
      (infer facts rules (config.withReorderClauses false)).result ∧
    ∀ (depth : Nat) (store : Store) (b : Bindings) (clauses clauses' : List Triple),
      (∀ c ∈ clauses, c.isComputed = false) → clauses.Perm clauses' →
      (Search.solve depth store clauses b).complete = true ∧
      (Search.solve depth store clauses' b).complete = true ∧
      (Search.solve depth store clauses b).found.Perm (Search.solve depth store clauses' b).found := by
  constructor
  · have comparable : ComparableRuns True False (config.withReorderClauses true)
        (config.withReorderClauses false) rules :=
      { roundLimit := rfl
        patience := rfl
        rule := fun r hr =>
          { searched := fun _ hs => searchedAlike_of_stored _ _ ((stored r hr).of_searches hs)
            sides := False.elim } }
    have alike := infer_alike comparable (fun t => Iff.rfl (a := t ∈ facts)) False.elim
    exact alike.mono (fun h => h.kind.resolve_right fun left => left.1 trivial) fun h => h.same
  · intro depth store b clauses clauses' hstored perm
    have hstored' : ∀ c ∈ clauses', c.isComputed = false :=
      fun c hc => hstored c (perm.mem_iff.2 hc)
    rw [Search.solve, Search.solveWith_stored hstored, Search.solveWith_stored hstored']
    exact ⟨rfl, rfl, Triple.bindAll_perm store.toList perm b⟩

/-- A quoted formula, a clause that shares a slot with it, and a negation; the other order of the clauses
gives the triples in another order. -/
theorem infer_reorderClauses_quoted :
    let claim : Triple := ⟨.var "s", .iri "claims", .quoting [⟨.var "u", .iri "is", .var "v"⟩]⟩
    let link : Triple := ⟨.var "a", .iri "likes", .var "u"⟩
    let negation : Triple := ⟨.var "f", .iri Vocabulary.notIncludes,
      .quoting [⟨.var "s", .iri "likes", .var "u"⟩]⟩
    let known (u : String) : Triple := ⟨.iri "ann", .iri "knows", .iri u⟩
    let rule := Rule.ofLists [claim, link, negation] [⟨.var "s", .iri "knows", .var "u"⟩]
    let is (x y : String) : Triple := ⟨.iri x, .iri "is", .iri y⟩
    let facts : List Triple := [
      ⟨.iri "ann", .iri "claims", .quoting [is "rex" "dog", is "tom" "cat"]⟩,
      ⟨.iri "ben", .iri "claims", .quoting [is "rex" "dog", is "rex" "big"]⟩,
      ⟨.iri "bob", .iri "likes", .iri "tom"⟩, ⟨.iri "ben", .iri "likes", .iri "rex"⟩]
    rule.IsStored ∧ (∃ D D',
      (infer facts [rule] (Config.withReorderClauses {} true)).result = .ok D ∧
      (infer facts [rule] (Config.withReorderClauses {} false)).result = .ok D' ∧
      D.toList = [known "rex", known "tom"] ∧ D'.toList = [known "tom", known "rex"] ∧
      ∀ t, t ∈ D ↔ t ∈ D') ∧
    (∀ c ∈ [claim, link], c.isComputed = false) ∧ [claim, link].Perm [link, claim] ∧
    (Search.solve 0 (.formula facts) [claim, link] ∅).found.length = 4 ∧
    (Search.solve 0 (.formula facts) [claim, link] ∅).found.Perm
      (Search.solve 0 (.formula facts) [link, claim] ∅).found := by
  intro claim link negation known rule is facts
  have stored : rule.IsStored := by
    intro F hF
    cases hF
    decide +kernel
  have run : (infer facts [rule] (Config.withReorderClauses {} true)).result.toOption.map (·.toList) =
      some [known "rex", known "tom"] := by decide +kernel
  have run' : (infer facts [rule] (Config.withReorderClauses {} false)).result.toOption.map (·.toList) =
      some [known "tom", known "rex"] := by decide +kernel
  obtain ⟨D, hD, found⟩ := exists_ok_of_map run
  obtain ⟨D', hD', found'⟩ := exists_ok_of_map run'
  obtain ⟨alike, perm⟩ := infer_reorderClauses {} facts [rule] (by simpa using stored)
  have clauses : ∀ c ∈ [claim, link], c.isComputed = false := by decide
  have swap : [claim, link].Perm [link, claim] := .swap ..
  refine ⟨stored, ⟨D, D', hD, hD', found, found', ?_⟩, clauses, swap, by decide +kernel,
    (perm 0 (.formula facts) ∅ _ _ clauses swap).2.2⟩
  rw [hD, hD'] at alike
  cases alike with
  | ok h => exact h

end TripleChain
