import TripleChain.Proofs.Cursor
import TripleChain.Proofs.Matching

/-!
# What a search finds

Clauses that open no scope are searched one after the other, and more triples give no fewer
answers. A search for clauses without builtins finds the bindings under which every clause matches
a triple of the store (`solve_sound_complete`): the mask only leaves out triples that would not
match.
-/

namespace TripleChain

/-! ## Masks -/

theorem Term.fixed_eq {a t v : Term} {b s : Bindings} (keeps : ∀ k v, b.get? k = some v → s.get? k = some v)
    (hm : a.Matches t s) (hf : a.fixed b = some v) : v = t := by
  cases a with
  | literal l => rw [Term.Matches] at hm; simp only [Term.fixed, Option.some.injEq] at hf; rw [hm, hf]
  | iri i => rw [Term.Matches] at hm; simp only [Term.fixed, Option.some.injEq] at hf; rw [hm, hf]
  | var x =>
    rw [Term.Matches] at hm
    rw [Term.fixed, Option.filter_eq_some_iff] at hf
    have := keeps _ _ hf.1
    rw [hm.2] at this
    exact (Option.some.inj this).symm
  | blank x =>
    rw [Term.Matches] at hm
    rw [Term.fixed, Option.filter_eq_some_iff] at hf
    have := keeps _ _ hf.1
    rw [hm.2] at this
    exact (Option.some.inj this).symm
  | formula cs => cases hf

theorem Triple.mask_admits {c t : Triple} {b s : Bindings} (h : s ∈ c.bind t b) :
    (c.mask b).admits t = true := by
  obtain ⟨hs, hm⟩ := (Triple.mem_bind c t b).1 h
  obtain ⟨a, p, o⟩ := c
  rw [Triple.Matches] at hm
  rw [Mask.admits_iff]
  intro pos v hv
  cases pos with
  | subject => exact Term.fixed_eq hs.keeps hm.1 hv
  | predicate => exact Term.fixed_eq hs.keeps hm.2.1 hv
  | object => exact Term.fixed_eq hs.keeps hm.2.2 hv

theorem flatMap_filter_of_nil {α β : Type} {p : α → Bool} {f : α → List β} {l : List α}
    (h : ∀ a ∈ l, p a = false → f a = []) : (l.filter p).flatMap f = l.flatMap f := by
  induction l with
  | nil => rfl
  | cons a l ih =>
    have rest := ih fun b hb => h b (List.mem_cons_of_mem _ hb)
    rw [List.filter_cons, List.flatMap_cons]
    by_cases ha : p a = true
    · rw [if_pos ha, List.flatMap_cons, rest]
    · rw [if_neg ha, rest, h a (List.mem_cons_self ..) (by simpa using ha), List.nil_append]

theorem Store.flatMap_query (store : Store) (c : Triple) (b : Bindings) :
    ((store.query (c.mask b)).flatMap fun t => c.bind t b) = store.toList.flatMap fun t => c.bind t b := by
  rw [Store.query_eq_filter]
  refine flatMap_filter_of_nil fun t _ ht => ?_
  rw [List.eq_nil_iff_forall_not_mem]
  intro s hs
  rw [Triple.mask_admits hs] at ht
  cases ht

/-! ## Clauses without scopes -/

theorem Builtin.eq_of_mem_keep {holds : Bool} {b m : Bindings} (h : m ∈ keep holds b) : m = b := by
  unfold keep at h
  split at h
  · exact List.mem_singleton.1 h
  · exact absurd h List.not_mem_nil

/-- A builtin that opens no scope keeps the bindings or gives a literal to one free slot of the two
operands. -/
theorem Builtin.mem_evalPlain (f : Builtin) {a o : Term} {b m : Bindings} (h : m ∈ f.evalPlain a o b) :
    m = b ∨ ∃ k ∈ a.slots ++ o.slots, ∃ l, b.get? k = none ∧ m = b.insert k (.literal l) := by
  have hassign : ∀ slot l, slot.resolve b = none → m ∈ assign slot (.literal l) b →
      ∃ k ∈ slot.slots, ∃ l, b.get? k = none ∧ m = b.insert k (.literal l) := by
    intro slot l free hm
    unfold assign at hm
    split at hm
    · next his =>
      rw [Term.resolve, if_pos his] at free
      exact ⟨slot, Term.mem_slots_self his, l, free, List.mem_singleton.1 hm⟩
    · exact absurd hm List.not_mem_nil
  cases f with
  | includes | notIncludes => exact absurd h List.not_mem_nil
  | ord =>
    simp only [evalPlain, evalOrd] at h
    split at h
    · split at h
      · exact absurd h List.not_mem_nil
      · split at h
        · exact .inl (eq_of_mem_keep h)
        · next hs =>
          obtain ⟨k, hk, l, hm⟩ := hassign _ _ hs h
          exact .inr ⟨k, List.mem_append_left _ hk, l, hm⟩
    · next ho =>
      split at h
      · exact absurd h List.not_mem_nil
      · obtain ⟨k, hk, l, hm⟩ := hassign _ _ ho h
        exact .inr ⟨k, List.mem_append_right _ hk, l, hm⟩
  | _ => exact .inl (eq_of_mem_keep h)

/-- The clause is no inclusion of a formula in a scope. -/
def Triple.ScopeFree (c : Triple) : Prop :=
  c.predicate.builtin? ≠ some .includes ∧ c.predicate.builtin? ≠ some .notIncludes

instance (c : Triple) : Decidable c.ScopeFree := inferInstanceAs (Decidable (_ ∧ _))

/-- The extensions that a clause allows, computed or matched against some triples. -/
def Triple.extensions (c : Triple) (ts : List Triple) (b : Bindings) : List Bindings :=
  match c.predicate.builtin? with
  | some f => f.evalPlain c.subject c.object b
  | none => ts.flatMap fun t => c.bind t b

/-- The bindings under which all clauses hold, found one clause after the other. -/
def Triple.solutions : List Triple → List Triple → Bindings → List Bindings
  | [], _, b => [b]
  | c :: cs, ts, b => (c.extensions ts b).flatMap (Triple.solutions cs ts)

namespace Search

section
variable {inner : Solver} {store : Store}

theorem extend_scopeFree {c : Triple} (hc : c.ScopeFree) (b : Bindings) :
    extend inner store c b = .all (c.extensions store.toList b) := by
  unfold extend Triple.extensions
  cases hf : c.predicate.builtin? with
  | none => rw [Store.flatMap_query]
  | some f =>
    cases f with
    | includes => exact absurd hf hc.1
    | notIncludes => exact absurd hf hc.2
    | _ => rfl

theorem solveWith_scopeFree : (clauses : List Triple) → (∀ c ∈ clauses, c.ScopeFree) →
    (b : Bindings) → solveWith inner store clauses b = .all (Triple.solutions clauses store.toList b)
  | [], _, b => rfl
  | c :: cs, h, b => by
    have rest : solveWith inner store cs = fun m => .all (Triple.solutions cs store.toList m) :=
      funext fun m => solveWith_scopeFree cs (fun d hd => h d (List.mem_cons_of_mem _ hd)) m
    rw [solveWith, extend_scopeFree (h c (List.mem_cons_self ..)), rest, Answers.all_andThen_all,
      Triple.solutions]

end

end Search

namespace Triple

section
variable {ts us : List Triple} (h : ∀ t ∈ ts, t ∈ us)
include h

theorem extensions_mono {c : Triple} {b s : Bindings} (hs : s ∈ c.extensions ts b) :
    s ∈ c.extensions us b := by
  unfold extensions at hs ⊢
  cases hf : c.predicate.builtin? with
  | some f => rwa [hf] at hs
  | none =>
    rw [hf] at hs
    obtain ⟨t, ht, hs⟩ := List.mem_flatMap.1 hs
    exact List.mem_flatMap.2 ⟨t, h t ht, hs⟩

theorem solutions_mono {cs : List Triple} {b s : Bindings} (hs : s ∈ solutions cs ts b) :
    s ∈ solutions cs us b := by
  induction cs generalizing b with
  | nil => exact hs
  | cons c cs ih =>
    obtain ⟨m, hm, hs⟩ := List.mem_flatMap.1 hs
    exact List.mem_flatMap.2 ⟨m, extensions_mono h hm, ih hs⟩

end

/-! ## Clauses without builtins -/

theorem builtin?_of_stored {c : Triple} (h : c.isComputed = false) : c.predicate.builtin? = none := by
  simpa [isComputed, Term.isBuiltin] using h

theorem scopeFree_of_stored {c : Triple} (h : c.isComputed = false) : c.ScopeFree := by
  rw [ScopeFree, builtin?_of_stored h]
  exact ⟨nofun, nofun⟩

theorem solutions_stored {ts : List Triple} : (cs : List Triple) →
    (∀ c ∈ cs, c.isComputed = false) → (b : Bindings) → solutions cs ts b = bindAll cs ts b
  | [], _, _ => rfl
  | c :: cs, h, b => by
    have rest : solutions cs ts = bindAll cs ts :=
      funext fun m => solutions_stored cs (fun d hd => h d (List.mem_cons_of_mem _ hd)) m
    rw [solutions, bindAll, rest, extensions, builtin?_of_stored (h c (List.mem_cons_self ..))]

theorem mem_solutions_stored {cs ts : List Triple} (h : ∀ c ∈ cs, c.isComputed = false)
    {b s : Bindings} : s ∈ solutions cs ts b ↔
      b.Extends (allSlots cs) s ∧ ∀ c ∈ cs, ∃ t ∈ ts, c.Matches t s := by
  rw [solutions_stored cs h, ← allMatch_iff]
  exact mem_bindAll cs ts b

end Triple

theorem Search.solveWith_stored {inner : Solver} {store : Store} {clauses : List Triple}
    (h : ∀ c ∈ clauses, c.isComputed = false) (b : Bindings) :
    solveWith inner store clauses b = .all (Triple.bindAll clauses store.toList b) := by
  rw [solveWith_scopeFree clauses fun c hc => Triple.scopeFree_of_stored (h c hc),
    Triple.solutions_stored clauses h]

/-- A formula that is searched is ascending; a graph is as it is. -/
def Store.Ascending : Store → Prop
  | graph _ => True
  | formula F => Formula.Ascending F

theorem Store.Ascending.nodup {store : Store} (h : store.Ascending) : store.toList.Nodup := by
  cases store with
  | graph g => exact g.nodup
  | formula F => exact Formula.Ascending.nodup h

namespace Search

/-- A search for clauses without builtins comes to its end, and a cursor gives what it finds. These
are the bindings that extend the ones at the start by values for the slots of the clauses, at any
depth, and under which every clause matches a triple of the store; without quoted formulas none of
them is found twice. -/
theorem solve_sound_complete (depth : Nat) (store : Store) (clauses : List Triple) (b : Bindings)
    (stored : ∀ c ∈ clauses, c.isComputed = false) :
    (solve depth store clauses b).complete = true ∧
      (∀ n, (Cursor.start depth store clauses b).take n =
        .all ((solve depth store clauses b).found.take n)) ∧
      (∀ s, s ∈ (solve depth store clauses b).found ↔
        b.Extends (Triple.allSlots clauses) s ∧
          ∀ c ∈ clauses, ∃ t ∈ store.toList, c.Matches t s) ∧
      (store.Ascending → (∀ c ∈ clauses, c.IsFlat) → (solve depth store clauses b).found.Nodup) := by
  have found : solve depth store clauses b = .all (Triple.bindAll clauses store.toList b) :=
    solveWith_stored stored b
  have complete : (solve depth store clauses b).complete = true := by rw [found]; rfl
  refine ⟨complete, Cursor.take_start complete, fun s => ?_, fun asc flat => ?_⟩
  · rw [found, ← Triple.allMatch_iff]
    exact Triple.mem_bindAll clauses store.toList b
  · rw [found]
    exact Triple.nodup_bindAll asc.nodup clauses b flat

/-- A slot of a quoted formula that another clause shares, and two triples that it could match. -/
theorem solve_sound_complete_quoted :
    let claim : Triple := ⟨.var "s", .iri "says", .formula [⟨.var "w", .iri "is", .iri "cat"⟩]⟩
    let link : Triple := ⟨.var "w", .iri "knows", .var "s"⟩
    let store : Store := .formula [⟨.iri "alice", .iri "says",
      .formula [⟨.iri "rex", .iri "is", .iri "cat"⟩, ⟨.iri "tom", .iri "is", .iri "cat"⟩]⟩,
      ⟨.iri "tom", .iri "knows", .iri "alice"⟩]
    (∀ c ∈ [claim, link], c.isComputed = false) ∧
      Bindings.ofList [(.var "s", .iri "alice"), (.var "w", .iri "tom")] ∈
        (solve 0 store [claim, link] ∅).found ∧
      store.Ascending ∧ link.IsFlat ∧ (solve 0 store [link] ∅).found.Nodup := by
  intro claim link store
  have stored : ∀ c ∈ [claim, link], c.isComputed = false := by decide
  have asc : store.Ascending := by unfold store Store.Ascending Formula.Ascending; decide
  have flat : link.IsFlat := by unfold Triple.IsFlat; decide
  refine ⟨stored, ((solve_sound_complete 0 store _ ∅ stored).2.2.1 _).2 ⟨⟨nofun, ?_⟩, ?_⟩, asc, flat,
    (solve_sound_complete 0 store [link] ∅ (by decide)).2.2.2 asc fun c hc => ?_⟩
  · intro k
    have keys : (Bindings.ofList [(.var "s", .iri "alice"), (.var "w", .iri "tom")]).keys =
        [.var "s", .var "w"] := by decide
    have empty : (∅ : Bindings).keys = [] := by decide
    have slots : Triple.allSlots [claim, link] = [.var "s", .var "w", .var "w", .var "s"] := by decide
    rw [keys, empty, slots]
    simp only [List.mem_cons, List.not_mem_nil, or_false, false_or]
    tauto
  · have hs : (Bindings.ofList [(.var "s", .iri "alice"), (.var "w", .iri "tom")]).get? (.var "s") =
        some (.iri "alice") := by decide
    have hw : (Bindings.ofList [(.var "s", .iri "alice"), (.var "w", .iri "tom")]).get? (.var "w") =
        some (.iri "tom") := by decide
    simp [claim, link, store, Store.toList, Triple.Matches, Term.Matches, Triple.AllMatch, hs, hw,
      Term.isVar]
  · rw [List.mem_singleton.1 hc]
    exact flat

end Search

end TripleChain
