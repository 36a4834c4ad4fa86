import TripleChain.Proofs.Passes

/-!
# Searches opened by searches

An inclusion opens a search of its own, which may open others. What every step of a search keeps holds of
all that it finds, whatever scopes it opens (`SearchInvariant.solve`). More depth lets a
search go on that was left, and changes nothing of one that came to its end (`Search.solve_refines`). A
search comes to its end at some depth exactly if no chain of searches, each opened by the one before, goes
on forever (`Task.ends_iff_acc`).
-/

namespace TripleChain

/-- What to search, for which clauses, under which bindings. -/
structure Task where
  store : Store
  clauses : List Triple
  bindings : Bindings

def Task.run (inner : Solver) (t : Task) : Answers := inner t.store t.clauses t.bindings

/-- The search that an inclusion opens, if its operands name one. -/
def Builtin.task? (store : Store) (s o : Term) (b : Bindings) : Option Task :=
  match (o.resolve b).bind Term.formula? with
  | none => none
  | some clauses =>
    match s.resolve b with
    | none => some ⟨store, orderClauses clauses b.keys, b⟩
    | some (.formula scope) => some ⟨.formula (Formula.substitute scope b), orderClauses clauses b.keys, b⟩
    | some _ => none

def Triple.task? (c : Triple) (store : Store) (b : Bindings) : Option Task :=
  match c.predicate.builtin? with
  | some .includes | some .notIncludes => Builtin.task? store c.subject c.object b
  | _ => none

section
variable {inner : Solver} {store : Store} {c : Triple} {s o : Term} {b m : Bindings} {t : Task}

namespace Builtin

theorem eq_of_builtin? {a : Term} {f : Builtin} (h : a.builtin? = some f) : a = .iri f.iri := by
  obtain ⟨s, hs, hf⟩ := Option.bind_eq_some_iff.1 h
  have := List.find?_some hf
  rw [Term.iri?_eq_some.1 hs, of_decide_eq_true this]

theorem evalIncludes_eq (inner : Solver) : evalIncludes inner store s o b =
    ((task? store s o b).map fun t => whole (t.run inner)).getD (.all []) := by
  unfold evalIncludes task?
  cases (o.resolve b).bind Term.formula? with
  | none => rfl
  | some clauses =>
    cases s.resolve b with
    | none => rfl
    | some v => cases v <;> rfl

/-- The scope of an inclusion is a formula of its own, or whatever store is at hand. -/
theorem evalIncludes_cases (inner : Solver) (s o : Term) (b : Bindings) :
    (∀ store, evalIncludes inner store s o b = .all []) ∨
      ∃ clauses, o.resolve b = some (.formula clauses) ∧
        ((∀ store, evalIncludes inner store s o b =
            whole (inner store (orderClauses clauses b.keys) b)) ∨
          ∃ scope, s.resolve b = some (.formula scope) ∧ ∀ store, evalIncludes inner store s o b =
            whole (inner (.formula (Formula.substitute scope b)) (orderClauses clauses b.keys) b)) := by
  unfold evalIncludes
  cases ho : (o.resolve b).bind Term.formula? with
  | none => exact .inl fun _ => rfl
  | some clauses =>
    obtain ⟨a, ha, hclauses⟩ := Option.bind_eq_some_iff.1 ho
    obtain rfl := Term.formula?_eq_some.1 hclauses
    cases hs : s.resolve b with
    | none => exact .inr ⟨clauses, ha, .inl fun _ => rfl⟩
    | some v =>
      cases v with
      | formula scope => exact .inr ⟨clauses, ha, .inr ⟨scope, rfl, fun _ => rfl⟩⟩
      | _ => exact .inl fun _ => rfl

theorem eval_plain {f : Builtin} (h : f ≠ includes) (h' : f ≠ notIncludes) :
    f.eval inner store s o b = .all (f.evalPlain s o b) := by
  cases f <;> first | rfl | contradiction

theorem found_whole {a : Answers} (h : m ∈ (whole a).found) : m ∈ a.found := by
  unfold whole at h
  split at h
  · exact h
  · exact absurd h List.not_mem_nil

theorem mem_evalIncludes (h : m ∈ (evalIncludes inner store s o b).found) :
    ∃ t, task? store s o b = some t ∧ m ∈ (t.run inner).found := by
  rw [evalIncludes_eq] at h
  cases ht : task? store s o b with
  | none => rw [ht] at h; exact absurd h List.not_mem_nil
  | some t => rw [ht] at h; exact ⟨t, rfl, found_whole h⟩

/-- A negation keeps the bindings or gives none. -/
theorem eq_of_mem_evalNotIncludes (h : m ∈ (evalNotIncludes inner store s o b).found) : m = b := by
  unfold evalNotIncludes at h
  split at h
  · exact absurd h List.not_mem_nil
  · dsimp only at h
    split at h
    · exact eq_of_mem_keep h
    · exact absurd h List.not_mem_nil

/-- A task is to match the clauses that are the object of an inclusion, or its value, in the store at hand
or in the formula that is the subject or its value. -/
theorem task?_eq_some (h : task? store s o b = some t) :
    ∃ F, o.resolve b = some (.formula F) ∧ (∀ c ∈ t.clauses, c ∈ F) ∧ t.bindings = b ∧
      (t.store = store ∨ ∃ scope, s.resolve b = some (.formula scope) ∧
        t.store = .formula (Formula.substitute scope b)) := by
  unfold task? at h
  cases ho : (o.resolve b).bind Term.formula? with
  | none => rw [ho] at h; cases h
  | some F =>
    obtain ⟨v, hv, hF⟩ := Option.bind_eq_some_iff.1 ho
    obtain rfl := Term.formula?_eq_some.1 hF
    have ordered : ∀ c ∈ orderClauses F b.keys, c ∈ F := fun c => (orderClauses_perm F b.keys).mem_iff.1
    refine ⟨F, hv, ?_⟩
    rw [ho] at h
    cases hs : s.resolve b with
    | none =>
      rw [hs] at h
      cases h
      exact ⟨ordered, rfl, .inl rfl⟩
    | some v =>
      rw [hs] at h
      cases v with
      | formula scope => cases h; exact ⟨ordered, rfl, .inr ⟨scope, rfl, rfl⟩⟩
      | _ => cases h

end Builtin

theorem Triple.task?_of_scopeFree (h : c.ScopeFree) : c.task? store b = none := by
  unfold task?
  split
  · next hf => exact absurd hf h.1
  · next hf => exact absurd hf h.2
  · rfl

theorem Triple.task?_eq_some (h : c.task? store b = some t) :
    ¬ c.ScopeFree ∧ Builtin.task? store c.subject c.object b = some t := by
  constructor
  · intro free
    rw [task?_of_scopeFree free] at h
    cases h
  unfold task? at h
  split at h
  · exact h
  · exact h
  · cases h

/-! ## What a search keeps -/

/-- What holds of the bindings on the way of a search, where stores and clauses are as they should be. -/
structure SearchInvariant (I : Bindings → Prop) (J : Store → Prop) (C : Triple → Prop) : Prop where
  stored : ∀ store c b t, J store → C c → I b → t ∈ store.toList → ∀ m ∈ c.bind t b, I m
  computed : ∀ c b (f : Builtin), C c → I b → ∀ m ∈ f.evalPlain c.subject c.object b, I m
  scope : ∀ (store : Store) (c : Triple) (b : Bindings) (t : Task), J store → C c → I b →
    c.task? store b = some t → J t.store ∧ ∀ d ∈ t.clauses, C d

/-- The way to search keeps the invariant. -/
def Solver.Keeps (I : Bindings → Prop) (J : Store → Prop) (C : Triple → Prop) (inner : Solver) : Prop :=
  ∀ (store : Store) (cs : List Triple) (b : Bindings), J store → (∀ c ∈ cs, C c) → I b →
    ∀ m ∈ (inner store cs b).found, I m

theorem Answers.mem_found_chain {next : Bindings → Answers} {bs : List Bindings} {complete : Bool}
    (h : m ∈ (chain next bs complete).found) : ∃ b ∈ bs, m ∈ (next b).found := by
  induction bs with
  | nil => exact absurd h List.not_mem_nil
  | cons b bs ih =>
    rw [chain] at h
    split at h
    · rcases List.mem_append.1 h with h | h
      · exact ⟨b, List.mem_cons_self .., h⟩
      · obtain ⟨c, hc, hs⟩ := ih h
        exact ⟨c, List.mem_cons_of_mem _ hc, hs⟩
    · exact ⟨b, List.mem_cons_self .., h⟩

section
variable {I : Bindings → Prop} {J : Store → Prop} {C : Triple → Prop} (h : SearchInvariant I J C)
include h

theorem SearchInvariant.extend (hi : inner.Keeps I J C) (hstore : J store) (hc : C c) (hb : I b) :
    ∀ m ∈ (Search.extend inner store c b).found, I m := by
  intro m hm
  unfold Search.extend at hm
  cases hf : c.predicate.builtin? with
  | none =>
    rw [hf] at hm
    obtain ⟨t, ht, hm⟩ := List.mem_flatMap.1 hm
    exact h.stored store c b t hstore hc hb (Store.mem_query.1 ht).1 m hm
  | some f =>
    rw [hf] at hm
    dsimp only at hm
    by_cases hinc : f = .includes
    · subst hinc
      obtain ⟨t, ht, hm⟩ := Builtin.mem_evalIncludes hm
      obtain ⟨-, -, -, hbindings, -⟩ := Builtin.task?_eq_some ht
      have task : c.task? store b = some t := by rw [Triple.task?, hf, ht]
      obtain ⟨hstore', hcs⟩ := h.scope store c b t hstore hc hb task
      exact hi t.store t.clauses t.bindings hstore' hcs (hbindings ▸ hb) m hm
    by_cases hnot : f = .notIncludes
    · subst hnot
      exact Builtin.eq_of_mem_evalNotIncludes hm ▸ hb
    · rw [Builtin.eval_plain hinc hnot] at hm
      exact h.computed c b f hc hb m hm

theorem SearchInvariant.solveWith (hi : inner.Keeps I J C) : Solver.Keeps I J C (Search.solveWith inner) := by
  intro store cs b hstore hcs hb m hm
  induction cs generalizing b with
  | nil => exact List.mem_singleton.1 hm ▸ hb
  | cons c cs ih =>
    obtain ⟨hc, hcs⟩ := List.forall_mem_cons.1 hcs
    obtain ⟨s, hs, hm⟩ := Answers.mem_found_chain hm
    exact ih s hcs (h.extend hi hstore hc hb s hs) hm

theorem SearchInvariant.solveScope : (depth : Nat) → Solver.Keeps I J C (Search.solveScope depth)
  | 0 => fun _ _ _ _ _ _ _ hm => absurd hm List.not_mem_nil
  | depth + 1 => h.solveWith (solveScope depth)

theorem SearchInvariant.solve (depth : Nat) : Solver.Keeps I J C (Search.solve depth) :=
  h.solveWith (h.solveScope depth)

end

end

/-! ## Depth -/

/-- The second search goes on where the first one was left, if it was. -/
structure Answers.ContinuedBy (a a' : Answers) : Prop where
  found : a.found <+: a'.found
  same : a.complete = true → a' = a

namespace Answers

variable {a a' : Answers}

theorem ContinuedBy.refl (a : Answers) : a.ContinuedBy a := ⟨List.prefix_rfl, fun _ => rfl⟩

theorem ContinuedBy.trans {a'' : Answers} (h : a.ContinuedBy a') (h' : a'.ContinuedBy a'') :
    a.ContinuedBy a'' := by
  refine ⟨h.found.trans h'.found, fun hc => ?_⟩
  have same := h.same hc
  rw [h'.same (same ▸ hc), same]

theorem continuedBy_cut (a : Answers) : cut.ContinuedBy a :=
  ⟨List.nil_prefix, fun h => absurd h Bool.false_ne_true⟩

theorem ContinuedBy.chain {next next' : Bindings → Answers} (h : ∀ b, (next b).ContinuedBy (next' b))
    {complete complete' : Bool} {more : List Bindings} (done : complete = true → more = [] ∧ complete' = true)
    (bs : List Bindings) : (chain next bs complete).ContinuedBy (chain next' (bs ++ more) complete') := by
  induction bs with
  | nil =>
    cases complete with
    | false => exact continuedBy_cut _
    | true =>
      obtain ⟨rfl, rfl⟩ := done rfl
      exact .refl _
  | cons b bs ih =>
    rw [List.cons_append, Answers.chain, Answers.chain]
    by_cases here : (next b).complete = true
    · rw [(h b).same here, if_pos here, if_pos here]
      refine ⟨(List.prefix_append_right_inj _).2 ih.found, fun hc => ?_⟩
      rw [ih.same hc]
    · rw [if_neg here]
      refine ⟨?_, fun hc => absurd hc here⟩
      split
      · exact (h b).found.trans (List.prefix_append _ _)
      · exact (h b).found

theorem ContinuedBy.andThen (h : a.ContinuedBy a') {next next' : Bindings → Answers}
    (hn : ∀ b, (next b).ContinuedBy (next' b)) : (a.andThen next).ContinuedBy (a'.andThen next') := by
  obtain ⟨more, hmore⟩ := h.found
  unfold Answers.andThen
  rw [← hmore]
  refine .chain hn (fun hc => ?_) a.found
  have same := h.same hc
  rw [same, List.append_right_eq_self] at hmore
  exact ⟨hmore, same ▸ hc⟩

end Answers

/-- Where the first search comes to its end, the second one gives the same; where it is left, the second
one goes on. -/
def Solver.Refines (inner inner' : Solver) : Prop :=
  ∀ (store : Store) (cs : List Triple) (b : Bindings), (inner store cs b).ContinuedBy (inner' store cs b)

section
variable {inner inner' : Solver} {store : Store} {c : Triple} {s o : Term} {b : Bindings}

namespace Builtin

theorem complete_whole {a : Answers} : (whole a).complete = true ↔ a.complete = true := by
  unfold whole
  split
  · rfl
  · next h => simp [h, Answers.cut]

theorem complete_evalIncludes : (evalIncludes inner store s o b).complete = true ↔
    ∀ t, task? store s o b = some t → (t.run inner).complete = true := by
  rw [evalIncludes_eq]
  cases task? store s o b with
  | none => simp [Answers.all]
  | some t => simp [complete_whole]

theorem complete_evalNotIncludes : (evalNotIncludes inner store s o b).complete = true ↔
    (evalIncludes inner store s o b).complete = true := by
  unfold evalNotIncludes
  split
  · next h => simp [evalIncludes, h, Answers.all]
  · dsimp only
    split
    · next h => simp [h, Answers.all]
    · next h => simp [h, Answers.cut]

theorem whole_continuedBy {a a' : Answers} (h : a.ContinuedBy a') : (whole a).ContinuedBy (whole a') := by
  by_cases hc : a.complete = true
  · rw [h.same hc]
    exact .refl _
  · rw [whole, if_neg hc]
    exact Answers.continuedBy_cut _

theorem evalIncludes_refines (h : inner.Refines inner') :
    (evalIncludes inner store s o b).ContinuedBy (evalIncludes inner' store s o b) := by
  rw [evalIncludes_eq, evalIncludes_eq]
  cases task? store s o b with
  | none => exact .refl _
  | some t => exact whole_continuedBy (h t.store t.clauses t.bindings)

theorem evalNotIncludes_refines (h : inner.Refines inner') :
    (evalNotIncludes inner store s o b).ContinuedBy (evalNotIncludes inner' store s o b) := by
  have continued : (evalIncludes inner store s o b).ContinuedBy (evalIncludes inner' store s o b) :=
    evalIncludes_refines h
  unfold evalNotIncludes
  split
  · exact .refl _
  · dsimp only
    by_cases hc : (evalIncludes inner store s o b).complete = true
    · rw [continued.same hc]
      exact .refl _
    · rw [if_neg hc]
      exact Answers.continuedBy_cut _

end Builtin

namespace Search

/-- A clause is done with when the search that it opens comes to its end. -/
theorem complete_extend : (extend inner store c b).complete = true ↔
    ∀ t, c.task? store b = some t → (t.run inner).complete = true := by
  unfold extend Triple.task?
  cases hf : c.predicate.builtin? with
  | none => simp [Answers.all]
  | some f =>
    cases f with
    | includes => exact Builtin.complete_evalIncludes
    | notIncludes => exact Builtin.complete_evalNotIncludes.trans Builtin.complete_evalIncludes
    | _ => simp [Builtin.eval, Answers.all]

theorem extend_refines (h : inner.Refines inner') (store : Store) (c : Triple) (b : Bindings) :
    (extend inner store c b).ContinuedBy (extend inner' store c b) := by
  unfold extend
  split
  · next f hf =>
    cases f with
    | includes => exact Builtin.evalIncludes_refines h
    | notIncludes => exact Builtin.evalNotIncludes_refines h
    | _ => exact .refl _
  · exact .refl _

theorem solveWith_refines (h : inner.Refines inner') :
    Solver.Refines (solveWith inner) (solveWith inner') := by
  intro store cs b
  induction cs generalizing b with
  | nil => exact .refl _
  | cons c cs ih => exact (extend_refines h store c b).andThen ih

theorem solveScope_refines_succ : (depth : Nat) → Solver.Refines (solveScope depth) (solveScope (depth + 1))
  | 0 => fun _ _ _ => Answers.continuedBy_cut _
  | depth + 1 => solveWith_refines (solveScope_refines_succ depth)

theorem solveScope_refines {depth depth' : Nat} (h : depth ≤ depth') :
    Solver.Refines (solveScope depth) (solveScope depth') := by
  induction h with
  | refl => exact fun _ _ _ => .refl _
  | @step depth' _ ih =>
    exact fun store cs b => (ih store cs b).trans (solveScope_refines_succ depth' store cs b)

/-- More depth changes nothing of a search that came to its end, and lets one that was left go on. -/
theorem solve_refines {depth depth' : Nat} (h : depth ≤ depth') :
    Solver.Refines (solve depth) (solve depth') :=
  solveWith_refines (solveScope_refines h)

theorem complete_solve_mono {depth depth' : Nat} (h : depth ≤ depth') {cs : List Triple}
    (hc : (solve depth store cs b).complete = true) : (solve depth' store cs b).complete = true := by
  rw [(solve_refines h store cs b).same hc]
  exact hc

theorem extend_eq_of_complete {depth depth' : Nat} (h : (extend (solveScope depth) store c b).complete = true)
    (h' : (extend (solveScope depth') store c b).complete = true) :
    extend (solveScope depth) store c b = extend (solveScope depth') store c b := by
  rcases Nat.le_total depth depth' with hle | hle
  · exact ((extend_refines (solveScope_refines hle) store c b).same h).symm
  · exact (extend_refines (solveScope_refines hle) store c b).same h'

end Search

end

/-! ## Chains of searches -/

namespace Search

/-- On the way through the clauses, with the searches that they open done, the search comes to the last
clauses under the last bindings. -/
inductive Reached (store : Store) : List Triple → Bindings → List Triple → Bindings → Prop where
  | refl (cs : List Triple) (b : Bindings) : Reached store cs b cs b
  | step {c : Triple} {cs cs' : List Triple} {b m s : Bindings} (depth : Nat)
      (complete : (extend (solveScope depth) store c b).complete = true)
      (mem : m ∈ (extend (solveScope depth) store c b).found) (rest : Reached store cs m cs' s) :
      Reached store (c :: cs) b cs' s

variable {store : Store} {c : Triple} {cs cs' : List Triple} {b m s : Bindings} {depth : Nat}

theorem Reached.mem (h : Reached store cs b (c :: cs') m) : c ∈ cs := by
  generalize hcs : c :: cs' = last at h
  induction h with
  | refl => exact hcs ▸ List.mem_cons_self ..
  | step _ _ _ _ ih => exact List.mem_cons_of_mem _ (ih hcs)

theorem Reached.keeps {I : Bindings → Prop} {J : Store → Prop} {C : Triple → Prop}
    (h : Reached store cs b cs' m) (inv : SearchInvariant I J C) (hstore : J store) (hcs : ∀ c ∈ cs, C c)
    (hb : I b) : I m := by
  induction h with
  | refl => exact hb
  | step depth _ mem _ ih =>
    obtain ⟨hc, hcs⟩ := List.forall_mem_cons.1 hcs
    exact ih hcs (inv.extend (inv.solveScope depth) hstore hc hb _ mem)

theorem Reached.concat (h : Reached store cs b (c :: cs') m)
    (complete : (extend (solveScope depth) store c m).complete = true)
    (mem : s ∈ (extend (solveScope depth) store c m).found) : Reached store cs b cs' s := by
  generalize hcs : c :: cs' = last at h
  induction h with
  | refl => exact hcs ▸ .step depth complete mem (.refl _ _)
  | step depth' complete' mem' _ ih => exact .step depth' complete' mem' (ih complete mem hcs)

/-- Where a search comes to its end, so does every clause that it reaches. -/
theorem Reached.complete (h : Reached store cs b (c :: cs') m)
    (hc : (solve depth store cs b).complete = true) :
    (extend (solveScope depth) store c m).complete = true := by
  generalize hcs : c :: cs' = last at h
  induction h with
  | refl =>
    subst hcs
    exact (Answers.complete_andThen.1 hc).1
  | step depth' complete' mem' _ ih =>
    obtain ⟨here, rest⟩ := Answers.complete_andThen.1 hc
    rw [extend_eq_of_complete complete' here] at mem'
    exact ih (rest _ mem') hcs

end Search

namespace Task

/-- The first search opens the second one. -/
def Opens (t t' : Task) : Prop :=
  ∃ c cs m, Search.Reached t.store t.clauses t.bindings (c :: cs) m ∧ c.task? t.store m = some t'

/-- At some depth the search comes to its end. -/
def Ends (t : Task) : Prop := ∃ depth, (t.run (Search.solve depth)).complete = true

variable {t t' : Task}

theorem Opens.complete {depth : Nat} (h : t.Opens t') (hc : (t.run (Search.solve depth)).complete = true) :
    (t'.run (Search.solveScope depth)).complete = true := by
  obtain ⟨c, cs, m, hr, ht⟩ := h
  exact Search.complete_extend.1 (hr.complete hc) t' ht

theorem exists_depth_of_forall {bs : List Bindings} {store : Store} {cs : List Triple}
    (h : ∀ b ∈ bs, Ends ⟨store, cs, b⟩) :
    ∃ depth, ∀ b ∈ bs, (Search.solve depth store cs b).complete = true := by
  induction bs with
  | nil => exact ⟨0, fun _ hb => absurd hb List.not_mem_nil⟩
  | cons b bs ih =>
    obtain ⟨here, later⟩ := List.forall_mem_cons.1 h
    obtain ⟨d, hd⟩ := here
    obtain ⟨d', hd'⟩ := ih later
    refine ⟨max d d', List.forall_mem_cons.2 ⟨?_, fun m hm => ?_⟩⟩
    · exact Search.complete_solve_mono (Nat.le_max_left d d') hd
    · exact Search.complete_solve_mono (Nat.le_max_right d d') (hd' m hm)

/-- A search comes to its end if every search does that it opens. -/
theorem ends_of_opens (h : ∀ t', t.Opens t' → t'.Ends) : t.Ends := by
  have suffix : ∀ cs m, Search.Reached t.store t.clauses t.bindings cs m → Ends ⟨t.store, cs, m⟩ := by
    intro cs
    induction cs with
    | nil => exact fun _ _ => ⟨0, rfl⟩
    | cons c cs ih =>
      intro m hm
      -- The search that the clause opens, if any, comes to its end at some depth.
      obtain ⟨d, hd⟩ : ∃ d, (Search.extend (Search.solveScope d) t.store c m).complete = true := by
        cases ht : c.task? t.store m with
        | none => exact ⟨0, Search.complete_extend.2 fun t' ht' => by rw [ht] at ht'; cases ht'⟩
        | some t' =>
          obtain ⟨d, hd⟩ := h t' ⟨c, cs, m, hm, ht⟩
          refine ⟨d + 1, Search.complete_extend.2 fun u hu => ?_⟩
          rw [ht] at hu
          exact Option.some.inj hu ▸ hd
      obtain ⟨d', hd'⟩ := exists_depth_of_forall fun s hs => ih s (hm.concat hd hs)
      refine ⟨max d d', Answers.complete_andThen.2 ?_⟩
      rw [(Search.extend_refines (Search.solveScope_refines (Nat.le_max_left d d')) _ c m).same hd]
      exact ⟨hd, fun s hs => Search.complete_solve_mono (Nat.le_max_right d d') (hd' s hs)⟩
  exact suffix _ _ (.refl _ _)

/-- A search comes to its end exactly if no chain of searches, each opened by the one before, goes on
forever. -/
theorem ends_iff_acc : t.Ends ↔ Acc (fun t' t => Opens t t') t := by
  constructor
  · rintro ⟨depth, hc⟩
    induction depth generalizing t with
    | zero => exact .intro _ fun t' h => absurd (h.complete hc) Bool.false_ne_true
    | succ depth ih => exact .intro _ fun t' h => ih (h.complete hc)
  · intro h
    induction h with
    | intro t _ ih => exact ends_of_opens ih

end Task

end TripleChain
