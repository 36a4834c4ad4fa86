import TripleChain.Proofs.Monotone

/-!
# Searching the same triples

Whether a search comes to its end, and what it finds then, depends on which triples the store holds and
not on their order (`Store.same_answers`). Negation is no exception: both searches of its scope end, or
neither does.
-/

namespace TripleChain

/-- The stores hold the same triples. -/
def Store.Same (store store' : Store) : Prop := ∀ t, t ∈ store.toList ↔ t ∈ store'.toList

namespace Answers

/-- If one of the searches comes to its end, so does the other, and they find the same. -/
structure Same (a a' : Answers) : Prop where
  left : a.IsPart a'
  right : a'.IsPart a

variable {a a' : Answers}

theorem Same.refl (a : Answers) : a.Same a := ⟨.refl a, .refl a⟩

theorem Same.complete_iff (h : a.Same a') : a.complete = true ↔ a'.complete = true :=
  ⟨fun hc => (h.right hc).1, fun hc => (h.left hc).1⟩

theorem Same.mem_iff (h : a.Same a') (hc : a.complete = true) (s : Bindings) :
    s ∈ a.found ↔ s ∈ a'.found :=
  ⟨fun hs => (h.left (h.complete_iff.1 hc)).2 s hs, fun hs => (h.right hc).2 s hs⟩

theorem same_all {bs bs' : List Bindings} (h : ∀ s, s ∈ bs ↔ s ∈ bs') : (all bs).Same (all bs') :=
  ⟨isPart_all fun s => (h s).1, isPart_all fun s => (h s).2⟩

theorem Same.whole (h : a.Same a') : (Builtin.whole a).Same (Builtin.whole a') :=
  ⟨h.left.whole, h.right.whole⟩

theorem Same.andThen (h : a.Same a') {next next' : Bindings → Answers}
    (hn : ∀ b, (next b).Same (next' b)) : (a.andThen next).Same (a'.andThen next') :=
  ⟨h.left.andThen fun b _ => (hn b).left, h.right.andThen fun b _ => (hn b).right⟩

theorem IsPart.map (h : a.IsPart a') (f : Bindings → Bindings) :
    IsPart { a with found := a.found.map f } { a' with found := a'.found.map f } := by
  intro hc
  refine ⟨(h hc).1, fun s hs => ?_⟩
  obtain ⟨m, hm, rfl⟩ := List.mem_map.1 hs
  exact List.mem_map_of_mem ((h hc).2 m hm)

theorem Same.map (h : a.Same a') (f : Bindings → Bindings) :
    Same { a with found := a.found.map f } { a' with found := a'.found.map f } :=
  ⟨h.left.map f, h.right.map f⟩

end Answers

/-- The search depends on which triples the store holds, and not on their order. -/
def Solver.Extensional (inner : Solver) : Prop :=
  ∀ (store store' : Store) (cs : List Triple) (b : Bindings), store.Same store' →
    (inner store cs b).Same (inner store' cs b)

section
variable {inner : Solver} (hi : inner.Extensional) {store store' : Store} (h : store.Same store')
include hi h

namespace Builtin

variable {s o : Term} {b : Bindings}

theorem same_evalIncludes : (evalIncludes inner store s o b).Same (evalIncludes inner store' s o b) := by
  rcases evalIncludes_cases inner s o b with e | ⟨clauses, -, e | ⟨scope, -, e⟩⟩
  · rw [e, e]
    exact .refl _
  · rw [e, e]
    exact (hi _ _ _ _ h).whole
  · rw [e, e]
    exact .refl _

theorem same_evalNotIncludes :
    (evalNotIncludes inner store s o b).Same (evalNotIncludes inner store' s o b) := by
  have same := same_evalIncludes hi h (s := s) (o := o) (b := b)
  unfold evalNotIncludes
  split
  · exact .refl _
  · dsimp only
    by_cases hc : (evalIncludes inner store s o b).complete = true
    · have empty : (evalIncludes inner store s o b).found.isEmpty =
          (evalIncludes inner store' s o b).found.isEmpty := by
        rw [Bool.eq_iff_iff, List.isEmpty_iff, List.isEmpty_iff]
        simp only [List.eq_nil_iff_forall_not_mem, same.mem_iff hc]
      rw [if_pos hc, if_pos (same.complete_iff.1 hc), empty]
      exact .refl _
    · rw [if_neg hc, if_neg (mt same.complete_iff.2 hc)]
      exact .refl _

end Builtin

namespace Search

theorem same_extend (c : Triple) (b : Bindings) : (extend inner store c b).Same (extend inner store' c b) := by
  unfold extend
  cases hf : c.predicate.builtin? with
  | none =>
    simp only [Store.flatMap_query]
    refine Answers.same_all fun s => ?_
    simp only [List.mem_flatMap, h _]
  | some f =>
    by_cases hinc : f = .includes
    · subst hinc
      exact Builtin.same_evalIncludes hi h
    by_cases hnot : f = .notIncludes
    · subst hnot
      exact Builtin.same_evalNotIncludes hi h
    · simp only [Builtin.eval_plain hinc hnot]
      exact .refl _

end Search

end

namespace Search

theorem extensional_solveWith {inner : Solver} (hi : inner.Extensional) :
    Solver.Extensional (solveWith inner) := by
  intro store store' cs b h
  induction cs generalizing b with
  | nil => exact .refl _
  | cons c cs ih => exact (same_extend hi h c b).andThen ih

theorem extensional_solveScope : (depth : Nat) → (solveScope depth).Extensional
  | 0 => fun _ _ _ _ _ => .refl _
  | depth + 1 => extensional_solveWith (extensional_solveScope depth)

theorem extensional_solve (depth : Nat) : (solve depth).Extensional :=
  extensional_solveWith (extensional_solveScope depth)

end Search

/-- The clauses have the same matches in stores that hold the same triples. -/
theorem Store.same_answers {store store' : Store} (h : store.Same store') (config : Config)
    (clauses : List Triple) : (store.answers config clauses).Same (store'.answers config clauses) :=
  Search.extensional_solve config.patience store store' (config.order clauses) ∅ h

end TripleChain
