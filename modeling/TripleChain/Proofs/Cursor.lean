import TripleChain.Cursor

/-!
# What a cursor gives

The frames of a cursor stand for what searches of them find. A step takes the first answer and
leaves frames that stand for the others. So a cursor gives what the search finds, in its order
(`Cursor.take_start`).
-/

namespace TripleChain

section
variable (inner : Solver) (store : Store)

/-- Searches of the frames come to their ends and find `xs`. -/
def Pending (frames : List Frame) (xs : List Bindings) : Prop :=
  (∀ f ∈ frames, (Search.solveWith inner store f.1 f.2).complete = true) ∧
    xs = frames.flatMap fun f => (Search.solveWith inner store f.1 f.2).found

def Step.Gives (xs : List Bindings) : Step → Prop
  | .found b frames => ∃ ys, xs = b :: ys ∧ Pending inner store frames ys
  | .exhausted => xs = []
  | .cut => False

end

section
variable {inner : Solver} {store : Store} {frames frames' : List Frame} {xs ys : List Bindings}

theorem Pending.append (h : Pending inner store frames xs) (h' : Pending inner store frames' ys) :
    Pending inner store (frames ++ frames') (xs ++ ys) := by
  refine ⟨?_, by rw [h.2, h'.2, List.flatMap_append]⟩
  intro f hf
  rcases List.mem_append.1 hf with hf | hf
  · exact h.1 f hf
  · exact h'.1 f hf

theorem pending_map {cs : List Triple} {bs : List Bindings}
    (h : ∀ b ∈ bs, (Search.solveWith inner store cs b).complete = true) :
    Pending inner store (bs.map fun b => (cs, b))
      (bs.flatMap fun b => (Search.solveWith inner store cs b).found) := by
  refine ⟨?_, by rw [List.flatMap_map]⟩
  intro f hf
  obtain ⟨b, hb, rfl⟩ := List.mem_map.1 hf
  exact h b hb

theorem Step.first_gives {cs : List Triple} {explore : Bindings → Step}
    (hexplore : ∀ b, (Search.solveWith inner store cs b).complete = true →
      (explore b).Gives inner store (Search.solveWith inner store cs b).found) (bs : List Bindings)
    (h : ∀ b ∈ bs, (Search.solveWith inner store cs b).complete = true) :
    (Step.first explore cs bs).Gives inner store
      (bs.flatMap fun b => (Search.solveWith inner store cs b).found) := by
  induction bs with
  | nil => rfl
  | cons b bs ih =>
    have htail : ∀ e ∈ bs, (Search.solveWith inner store cs e).complete = true :=
      fun e he => h e (List.mem_cons_of_mem _ he)
    have hb := hexplore b (h b (List.mem_cons_self ..))
    rw [Step.first, List.flatMap_cons]
    cases hs : explore b with
    | found b' frames =>
      rw [hs] at hb
      obtain ⟨ys, e, hp⟩ := hb
      exact ⟨_, by rw [e, List.cons_append], hp.append (pending_map htail)⟩
    | exhausted =>
      rw [hs] at hb
      rw [show (Search.solveWith inner store cs b).found = [] from hb, List.nil_append]
      exact ih htail
    | cut => rw [hs] at hb; exact hb.elim

theorem Step.explore_gives : (cs : List Triple) → (b : Bindings) →
    (Search.solveWith inner store cs b).complete = true →
      (Step.explore inner store cs b).Gives inner store (Search.solveWith inner store cs b).found
  | [], b, _ => ⟨[], rfl, fun _ h => absurd h List.not_mem_nil, rfl⟩
  | c :: cs, b, h => by
    rw [Search.solveWith] at h ⊢
    obtain ⟨hc, hcs⟩ := Answers.complete_andThen.1 h
    rw [Answers.found_andThen h, Step.explore, if_pos hc]
    exact Step.first_gives (Step.explore_gives cs) _ hcs

namespace Cursor

theorem firstIn_gives (h : Pending inner store frames xs) :
    (firstIn inner store frames).Gives inner store xs := by
  induction frames generalizing xs with
  | nil => exact h.2
  | cons f frames ih =>
    obtain ⟨cs, b⟩ := f
    obtain ⟨hall, rfl⟩ := h
    have htail : Pending inner store frames _ := ⟨fun f hf => hall f (List.mem_cons_of_mem _ hf), rfl⟩
    have hb := Step.explore_gives cs b (hall (cs, b) (List.mem_cons_self ..))
    rw [firstIn, List.flatMap_cons]
    cases hs : Step.explore inner store cs b with
    | found b' frames' =>
      rw [hs] at hb
      obtain ⟨ys, e, hp⟩ := hb
      exact ⟨_, by rw [e, List.cons_append], hp.append htail⟩
    | exhausted =>
      rw [hs] at hb
      rw [show (Search.solveWith inner store cs b).found = [] from hb, List.nil_append]
      exact ih htail
    | cut => rw [hs] at hb; exact hb.elim

theorem take_eq (n : Nat) (c : Cursor) (h : Pending (Search.solveScope c.depth) c.store c.pending xs) :
    c.take n = .all (xs.take n) := by
  induction n generalizing c xs with
  | zero => rfl
  | succ n ih =>
    have hstep := firstIn_gives h
    rw [take, step]
    cases hs : firstIn (Search.solveScope c.depth) c.store c.pending with
    | found b frames =>
      rw [hs] at hstep
      obtain ⟨ys, rfl, hp⟩ := hstep
      have hrest := ih { c with pending := frames } hp
      dsimp only
      rw [hrest, List.take_succ_cons]
      rfl
    | exhausted =>
      rw [hs] at hstep
      rw [show xs = [] from hstep]
      rfl
    | cut => rw [hs] at hstep; exact hstep.elim

theorem take_start {depth : Nat} {store : Store} {clauses : List Triple} {b : Bindings}
    (h : (Search.solve depth store clauses b).complete = true) (n : Nat) :
    (start depth store clauses b).take n = .all ((Search.solve depth store clauses b).found.take n) := by
  apply take_eq
  refine ⟨fun f hf => ?_, ?_⟩
  · rw [List.mem_singleton.1 hf]
    exact h
  · rw [start, List.flatMap_singleton]
    rfl

end Cursor

end

end TripleChain
