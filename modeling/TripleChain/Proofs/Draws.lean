import TripleChain.Proofs.Search

/-!
# Answers drawn one at a time

A cursor keeps a stack of frames. To draw an answer it takes the frame on top and puts in its place the
frames of the extensions that the next clause allows, the first one on top, up to a frame without clauses
(`Cursor.next_cons`). The frames stand for the answers still to come, in order, and a mask only leaves
out triples that would not match. So the answers drawn are those of the recursion that tries every triple
for every clause (`Cursor.draw_start`).
-/

namespace TripleChain

section
variable (inner : Solver) (store : Store)

/-- The extensions of the bindings by one clause, where every triple is tried in the order of the store. -/
def Triple.tried (c : Triple) (b : Bindings) : List Bindings :=
  match c.predicate.builtin? with
  | some f => (f.eval inner store c.subject c.object b).found
  | none => store.toList.flatMap fun t => c.bind t b

/-- All answers, by recursion on the clauses. -/
def Search.plain : List Triple → Bindings → List Bindings
  | [], b => [b]
  | c :: cs, b => (c.tried inner store b).flatMap (plain cs)

end

section
variable {inner : Solver} {store : Store}

namespace Search

theorem found_extend (c : Triple) (b : Bindings) : (extend inner store c b).found = c.tried inner store b := by
  unfold extend Triple.tried
  cases c.predicate.builtin? with
  | some f => rfl
  | none => exact Store.flatMap_query store c b

theorem found_solveWith (cs : List Triple) (b : Bindings) (h : (solveWith inner store cs b).complete = true) :
    (solveWith inner store cs b).found = plain inner store cs b := by
  induction cs generalizing b with
  | nil => rfl
  | cons c cs ih =>
    rw [solveWith] at h ⊢
    obtain ⟨-, hcs⟩ := Answers.complete_andThen.1 h
    rw [Answers.found_andThen h, plain, ← found_extend]
    exact List.flatMap_congr fun e he => ih e (hcs e he)

end Search

namespace Cursor

/-! ## The stack -/

/-- Puts frames with the same clauses on the stack, the first of the bindings on top. -/
def push (cs : List Triple) (bs : List Bindings) (frames : List Frame) : List Frame :=
  bs.map (fun b => (cs, b)) ++ frames

theorem firstIn_cons {c : Triple} {cs : List Triple} {b : Bindings} (frames : List Frame)
    (h : (Search.extend inner store c b).complete = true) :
    firstIn inner store ((c :: cs, b) :: frames) =
      firstIn inner store (push cs (c.tried inner store b) frames) := by
  rw [firstIn, Step.explore, if_pos h, ← Search.found_extend]
  induction (Search.extend inner store c b).found with
  | nil => rfl
  | cons e bs ih =>
    rw [Step.first, push, List.map_cons, List.cons_append, firstIn]
    cases Step.explore inner store cs e with
    | found e' pending => simp only [List.append_assoc]
    | exhausted => exact ih
    | cut => rfl

variable {d : Cursor} {cs : List Triple} {c : Triple} {e : Bindings} {frames : List Frame}

theorem next_nil (h : d.pending = []) : d.next = (none, d) := by
  rw [next, step, h, firstIn, ← h]

/-- A frame without clauses is an answer. -/
theorem next_answer (h : d.pending = ([], e) :: frames) : d.next = (some e, { d with pending := frames }) := by
  rw [next, step, h, firstIn, Step.explore]
  rfl

/-- The extensions by its first clause take the place of a frame. -/
theorem next_cons (h : d.pending = (c :: cs, e) :: frames)
    (hc : (Search.extend (Search.solveScope d.depth) d.store c e).complete = true) :
    d.next = { d with pending := push cs (c.tried (Search.solveScope d.depth) d.store e) frames }.next := by
  rw [next, step, h, firstIn_cons frames hc]
  rfl

/-! ## Drawing -/

/-- What `next` gives after `n` calls of it. -/
def draw : (n : Nat) → Cursor → Option Bindings
  | 0, d => d.next.1
  | n + 1, d => draw n d.next.2

theorem draw_nil (h : d.pending = []) (n : Nat) : d.draw n = none := by
  induction n with
  | zero => rw [draw, next_nil h]
  | succ n ih => rw [draw, next_nil h, ih]

theorem pending_of_next_none (h : d.next.1 = none) : d.next.2.pending = [] := by
  unfold next at h ⊢
  cases hs : d.step with
  | found b pending => rw [hs] at h; cases h
  | exhausted => rfl
  | cut => rfl

theorem draw_none (d : Cursor) {n m : Nat} (hnm : n ≤ m) (h : d.draw n = none) : d.draw m = none := by
  induction n generalizing d m with
  | zero =>
    cases m with
    | zero => exact h
    | succ m => exact draw_nil (pending_of_next_none h) m
  | succ n ih =>
    obtain ⟨m, rfl⟩ := Nat.exists_eq_add_of_le' (Nat.le_of_add_left_le hnm)
    exact ih d.next.2 (by omega) h

/-- A call of `next` gives the first of the answers that the frames stand for, and leaves frames that stand
for the others. -/
theorem next_gives {xs : List Bindings} (h : Pending (Search.solveScope d.depth) d.store d.pending xs) :
    d.next.1 = xs.head? ∧
      ∃ pending, d.next.2 = { d with pending := pending } ∧
        Pending (Search.solveScope d.depth) d.store pending xs.tail := by
  have hstep := firstIn_gives h
  rw [next, step]
  cases hs : firstIn (Search.solveScope d.depth) d.store d.pending with
  | found b pending =>
    rw [hs] at hstep
    obtain ⟨ys, rfl, hp⟩ := hstep
    exact ⟨rfl, pending, rfl, hp⟩
  | exhausted =>
    rw [hs] at hstep
    rw [show xs = [] from hstep]
    exact ⟨rfl, [], rfl, fun _ hf => absurd hf List.not_mem_nil, rfl⟩
  | cut => rw [hs] at hstep; exact hstep.elim

theorem draw_eq {xs : List Bindings} (h : Pending (Search.solveScope d.depth) d.store d.pending xs) (n : Nat) :
    d.draw n = xs[n]? := by
  induction n generalizing d xs with
  | zero => rw [draw, (next_gives h).1, List.head?_eq_getElem?]
  | succ n ih =>
    obtain ⟨-, pending, hnext, hp⟩ := next_gives h
    rw [draw, hnext, ih hp, List.getElem?_tail]

/-- What is drawn is what the search finds. -/
theorem exists_draw_iff {depth : Nat} {clauses : List Triple} {b e : Bindings}
    (h : (Search.solve depth store clauses b).complete = true) :
    (∃ n, (start depth store clauses b).draw n = some e) ↔ e ∈ (Search.solve depth store clauses b).found := by
  have pending : Pending (Search.solveScope depth) store (start depth store clauses b).pending
      (Search.solve depth store clauses b).found := by
    refine ⟨fun f hf => ?_, by rw [start, List.flatMap_singleton]; rfl⟩
    rw [List.mem_singleton.1 hf]
    exact h
  simp only [draw_eq (d := start depth store clauses b) pending, List.mem_iff_getElem?]

end Cursor

end

/-- A search that comes to its end is drawn answer by answer: the answers are those of the recursion on the
clauses, in its order and as often, and after the first call that gives none no call gives one. A cursor
takes the frame on top of its stack and gives its bindings where no clause is left; else it puts the
extensions by the first clause in the place of the frame, the first of them on top. -/
theorem Cursor.draw_start {depth : Nat} {store : Store} {clauses : List Triple} {b : Bindings}
    (h : (Search.solve depth store clauses b).complete = true) :
    (∀ n, (start depth store clauses b).draw n =
        (Search.plain (Search.solveScope depth) store clauses b)[n]?) ∧
      (∀ (d : Cursor) (n m : Nat), n ≤ m → d.draw n = none → d.draw m = none) ∧
      ∀ (d : Cursor) (e : Bindings) (frames : List Frame),
        (d.pending = ([], e) :: frames → d.next = (some e, { d with pending := frames })) ∧
          ∀ (c : Triple) (cs : List Triple), d.pending = (c :: cs, e) :: frames →
            (Search.extend (Search.solveScope d.depth) d.store c e).complete = true →
              d.next =
                { d with pending := push cs (c.tried (Search.solveScope d.depth) d.store e) frames }.next := by
  refine ⟨fun n => ?_, fun d _ _ => draw_none d, fun d e frames => ⟨next_answer, fun c cs => next_cons⟩⟩
  rw [← Search.found_solveWith clauses b h]
  refine draw_eq (d := start depth store clauses b) ⟨fun f hf => ?_, ?_⟩ n
  · rw [List.mem_singleton.1 hf]
    exact h
  · rw [start, List.flatMap_singleton]

/-- Two documents, of which each names a person, and codes of the persons. -/
def codedFacts : Graph :=
  let named (s : String) := Term.quoting [⟨.iri s, .iri "is", .iri "person"⟩]
  (((Graph.empty.insert ⟨.iri "a", .iri "doc", named "b"⟩ rfl).insert ⟨.iri "a", .iri "doc", named "d"⟩ rfl).insert
    ⟨.iri "d", .iri "code", .integer 68⟩ rfl).insert ⟨.iri "b", .iri "code", .integer 66⟩ rfl

/-- The characters for the codes of the persons that are named in documents. -/
def codedQuery : List Triple :=
  [⟨.iri "a", .iri "doc", .var "doc"⟩,
    ⟨.var "doc", .iri Vocabulary.includes, .quoting [⟨.var "x", .iri "is", .iri "person"⟩]⟩,
    ⟨.var "x", .iri "code", .var "code"⟩, ⟨.var "code", .iri Vocabulary.ord, .var "char"⟩]

theorem Cursor.draw_start_coded :
    let d := start 1 (.graph codedFacts) codedQuery ∅
    ((d.draw 0).bind fun b => b.get? (.var "char")) = some (.string "B") ∧
      ((d.draw 1).bind fun b => b.get? (.var "char")) = some (.string "D") ∧ ∀ n, d.draw (n + 2) = none := by
  intro d
  have ends : (Search.solve 1 (.graph codedFacts) codedQuery ∅).complete = true := by decide +kernel
  obtain ⟨drawn, fused, -⟩ := draw_start ends
  have third : d.draw 2 = none := by rw [drawn]; decide +kernel
  refine ⟨?_, ?_, fun n => fused d 2 (n + 2) (Nat.le_add_left ..) third⟩
  · rw [drawn]
    decide +kernel
  · rw [drawn]
    decide +kernel

end TripleChain
