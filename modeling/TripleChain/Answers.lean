import TripleChain.Bindings

/-!
# Answers

What a search gives: the bindings it found, in order, and whether it came to its end. A search
that was left before the end has still found the bindings before that point. Main statements: a
chained search is complete exactly if all its parts are, and then finds what they find.
-/

namespace TripleChain

structure Answers where
  found : List Bindings
  complete : Bool
deriving DecidableEq

namespace Answers

/-- All answers of a search that came to its end. -/
def all (found : List Bindings) : Answers := ⟨found, true⟩

/-- A search that was left before it found anything. -/
def cut : Answers := ⟨[], false⟩

/-- The answers of `next` for the bindings one after the other, up to the first search that is
left. -/
def chain (next : Bindings → Answers) : List Bindings → Bool → Answers
  | [], complete => ⟨[], complete⟩
  | b :: bs, complete =>
    let here := next b
    if here.complete then
      let rest := chain next bs complete
      ⟨here.found ++ rest.found, rest.complete⟩
    else here

/-- Continues every answer with a further search. -/
def andThen (a : Answers) (next : Bindings → Answers) : Answers := chain next a.found a.complete

theorem complete_chain {next : Bindings → Answers} {bs : List Bindings} {complete : Bool} :
    (chain next bs complete).complete = true ↔
      complete = true ∧ ∀ b ∈ bs, (next b).complete = true := by
  induction bs with
  | nil => simp [chain]
  | cons b bs ih =>
    simp only [chain]
    split
    · next h => simp [ih, h]
    · next h => simp [h]

theorem found_chain {next : Bindings → Answers} {bs : List Bindings} {complete : Bool}
    (h : ∀ b ∈ bs, (next b).complete = true) :
    (chain next bs complete).found = bs.flatMap fun b => (next b).found := by
  induction bs with
  | nil => rfl
  | cons b bs ih =>
    simp only [chain, h b (List.mem_cons_self ..), if_true, List.flatMap_cons]
    rw [ih fun c hc => h c (List.mem_cons_of_mem _ hc)]

theorem complete_andThen {a : Answers} {next : Bindings → Answers} :
    (a.andThen next).complete = true ↔
      a.complete = true ∧ ∀ b ∈ a.found, (next b).complete = true := complete_chain

theorem found_andThen {a : Answers} {next : Bindings → Answers}
    (h : (a.andThen next).complete = true) :
    (a.andThen next).found = a.found.flatMap fun b => (next b).found :=
  found_chain (complete_andThen.1 h).2

@[simp] theorem all_andThen_all {bs : List Bindings} {next : Bindings → List Bindings} :
    (all bs).andThen (fun b => all (next b)) = all (bs.flatMap next) := by
  have complete : ((all bs).andThen fun b => all (next b)).complete = true :=
    complete_andThen.2 ⟨rfl, fun _ _ => rfl⟩
  have found := found_andThen complete
  generalize (all bs).andThen (fun b => all (next b)) = a at complete found
  cases a
  cases complete
  cases found
  rfl

end Answers

end TripleChain
