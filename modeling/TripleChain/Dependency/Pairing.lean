import TripleChain.Bindings
import TripleChain.Formula
import TripleChain.OrderedSet

/-!
# Pairings

Could the triples of a conclusion match the clauses of a condition? A pairing gives each triple
of the conclusion a clause of its own that it could match, and the blank nodes of the two sides
correspond one to one. Main statement: looking for a residual with a property is asking whether
the list of all residuals has one.
-/

namespace TripleChain

/-- Which clause blank node a blank node of the conclusion corresponds to; no two correspond to
the same one. -/
abbrev Correspondence := Bindings

/-- Lets two blank nodes correspond, if they do already or are both free. -/
def Correspondence.pair (m : Correspondence) (a c : Term) : Bool × Correspondence :=
  match m.get? a with
  | some c' => (c' = c, m)
  | none => if m.entries.any fun e => e.2 = c then (false, m) else (true, m.insert a c)

/-- Whether a triple of the conclusion can match a clause, and the correspondence after asking. -/
abbrev Feeder := Triple → Correspondence → Bool × Correspondence

namespace Pairing

/-- Every way to take one element out of a list. -/
def picks {α : Type} : List α → List (α × List α)
  | [] => []
  | a :: as => (a, as) :: (picks as).map fun (x, xs) => (x, a :: xs)

/-- The clauses left over where a pairing ends: all that remain once every triple is used, and
none if every clause is met and no blank nodes correspond. -/
def endings (triples : List Feeder) (clauses : List Triple) (m : Correspondence) : List Formula :=
  (if triples.isEmpty then [Formula.ofList clauses] else []) ++
    if clauses.isEmpty && m.entries.isEmpty then [[]] else []

/-- The clauses left over by the pairings that extend a correspondence, for `count` triples. -/
def residualsOf : (count : Nat) → List Feeder → List Triple → Correspondence → List Formula
  | 0, triples, clauses, m => endings triples clauses m
  | count + 1, triples, clauses, m =>
    endings triples clauses m ++
      (picks triples).flatMap fun (feeds, triples) =>
        (picks clauses).flatMap fun (c, clauses) =>
          match feeds c m with
          | (true, m) => residualsOf count triples clauses m
          | (false, _) => []

/-- Whether some residual satisfies `p`; the search ends with the first one. -/
def anyResidualOf (p : Formula → Bool) :
    (count : Nat) → List Feeder → List Triple → Correspondence → Bool
  | 0, triples, clauses, m => (endings triples clauses m).any p
  | count + 1, triples, clauses, m =>
    (endings triples clauses m).any p ||
      (picks triples).any fun (feeds, triples) =>
        (picks clauses).any fun (c, clauses) =>
          match feeds c m with
          | (true, m) => anyResidualOf p count triples clauses m
          | (false, _) => false

def residuals (triples : List Feeder) (clauses : List Triple) : List Formula :=
  residualsOf triples.length triples clauses ∅

def anyResidual (p : Formula → Bool) (triples : List Feeder) (clauses : List Triple) : Bool :=
  anyResidualOf p triples.length triples clauses ∅

theorem anyResidualOf_eq (p : Formula → Bool) (count : Nat) (triples : List Feeder)
    (clauses : List Triple) (m : Correspondence) :
    anyResidualOf p count triples clauses m = (residualsOf count triples clauses m).any p := by
  induction count generalizing triples clauses m with
  | zero => rfl
  | succ count ih =>
    simp only [anyResidualOf, residualsOf, List.any_append, List.any_flatMap]
    congr 2
    funext x
    congr 1
    funext y
    obtain ⟨feeds, triples⟩ := x
    obtain ⟨c, clauses⟩ := y
    dsimp only
    split
    · exact ih ..
    · rfl

theorem anyResidual_eq (p : Formula → Bool) (triples : List Feeder) (clauses : List Triple) :
    anyResidual p triples clauses = (residuals triples clauses).any p := anyResidualOf_eq ..

end Pairing

mutual

/-- Whether a term of a conclusion can match a term of a condition: slots match everything, and
blank nodes one another as they correspond; a quoted formula matches one whose clauses it can all
meet. -/
def Term.feeds : Term → Term → Correspondence → Bool × Correspondence
  | .blank a, .blank c, m => m.pair (.blank a) (.blank c)
  | .blank _, _, m | .var _, _, m => (true, m)
  | .literal l, c, m => (c.isSlot || c = .literal l, m)
  | .iri s, c, m => (c.isSlot || c = .iri s, m)
  | .formula ts, .formula cs, m =>
    (Pairing.anyResidual (fun F => F.isEmpty) (Triple.feeders ts) cs, m)
  | .formula _, c, m => (c.isSlot, m)

/-- Position by position, up to the first one that does not match. -/
def Triple.feeds : Triple → Triple → Correspondence → Bool × Correspondence
  | ⟨s, p, o⟩, c, m =>
    match s.feeds c.subject m with
    | (false, m) => (false, m)
    | (true, m) =>
      match p.feeds c.predicate m with
      | (false, m) => (false, m)
      | (true, m) => o.feeds c.object m

def Triple.feeders : List Triple → List Feeder
  | [] => []
  | t :: ts => t.feeds :: Triple.feeders ts

end

/-- The sets of clauses left over by the pairings of the triples with the clauses, in the order
in which they are found. -/
def residualClauses (clauses triples : List Triple) : OrderedSet Formula :=
  .ofList (Pairing.residuals (Triple.feeders triples) clauses)

end TripleChain
