import TripleChain.Bindings

/-!
# Masks

A mask fixes some positions of a triple and leaves the others open. The mask of a clause under
bindings fixes what the clause cannot match otherwise; quoted formulas stay open, because a
formula in a clause can match formulas different from it.
-/

namespace TripleChain

/-- The three positions of a triple. -/
inductive Position where
  | subject
  | predicate
  | object
deriving DecidableEq, Repr

def Position.all : List Position := [.subject, .predicate, .object]

/-- The term in a position. -/
def Triple.get (t : Triple) : Position → Term
  | .subject => t.subject
  | .predicate => t.predicate
  | .object => t.object

/-- What is asked of each position, if anything. -/
structure Mask where
  subject : Option Term
  predicate : Option Term
  object : Option Term
deriving DecidableEq

namespace Mask

/-- The mask that asks nothing. -/
def any : Mask := ⟨none, none, none⟩

/-- The mask of one triple. -/
def exactly (t : Triple) : Mask := ⟨some t.subject, some t.predicate, some t.object⟩

def get? (m : Mask) : Position → Option Term
  | .subject => m.subject
  | .predicate => m.predicate
  | .object => m.object

/-- Whether the triple has what the mask asks in every position. -/
def admits (m : Mask) (t : Triple) : Bool :=
  Position.all.all fun p => (m.get? p).all (· == t.get p)

theorem admits_iff {m : Mask} {t : Triple} :
    m.admits t = true ↔ ∀ p v, m.get? p = some v → v = t.get p := by
  simp only [admits, Position.all, List.all_cons, List.all_nil, Bool.and_true, Bool.and_eq_true,
    Option.all_eq_true, beq_iff_eq]
  refine ⟨fun ⟨h₁, h₂, h₃⟩ p v => ?_, fun h => ⟨h .subject, h .predicate, h .object⟩⟩
  cases p with
  | subject => exact h₁ v
  | predicate => exact h₂ v
  | object => exact h₃ v

@[simp] theorem admits_any (t : Triple) : any.admits t = true := rfl

theorem admits_exactly {t u : Triple} : (exactly t).admits u = true ↔ u = t := by
  rw [admits_iff]
  refine ⟨fun h => ?_, fun h p v hv => ?_⟩
  · obtain ⟨s, p, o⟩ := t
    obtain ⟨s', p', o'⟩ := u
    obtain rfl : s = s' := h .subject s rfl
    obtain rfl : p = p' := h .predicate p rfl
    obtain rfl : o = o' := h .object o rfl
    rfl
  · subst h
    cases p <;> exact (Option.some.inj hv).symm

end Mask

/-- What a term asks of its position under the bindings. -/
def Term.fixed (a : Term) (b : Bindings) : Option Term :=
  match a with
  | .var _ | .blank _ => (b.get? a).filter fun v => !v.isFormula
  | .formula _ => none
  | .literal _ | .iri _ => some a

/-- The mask of a clause under the bindings. -/
def Triple.mask (c : Triple) (b : Bindings) : Mask :=
  ⟨c.subject.fixed b, c.predicate.fixed b, c.object.fixed b⟩

end TripleChain
