import TripleChain.Literal

/-!
# Terms and triples

A term is a literal, an IRI, a variable, a blank node or a quoted formula; a triple puts one term
into each of three positions. Variables and blank nodes are the *slots* of a pattern: matching
fills them with terms. A formula is a set of triples, held as an ascending list (see
`TripleChain.Formula`).
-/

namespace TripleChain

mutual

/-- A term. -/
inductive Term where
  | literal (value : Literal)
  | iri (name : String)
  | var (name : String)
  | blank (label : String)
  | formula (triples : List Triple)

/-- Three terms in subject, predicate and object position. -/
structure Triple where
  subject : Term
  predicate : Term
  object : Term

end

instance : Inhabited Term := ⟨.iri ""⟩

/-- A set of triples, as an ascending list. -/
abbrev Formula := List Triple

namespace Term

def string (s : String) : Term := .literal (.string s)

def integer (n : Int) : Term := .literal (.integer n)

def isVar : Term → Bool
  | .var _ => true
  | _ => false

def isBlank : Term → Bool
  | .blank _ => true
  | _ => false

def isFormula : Term → Bool
  | .formula _ => true
  | _ => false

/-- Variables and blank nodes can be filled by matching. -/
def isSlot : Term → Bool
  | .var _ | .blank _ => true
  | _ => false

def formula? : Term → Option Formula
  | .formula ts => some ts
  | _ => none

def literal? : Term → Option Literal
  | .literal l => some l
  | _ => none

def iri? : Term → Option String
  | .iri s => some s
  | _ => none

theorem isSlot_of_isVar {a : Term} (h : a.isVar = true) : a.isSlot = true := by
  cases a <;> simp_all [isVar, isSlot]

@[simp] theorem formula?_eq_some {a : Term} {F : Formula} : a.formula? = some F ↔ a = .formula F := by
  cases a <;> simp [formula?]

@[simp] theorem literal?_eq_some {a : Term} {l : Literal} : a.literal? = some l ↔ a = .literal l := by
  cases a <;> simp [literal?]

@[simp] theorem iri?_eq_some {a : Term} {s : String} : a.iri? = some s ↔ a = .iri s := by
  cases a <;> simp [iri?]

end Term

mutual

/-- Every occurrence of a slot in the term, quoted ones included, from left to right. -/
def Term.slots : Term → List Term
  | .var x => [.var x]
  | .blank b => [.blank b]
  | .formula ts => Triple.allSlots ts
  | .literal _ | .iri _ => []

def Triple.slots : Triple → List Term
  | ⟨s, p, o⟩ => s.slots ++ p.slots ++ o.slots

def Triple.allSlots : List Triple → List Term
  | [] => []
  | t :: ts => t.slots ++ Triple.allSlots ts

end

theorem Triple.allSlots_eq_flatMap (ts : List Triple) : allSlots ts = ts.flatMap slots := by
  induction ts with
  | nil => rfl
  | cons t ts ih => simp [allSlots, ih]

namespace Triple

/-- The three positions in order. -/
def terms (t : Triple) : List Term := [t.subject, t.predicate, t.object]

/-- The triple with `f` applied in every position. -/
def map (f : Term → Term) (t : Triple) : Triple := ⟨f t.subject, f t.predicate, f t.object⟩

/-- Whether a variable stands in one of the three positions, quoted ones aside. -/
def hasVar (t : Triple) : Bool := t.terms.any Term.isVar

end Triple

mutual

/-- Equality of terms is decided structure by structure. -/
def Term.decEq : (a b : Term) → Decidable (a = b)
  | .literal l, .literal m => decidable_of_iff (l = m) (by simp)
  | .iri s, .iri t => decidable_of_iff (s = t) (by simp)
  | .var s, .var t => decidable_of_iff (s = t) (by simp)
  | .blank s, .blank t => decidable_of_iff (s = t) (by simp)
  | .formula ts, .formula us =>
    have := Triple.decEqAll ts us
    decidable_of_iff (ts = us) (by simp)
  | .literal _, .iri _ | .literal _, .var _ | .literal _, .blank _ | .literal _, .formula _
  | .iri _, .literal _ | .iri _, .var _ | .iri _, .blank _ | .iri _, .formula _
  | .var _, .literal _ | .var _, .iri _ | .var _, .blank _ | .var _, .formula _
  | .blank _, .literal _ | .blank _, .iri _ | .blank _, .var _ | .blank _, .formula _
  | .formula _, .literal _ | .formula _, .iri _ | .formula _, .var _ | .formula _, .blank _ =>
    isFalse nofun

def Triple.decEq : (t u : Triple) → Decidable (t = u)
  | ⟨s, p, o⟩, ⟨s', p', o'⟩ =>
    have := s.decEq s'
    have := p.decEq p'
    have := o.decEq o'
    decidable_of_iff (s = s' ∧ p = p' ∧ o = o') (by simp)

def Triple.decEqAll : (ts us : List Triple) → Decidable (ts = us)
  | [], [] => isTrue rfl
  | [], _ :: _ => isFalse nofun
  | _ :: _, [] => isFalse nofun
  | t :: ts, u :: us =>
    have := t.decEq u
    have := Triple.decEqAll ts us
    decidable_of_iff (t = u ∧ ts = us) (by simp)

end

instance : DecidableEq Term := Term.decEq

instance : DecidableEq Triple := Triple.decEq

end TripleChain
