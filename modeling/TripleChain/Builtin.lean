import TripleChain.Answers
import TripleChain.Matching

/-!
# Builtins

Predicates that are computed instead of looked up: comparisons of numbers and of texts, the code
of a character, and inclusion of a formula in a scope. A builtin takes the bindings so far and
returns their extensions; an operand without a value, or with one of the wrong kind, gives none.
-/

namespace TripleChain

inductive Builtin where
  | greaterThan
  | lessThan
  | notLessThan
  | notGreaterThan
  | stringNotLessThan
  | stringNotGreaterThan
  | ord
  | includes
  | notIncludes
deriving DecidableEq, Repr

/-- Which operands a builtin needs before it can run. -/
inductive Builtin.Inputs where
  /-- Subject and object. -/
  | both
  /-- Subject or object. -/
  | either
  /-- The subject; the slots of the object are filled. -/
  | scope
  /-- The subject, and the slots that the object shares with other clauses. -/
  | negatedScope
deriving DecidableEq, Repr

namespace Builtin

def all : List Builtin :=
  [greaterThan, lessThan, notLessThan, notGreaterThan, stringNotLessThan, stringNotGreaterThan,
    ord, includes, notIncludes]

def iri : Builtin → String
  | greaterThan => Vocabulary.greaterThan
  | lessThan => Vocabulary.lessThan
  | notLessThan => Vocabulary.notLessThan
  | notGreaterThan => Vocabulary.notGreaterThan
  | stringNotLessThan => Vocabulary.stringNotLessThan
  | stringNotGreaterThan => Vocabulary.stringNotGreaterThan
  | ord => Vocabulary.ord
  | includes => Vocabulary.includes
  | notIncludes => Vocabulary.notIncludes

def inputs : Builtin → Inputs
  | ord => .either
  | includes => .scope
  | notIncludes => .negatedScope
  | _ => .both

def Inputs.text : Inputs → String
  | .both => "Both"
  | .either => "Either"
  | .scope => "Scope"
  | .negatedScope => "NegatedScope"

/-- The builtin by its structure. -/
def structureText (f : Builtin) : String :=
  "Builtin \x7b iri: " ++ Text.quote f.iri ++ ", inputs: " ++ f.inputs.text ++ ", .. \x7d"

def ofIri? (s : String) : Option Builtin := all.find? fun f => f.iri = s

end Builtin

/-- The builtin that a predicate names. -/
def Term.builtin? (a : Term) : Option Builtin := a.iri?.bind Builtin.ofIri?

def Term.isBuiltin (a : Term) : Bool := a.builtin?.isSome

/-- Whether the clause is computed instead of looked up. -/
def Triple.isComputed (c : Triple) : Bool := c.predicate.isBuiltin

namespace Builtin

def literal? (a : Term) (b : Bindings) : Option Literal := (a.resolve b).bind Term.literal?

/-- The bindings as they are if the condition holds. -/
def keep (holds : Bool) (b : Bindings) : List Bindings := if holds then [b] else []

/-- Whether both operands are numbers in the given relation. -/
def numbers (rel : Float → Float → Bool) (s o : Term) (b : Bindings) : Bool :=
  match (literal? s b).bind Literal.number?, (literal? o b).bind Literal.number? with
  | some x, some y => rel x y
  | _, _ => false

/-- Whether the lexical forms of both operands are in the given relation. -/
def texts (rel : String → String → Bool) (s o : Term) (b : Bindings) : Bool :=
  match literal? s b, literal? o b with
  | some x, some y => rel x.lexical y.lexical
  | _, _ => false

/-- Gives a value to a slot. -/
def assign (slot a : Term) (b : Bindings) : List Bindings :=
  if slot.isSlot then [b.insert slot a] else []

/-- The character with a code, if there is one. -/
def ofCode? (n : Nat) : Option Char := if n.isValidChar then some (Char.ofNat n) else none

/-- The subject is the code of the character that the object is. Of the two operands one may be
left open. -/
def evalOrd (s o : Term) (b : Bindings) : List Bindings :=
  match o.resolve b with
  | some object =>
    match object.literal?.bind Literal.character? with
    | none => []
    | some c =>
      match s.resolve b with
      | some subject => keep (subject.literal?.bind Literal.code? = some c.toNat) b
      | none => assign s (.integer c.toNat) b
  | none =>
    match ((s.resolve b).bind Term.literal?).bind Literal.code? |>.bind ofCode? with
    | none => []
    | some c => assign o (.string c.toString) b

/-- The builtins that need no search. -/
def evalPlain (f : Builtin) (s o : Term) (b : Bindings) : List Bindings :=
  match f with
  | greaterThan => keep (numbers (fun x y => x > y) s o b) b
  | lessThan => keep (numbers (fun x y => x < y) s o b) b
  | notLessThan => keep (numbers (fun x y => x ≥ y) s o b) b
  | notGreaterThan => keep (numbers (fun x y => x ≤ y) s o b) b
  | stringNotLessThan => keep (texts (fun x y => !decide (x < y)) s o b) b
  | stringNotGreaterThan => keep (texts (fun x y => !decide (y < x)) s o b) b
  | ord => evalOrd s o b
  | includes | notIncludes => []

end Builtin

end TripleChain
