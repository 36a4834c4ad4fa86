import TripleChain.Digest
import TripleChain.Fault
import TripleChain.Substitution
import TripleChain.Vocabulary

/-!
# Firing a rule

A match of the condition turns the conclusion into triples. Slots with a value are replaced; a
slot without one that stands in a position of a clause becomes a blank node minted for this
conclusion and this match, so that firing again with the same match gives the same triples.
-/

namespace TripleChain

def utf8 (s : String) : List UInt8 := s.toUTF8.toList

/-- What a minted label is the digest of: the conclusion, the slot and the bindings, with marks
between them. -/
def mintSeed (conclusion : Formula) (slot : Term) (b : Bindings) : List UInt8 :=
  utf8 conclusion.text ++ 0 :: utf8 slot.text ++
    b.entries.flatMap fun (k, v) => 0 :: utf8 k.text ++ utf8 "=" ++ utf8 v.text

/-- The blank node that stands for a slot without a value. -/
def mint (conclusion : Formula) (slot : Term) (b : Bindings) : Term :=
  .blank (Vocabulary.mintedLabel ++
    Digest.hexadecimal ((Digest.sha256 (mintSeed conclusion slot b)).take 12))

/-- What stands in a position of the conclusion after firing. -/
def Term.assign (conclusion : Formula) (b : Bindings) (a : Term) : Term :=
  if a.isSlot && !b.contains a then mint conclusion a b else a.substitute b

/-- One clause of the conclusion after firing. -/
def Triple.assign (conclusion : Formula) (c : Triple) (b : Bindings) : Triple :=
  c.map (Term.assign conclusion b)

/-- The bindings with a minted value for every slot that stands in a position of the conclusion
and has none. -/
def Formula.instantiate (conclusion : Formula) (b : Bindings) : Bindings :=
  (conclusion.flatMap Triple.terms).foldl (fun extended a =>
    if a.isSlot && !extended.contains a then extended.insert a (mint conclusion a b)
    else extended) b

/-- The triples that a match of the condition gives. A variable conclusion gives the triples of
the formula it is bound to, as they are. -/
def Rule.fire (r : Rule) (b : Bindings) : Except Fault (List Triple) :=
  match r.conclusion with
  | .formula F => .ok (F.map fun c => c.assign F b)
  | .var x =>
    match b.get? (.var x) with
    | some (.formula F) => .ok F
    | found => .error (.conclusionNotFormula r (found.getD (.var x)))
  | .literal _ | .iri _ | .blank _ => .error (.conclusionOfOtherKind r)

end TripleChain
