import TripleChain.Store

/-!
# Matching

Matching a pattern against a term without variables of its own fills the slots of the pattern.
A literal or an IRI matches itself; a slot takes any term but a variable, unless it is bound to
another one; a formula matches a formula if each of its clauses matches some triple there. The
last case can succeed in several ways, so matching returns a list of bindings.
-/

namespace TripleChain

/-- Binds a slot to a term: at most one way. -/
def Bindings.unify (b : Bindings) (slot a : Term) : List Bindings :=
  match b.get? slot with
  | some v => if v = a then [b] else []
  | none => [b.insert slot a]

mutual

/-- The extensions of the bindings under which the pattern, the first term, matches the second
one. A variable is matched by nothing. -/
def Term.bind : Term → Term → Bindings → List Bindings
  | _, .var _, _ => []
  | .literal l, a, b => if a = .literal l then [b] else []
  | .iri s, a, b => if a = .iri s then [b] else []
  | .var x, a, b => b.unify (.var x) a
  | .blank x, a, b => b.unify (.blank x) a
  | .formula ps, .formula ts, b => Triple.bindAll ps ts b
  | .formula _, _, _ => []

/-- Matches position by position. -/
def Triple.bind : Triple → Triple → Bindings → List Bindings
  | ⟨s, p, o⟩, t, b =>
    (s.bind t.subject b).flatMap fun b =>
      (p.bind t.predicate b).flatMap fun b => o.bind t.object b

/-- Matches each of the clauses against some of the triples. -/
def Triple.bindAll : List Triple → List Triple → Bindings → List Bindings
  | [], _, b => [b]
  | c :: cs, ts, b => (ts.flatMap fun t => c.bind t b).flatMap fun b => Triple.bindAll cs ts b

end

end TripleChain
