import TripleChain.Bindings
import TripleChain.Formula

/-!
# Substitution

Replacing the bound slots of a term by their values, inside quoted formulas too. Slots without a
value stay, and formulas stay sets: triples that become equal are one triple.
-/

namespace TripleChain

mutual

def Term.substitute : Term → Bindings → Term
  | .var x, b => (b.get? (.var x)).getD (.var x)
  | .blank x, b => (b.get? (.blank x)).getD (.blank x)
  | .formula ts, b => .formula (Formula.ofList (Triple.substituteAll ts b))
  | .literal l, _ => .literal l
  | .iri s, _ => .iri s

def Triple.substitute : Triple → Bindings → Triple
  | ⟨s, p, o⟩, b => ⟨s.substitute b, p.substitute b, o.substitute b⟩

def Triple.substituteAll : List Triple → Bindings → List Triple
  | [], _ => []
  | t :: ts, b => t.substitute b :: Triple.substituteAll ts b

end

theorem Triple.substituteAll_eq_map (ts : List Triple) (b : Bindings) :
    substituteAll ts b = ts.map fun t => t.substitute b := by
  induction ts with
  | nil => rfl
  | cons t ts ih => simp [substituteAll, ih]

def Formula.substitute (F : Formula) (b : Bindings) : Formula :=
  ofList (F.map fun t => t.substitute b)

theorem Term.substitute_formula (F : Formula) (b : Bindings) :
    (Term.formula F).substitute b = .formula (F.substitute b) := by
  simp [Term.substitute, Triple.substituteAll_eq_map, Formula.substitute]

end TripleChain
