import TripleChain.Proofs.Instances
import TripleChain.Proofs.Monotone

/-!
# Values are no variables

A match never takes a variable for a value: not from a stored clause, because a variable is matched by
nothing, and not from a builtin, in whatever scope it searches (`Search.varFree_solve`). So a conclusion
that is a formula gives triples without variables.
-/

namespace TripleChain

/-! ## Bindings -/

namespace Bindings

/-- No value is a variable. -/
def VarFree (b : Bindings) : Prop := ∀ k v, b.get? k = some v → v.isVar = false

variable {b s : Bindings}

theorem varFree_empty : (∅ : Bindings).VarFree := by
  intro k v h
  cases h

theorem VarFree.restrict (h : b.VarFree) (p : Term → Bool) : (b.restrict p).VarFree := by
  intro k v hv
  rw [get?_restrict] at hv
  split at hv
  · exact h k v hv
  · cases hv

theorem VarFree.extends' {new : List Term} (h : b.VarFree) (hs : b.Extends new s)
    (hnew : ∀ k ∈ new, ∃ v, s.get? k = some v ∧ v.isVar = false) : s.VarFree := by
  intro k v hv
  have hk : k ∈ s.keys := mem_keys.2 (by rw [hv]; rfl)
  rcases (hs.keys k).1 hk with hb | hk
  · rw [hs.get?_eq hb] at hv
    exact h k v hv
  · obtain ⟨w, hw, hvar⟩ := hnew k hk
    exact Option.some.inj (hw.symm.trans hv) ▸ hvar

theorem VarFree.bind {c t : Triple} (h : b.VarFree) (hs : s ∈ c.bind t b) : s.VarFree := by
  obtain ⟨hext, hm⟩ := (Triple.mem_bind c t b).1 hs
  exact h.extends' hext (Triple.exists_value_of_matches c t hm)

theorem VarFree.insert_literal (h : b.VarFree) (k : Term) (l : Literal) :
    (b.insert k (.literal l)).VarFree := by
  intro k' v hv
  rw [get?_insert] at hv
  split at hv
  · exact Option.some.inj hv ▸ rfl
  · exact h k' v hv

end Bindings

/-! ## Searches -/

theorem searchInvariant_varFree : SearchInvariant Bindings.VarFree (fun _ => True) fun _ => True where
  stored _ _ _ _ _ _ hb _ _ hm := hb.bind hm
  computed _ _ f _ hb m hm := by
    rcases f.mem_evalPlain hm with rfl | ⟨k, -, l, -, rfl⟩
    · exact hb
    · exact hb.insert_literal k l
  scope _ _ _ _ _ _ _ _ := ⟨trivial, fun _ _ => trivial⟩

/-- Whatever the store holds and the builtins compute, no value that a search adds is a variable. -/
theorem Search.varFree_solve (depth : Nat) (store : Store) (clauses : List Triple) (b : Bindings)
    (hb : b.VarFree) : ∀ s ∈ (solve depth store clauses b).found, s.VarFree :=
  searchInvariant_varFree.solve depth store clauses b trivial (fun _ _ => trivial) hb

theorem Store.varFree_answers (store : Store) (config : Config) (clauses : List Triple) :
    ∀ s ∈ (store.answers config clauses).found, s.VarFree :=
  Search.varFree_solve _ _ _ _ Bindings.varFree_empty

/-! ## Firing -/

section
variable {G : Formula} {b : Bindings}

theorem Term.isVar_assign (h : b.VarFree) (a : Term) : (a.assign G b).isVar = false := by
  unfold Term.assign
  split
  · rfl
  · next hfree =>
    cases a with
    | literal l | iri i | formula ts => rfl
    | var x =>
      rw [Bool.and_eq_true, not_and, Bool.not_eq_true, Bool.not_eq_false'] at hfree
      obtain ⟨v, hv⟩ := Option.isSome_iff_exists.1 (hfree rfl)
      rw [Term.substitute, hv, Option.getD_some]
      exact h _ v hv
    | blank x =>
      rw [Term.substitute]
      cases hv : b.get? (.blank x) with
      | none => rfl
      | some v => exact h _ v hv

theorem Triple.hasVar_assign (h : b.VarFree) (c : Triple) : (c.assign G b).hasVar = false := by
  simp only [Triple.hasVar, Triple.terms, Triple.assign, Triple.map, List.any_cons, List.any_nil,
    Term.isVar_assign h, Bool.or_self]

theorem Rule.Fires.hasVar {r : Rule} (hG : r.conclusion = .formula G) (h : b.VarFree) {t : Triple}
    (ht : r.Fires b t) : t.hasVar = false := by
  obtain ⟨c, -, rfl⟩ := (Rule.fires_iff hG).1 ht
  exact Triple.hasVar_assign h c

theorem Rule.hasVar_of_derive {r : Rule} (hG : r.conclusion = .formula G) {config : Config} {store : Store}
    {D : OrderedSet Triple} (hD : r.derive config store = .ok D) : ∀ t ∈ D, t.hasVar = false := by
  obtain ⟨F, -, hD⟩ := bind_eq_ok.1 hD
  intro t ht
  obtain ⟨s, hs, hfires⟩ := (mem_fireAnswers hD).1 ht
  exact hfires.hasVar hG (store.varFree_answers config F s hs)

end

end TripleChain
