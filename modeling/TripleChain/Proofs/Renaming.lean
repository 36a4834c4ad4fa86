import Mathlib.Data.Set.Function
import TripleChain.Proofs.Matching
import TripleChain.Formula

/-!
# Renaming slots

New names for the variables and the blank nodes of a term, inside quoted formulas too. A formula stays a
set, so its triples change their places with the names. A renaming that keeps slots apart can be undone,
and then it keeps triples apart as well (`rename_rename`, `Formula.rename_perm`).
-/

namespace TripleChain

/-- New names for variables and for blank nodes. -/
structure Renaming where
  var : String → String
  blank : String → String

mutual

def Term.rename (ρ : Renaming) : Term → Term
  | .var x => .var (ρ.var x)
  | .blank x => .blank (ρ.blank x)
  | .formula ts => .formula (Formula.ofList (Triple.renameAll ρ ts))
  | .literal l => .literal l
  | .iri s => .iri s

def Triple.rename (ρ : Renaming) : Triple → Triple
  | ⟨s, p, o⟩ => ⟨s.rename ρ, p.rename ρ, o.rename ρ⟩

def Triple.renameAll (ρ : Renaming) : List Triple → List Triple
  | [] => []
  | t :: ts => t.rename ρ :: Triple.renameAll ρ ts

end

theorem Triple.renameAll_eq_map (ρ : Renaming) (ts : List Triple) : renameAll ρ ts = ts.map (rename ρ) := by
  induction ts with
  | nil => rfl
  | cons t ts ih => rw [renameAll, ih, List.map_cons]

theorem Term.rename_formula (ρ : Renaming) (ts : List Triple) :
    (Term.formula ts).rename ρ = .formula (Formula.ofList (ts.map (Triple.rename ρ))) := by
  rw [rename, Triple.renameAll_eq_map]

namespace Renaming

/-- Of the given slots no two get the same name. -/
def KeepsApart (ρ : Renaming) (slots : List Term) : Prop :=
  ∀ j ∈ slots, ∀ k ∈ slots, j.rename ρ = k.rename ρ → j = k

/-- The given slots get their old names back from `σ`. -/
def UndoneBy (ρ σ : Renaming) (slots : List Term) : Prop := ∀ k ∈ slots, (k.rename ρ).rename σ = k

variable {ρ σ : Renaming} {slots slots' : List Term}

theorem KeepsApart.subset (h : ρ.KeepsApart slots) (sub : ∀ k ∈ slots', k ∈ slots) : ρ.KeepsApart slots' :=
  fun j hj k hk => h j (sub j hj) k (sub k hk)

theorem UndoneBy.subset (h : ρ.UndoneBy σ slots) (sub : ∀ k ∈ slots', k ∈ slots) : ρ.UndoneBy σ slots' :=
  fun k hk => h k (sub k hk)

theorem KeepsApart.exists_undoneBy (h : ρ.KeepsApart slots) (hslots : ∀ k ∈ slots, k.isSlot = true) :
    ∃ σ, ρ.UndoneBy σ slots := by
  refine ⟨⟨Function.invFunOn ρ.var {x | .var x ∈ slots}, Function.invFunOn ρ.blank {x | .blank x ∈ slots}⟩,
    fun k hk => ?_⟩
  have vars : Set.InjOn ρ.var {x | .var x ∈ slots} := fun x hx y hy e =>
    Term.var.inj (h _ hx _ hy (by rw [Term.rename, Term.rename, e]))
  have blanks : Set.InjOn ρ.blank {x | .blank x ∈ slots} := fun x hx y hy e =>
    Term.blank.inj (h _ hx _ hy (by rw [Term.rename, Term.rename, e]))
  cases k with
  | var x =>
    rw [Term.rename, Term.rename]
    exact congrArg Term.var (vars.leftInvOn_invFunOn hk)
  | blank x =>
    rw [Term.rename, Term.rename]
    exact congrArg Term.blank (blanks.leftInvOn_invFunOn hk)
  | _ => cases hslots _ hk

end Renaming

open Renaming

section
variable {ρ σ : Renaming}

/-! ## Slots -/

mutual

theorem Term.isSlot_of_mem_slots : (a : Term) → ∀ k ∈ a.slots, k.isSlot = true
  | .var _, _, h | .blank _, _, h => List.mem_singleton.1 h ▸ rfl
  | .literal _, _, h | .iri _, _, h => absurd h List.not_mem_nil
  | .formula ts, k, h => Triple.isSlot_of_mem_allSlots ts k h

theorem Triple.isSlot_of_mem_slots : (t : Triple) → ∀ k ∈ t.slots, k.isSlot = true
  | ⟨s, p, o⟩, k, h => by
    rw [Triple.slots, List.mem_append, List.mem_append] at h
    rcases h with (h | h) | h
    · exact Term.isSlot_of_mem_slots s k h
    · exact Term.isSlot_of_mem_slots p k h
    · exact Term.isSlot_of_mem_slots o k h

theorem Triple.isSlot_of_mem_allSlots : (ts : List Triple) → ∀ k ∈ Triple.allSlots ts, k.isSlot = true
  | [], _, h => absurd h List.not_mem_nil
  | t :: ts, k, h => (List.mem_append.1 h).elim (Triple.isSlot_of_mem_slots t k)
    (Triple.isSlot_of_mem_allSlots ts k)

end

theorem Triple.mem_allSlots_congr {ts us : List Triple} (h : ∀ t, t ∈ ts ↔ t ∈ us) {k : Term} :
    k ∈ allSlots ts ↔ k ∈ allSlots us := by
  simp only [mem_allSlots, h]

mutual

theorem Term.mem_slots_rename {j : Term} : (a : Term) →
    (j ∈ (a.rename ρ).slots ↔ ∃ k ∈ a.slots, k.rename ρ = j)
  | .var x | .blank x => by simp [Term.rename, Term.slots, eq_comm]
  | .literal _ | .iri _ => by simp [Term.rename, Term.slots]
  | .formula ts => by
    rw [Term.rename, Term.slots, Term.slots, Triple.mem_allSlots_congr fun _ => Formula.mem_ofList]
    exact Triple.mem_allSlots_renameAll ts

theorem Triple.mem_slots_rename {j : Term} : (t : Triple) →
    (j ∈ (t.rename ρ).slots ↔ ∃ k ∈ t.slots, k.rename ρ = j)
  | ⟨s, p, o⟩ => by
    simp only [Triple.rename, Triple.slots, List.mem_append, Term.mem_slots_rename s,
      Term.mem_slots_rename p, Term.mem_slots_rename o, or_and_right, exists_or]

theorem Triple.mem_allSlots_renameAll {j : Term} : (ts : List Triple) →
    (j ∈ Triple.allSlots (Triple.renameAll ρ ts) ↔ ∃ k ∈ Triple.allSlots ts, k.rename ρ = j)
  | [] => by simp [Triple.renameAll, Triple.allSlots]
  | t :: ts => by
    simp only [Triple.renameAll, Triple.allSlots, List.mem_append, Triple.mem_slots_rename t,
      Triple.mem_allSlots_renameAll ts, or_and_right, exists_or]

end

/-! ## Undoing a renaming -/

mutual

theorem Term.rename_rename : (a : Term) → a.Canonical → ρ.UndoneBy σ a.slots → (a.rename ρ).rename σ = a
  | .var _, _, h | .blank _, _, h => h _ (List.mem_singleton_self _)
  | .literal _, _, _ | .iri _, _, _ => by rw [Term.rename, Term.rename]
  | .formula ts, ⟨ascending, canonical⟩, h => by
    have back := Triple.renameAll_renameAll ts canonical h
    rw [Triple.renameAll_eq_map, Triple.renameAll_eq_map] at back
    have same : Formula.ofList ((Formula.ofList (ts.map (Triple.rename ρ))).map (Triple.rename σ)) =
        Formula.ofList ts := by
      refine Formula.ofList_eq_iff.2 fun u => ?_
      conv_rhs => rw [← back]
      simp only [List.mem_map, Formula.mem_ofList]
    rw [Term.rename_formula, Term.rename_formula, same, ascending.ofList_eq]

theorem Triple.rename_rename : (t : Triple) → t.Canonical → ρ.UndoneBy σ t.slots → (t.rename ρ).rename σ = t
  | ⟨s, p, o⟩, ⟨hs, hp, ho⟩, h => by
    rw [Triple.rename, Triple.rename]
    rw [Term.rename_rename s hs (h.subset fun k hk => by simp [Triple.slots, hk]),
      Term.rename_rename p hp (h.subset fun k hk => by simp [Triple.slots, hk]),
      Term.rename_rename o ho (h.subset fun k hk => by simp [Triple.slots, hk])]

theorem Triple.renameAll_renameAll : (ts : List Triple) → Triple.AllCanonical ts →
    ρ.UndoneBy σ (Triple.allSlots ts) → Triple.renameAll σ (Triple.renameAll ρ ts) = ts
  | [], _, _ => rfl
  | t :: ts, ⟨ht, hts⟩, h => by
    rw [Triple.renameAll, Triple.renameAll]
    rw [Triple.rename_rename t ht (h.subset fun k hk => by simp [Triple.allSlots, hk]),
      Triple.renameAll_renameAll ts hts (h.subset fun k hk => by simp [Triple.allSlots, hk])]

end

theorem Triple.rename_injOn {ts : List Triple} (canonical : ∀ t ∈ ts, t.Canonical)
    (apart : ρ.KeepsApart (allSlots ts)) : ∀ t ∈ ts, ∀ u ∈ ts, t.rename ρ = u.rename ρ → t = u := by
  obtain ⟨σ, hσ⟩ := apart.exists_undoneBy (isSlot_of_mem_allSlots ts)
  have back : ∀ t ∈ ts, (t.rename ρ).rename σ = t := fun t ht =>
    rename_rename t (canonical t ht) (hσ.subset fun k hk => mem_allSlots.2 ⟨t, ht, hk⟩)
  intro t ht u hu e
  rw [← back t ht, e, back u hu]

theorem Formula.ofList_perm {ts : List Triple} (h : ts.Nodup) : (ofList ts).Perm ts :=
  (List.perm_ext_iff_of_nodup (ascending_ofList ts).nodup h).2 fun _ => mem_ofList

/-- The triples of a renamed formula are those of the formula, renamed. -/
theorem Formula.rename_perm {F : Formula} (canonical : (Term.formula F).Canonical)
    (apart : ρ.KeepsApart (Term.formula F).slots) :
    (ofList (F.map (Triple.rename ρ))).Perm (F.map (Triple.rename ρ)) := by
  obtain ⟨ascending, canonical⟩ := canonical
  refine ofList_perm (ascending.nodup.map_on fun t ht u hu => ?_)
  exact Triple.rename_injOn (Triple.allCanonical_iff.1 canonical) apart t ht u hu

mutual

theorem Term.canonical_rename : (a : Term) → (a.rename ρ).Canonical
  | .var _ | .blank _ | .literal _ | .iri _ => by rw [Term.rename]; trivial
  | .formula ts => by
    rw [Term.rename]
    exact Term.canonical_quoting (Triple.allCanonical_iff.1 (Triple.allCanonical_renameAll ts))

theorem Triple.canonical_rename : (t : Triple) → (t.rename ρ).Canonical
  | ⟨s, p, o⟩ => ⟨Term.canonical_rename s, Term.canonical_rename p, Term.canonical_rename o⟩

theorem Triple.allCanonical_renameAll : (ts : List Triple) → Triple.AllCanonical (Triple.renameAll ρ ts)
  | [] => trivial
  | t :: ts => ⟨Triple.canonical_rename t, Triple.allCanonical_renameAll ts⟩

end

/-- A renaming that keeps slots apart is undone by one that keeps the new names apart. -/
theorem Term.exists_rename_rename {a : Term} (canonical : a.Canonical) (apart : ρ.KeepsApart a.slots) :
    ∃ σ, (a.rename ρ).rename σ = a ∧ Renaming.KeepsApart σ (a.rename ρ).slots := by
  obtain ⟨σ, hσ⟩ := apart.exists_undoneBy a.isSlot_of_mem_slots
  refine ⟨σ, rename_rename a canonical hσ, fun i hi j hj e => ?_⟩
  obtain ⟨k, hk, rfl⟩ := (mem_slots_rename a).1 hi
  obtain ⟨l, hl, rfl⟩ := (mem_slots_rename a).1 hj
  rw [hσ k hk, hσ l hl] at e
  rw [e]

/-! ## What names do not bear on -/

@[simp] theorem Term.isSlot_rename (a : Term) : (a.rename ρ).isSlot = a.isSlot := by
  cases a <;> rw [rename] <;> rfl

@[simp] theorem Term.isFormula_rename (a : Term) : (a.rename ρ).isFormula = a.isFormula := by
  cases a <;> rw [rename] <;> rfl

@[simp] theorem Term.iri?_rename (a : Term) : (a.rename ρ).iri? = a.iri? := by
  cases a <;> rw [rename] <;> rfl

@[simp] theorem Triple.subject_rename (t : Triple) : (t.rename ρ).subject = t.subject.rename ρ := by
  cases t; rw [rename]

@[simp] theorem Triple.predicate_rename (t : Triple) : (t.rename ρ).predicate = t.predicate.rename ρ := by
  cases t; rw [rename]

@[simp] theorem Triple.object_rename (t : Triple) : (t.rename ρ).object = t.object.rename ρ := by
  cases t; rw [rename]

theorem Term.rename_eq_iri {a : Term} {s : String} : a.rename ρ = .iri s ↔ a = .iri s := by
  rw [← iri?_eq_some, iri?_rename, iri?_eq_some]

end

end TripleChain
