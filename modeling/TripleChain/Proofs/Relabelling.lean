import Mathlib.Data.String.Basic
import TripleChain.Proofs.Legibility
import TripleChain.Proofs.Renaming

/-!
# Labels that are changed in place

Other labels for the blank nodes of a term, where the triples of its formulas stay where they are. So the text of a
term under names for its blank nodes is the text of the term with these names as its labels
(`Term.text_relabel`). Where the new labels leave the triples of each formula in order, that is renaming the term
(`Term.rename_eq_relabel`).
-/

namespace TripleChain

mutual

def Term.relabel (f : String → String) : Term → Term
  | .literal l => .literal l
  | .iri s => .iri s
  | .var x => .var x
  | .blank x => .blank (f x)
  | .formula ts => .formula (Triple.relabelAll f ts)

def Triple.relabel (f : String → String) : Triple → Triple
  | ⟨s, p, o⟩ => ⟨s.relabel f, p.relabel f, o.relabel f⟩

def Triple.relabelAll (f : String → String) : List Triple → List Triple
  | [] => []
  | t :: ts => t.relabel f :: Triple.relabelAll f ts

end

/-- The renaming that gives blank nodes other labels and leaves variables alone. -/
def Renaming.ofLabels (f : String → String) : Renaming := ⟨id, f⟩

section
variable {f g : String → String}

@[simp] theorem Term.isBlank_relabel (a : Term) : (a.relabel f).isBlank = a.isBlank := by
  cases a <;> rw [relabel] <;> rfl

/-! ## Texts and slots -/

mutual

theorem Term.text_relabel : (a : Term) → (a.relabel f).text = a.textWith f
  | .literal _ | .iri _ | .var _ | .blank _ | .formula [] => rfl
  | .formula (t :: ts) => by
    have first := Triple.text_relabel t
    have others := Triple.followingText_relabelAll ts
    simp only [Term.relabel, Triple.relabelAll, Term.text, Term.textWith]
    rw [← first, ← others, Triple.text]

theorem Triple.text_relabel : (t : Triple) → (t.relabel f).text = t.textWith f
  | ⟨s, p, o⟩ => by
    simp only [Triple.relabel, Triple.text, Triple.textWith]
    rw [← Term.text_relabel s, ← Term.text_relabel p, ← Term.text_relabel o]
    rfl

theorem Triple.followingText_relabelAll : (ts : List Triple) →
    Triple.followingTextWith id (Triple.relabelAll f ts) = Triple.followingTextWith f ts
  | [] => rfl
  | t :: ts => by
    have first := Triple.text_relabel t
    simp only [Triple.relabelAll, Triple.followingTextWith]
    rw [← first, ← Triple.followingText_relabelAll ts, Triple.text]

end

mutual

theorem Term.slots_relabel : (a : Term) → (a.relabel f).slots = a.slots.map (Term.relabel f)
  | .literal _ | .iri _ | .var _ | .blank _ => rfl
  | .formula ts => Triple.allSlots_relabelAll ts

theorem Triple.slots_relabel : (t : Triple) → (t.relabel f).slots = t.slots.map (Term.relabel f)
  | ⟨s, p, o⟩ => by
    simp only [Triple.relabel, Triple.slots, List.map_append, Term.slots_relabel s, Term.slots_relabel p,
      Term.slots_relabel o]

theorem Triple.allSlots_relabelAll : (ts : List Triple) →
    Triple.allSlots (Triple.relabelAll f ts) = (Triple.allSlots ts).map (Term.relabel f)
  | [] => rfl
  | t :: ts => by
    simp only [Triple.relabelAll, Triple.allSlots, List.map_append, Triple.slots_relabel t,
      Triple.allSlots_relabelAll ts]

end

/-! ## One relabelling after the other -/

mutual

theorem Term.relabel_relabel : (a : Term) → (a.relabel f).relabel g = a.relabel (g ∘ f)
  | .literal _ | .iri _ | .var _ | .blank _ => rfl
  | .formula ts => congrArg Term.formula (Triple.relabelAll_relabelAll ts)

theorem Triple.relabel_relabel : (t : Triple) → (t.relabel f).relabel g = t.relabel (g ∘ f)
  | ⟨s, p, o⟩ => by
    simp only [Triple.relabel, Term.relabel_relabel s, Term.relabel_relabel p, Term.relabel_relabel o]

theorem Triple.relabelAll_relabelAll : (ts : List Triple) →
    Triple.relabelAll g (Triple.relabelAll f ts) = Triple.relabelAll (g ∘ f) ts
  | [] => rfl
  | t :: ts => by
    simp only [Triple.relabelAll, Triple.relabel_relabel t, Triple.relabelAll_relabelAll ts]

end

mutual

/-- Only the labels of the blank nodes that occur matter. -/
theorem Term.relabel_congr : (a : Term) → (∀ x, .blank x ∈ a.slots → f x = g x) → a.relabel f = a.relabel g
  | .literal _, _ | .iri _, _ | .var _, _ => rfl
  | .blank x, h => congrArg Term.blank (h x (List.mem_singleton_self _))
  | .formula ts, h => congrArg Term.formula (Triple.relabelAll_congr ts h)

theorem Triple.relabel_congr : (t : Triple) → (∀ x, .blank x ∈ t.slots → f x = g x) → t.relabel f = t.relabel g
  | ⟨s, p, o⟩, h => by
    simp only [Triple.slots, List.mem_append] at h
    rw [Triple.relabel, Term.relabel_congr s fun x hx => h x (.inl (.inl hx)),
      Term.relabel_congr p fun x hx => h x (.inl (.inr hx)), Term.relabel_congr o fun x hx => h x (.inr hx),
      Triple.relabel]

theorem Triple.relabelAll_congr : (ts : List Triple) → (∀ x, .blank x ∈ Triple.allSlots ts → f x = g x) →
    Triple.relabelAll f ts = Triple.relabelAll g ts
  | [], _ => rfl
  | t :: ts, h => by
    simp only [Triple.allSlots, List.mem_append] at h
    rw [Triple.relabelAll, Triple.relabel_congr t fun x hx => h x (.inl hx),
      Triple.relabelAll_congr ts fun x hx => h x (.inr hx), Triple.relabelAll]

end

mutual

@[simp] theorem Term.relabel_id : (a : Term) → a.relabel id = a
  | .literal _ | .iri _ | .var _ | .blank _ => rfl
  | .formula ts => congrArg Term.formula (Triple.relabelAll_id ts)

theorem Triple.relabel_id : (t : Triple) → t.relabel id = t
  | ⟨s, p, o⟩ => by rw [Triple.relabel, Term.relabel_id s, Term.relabel_id p, Term.relabel_id o]

theorem Triple.relabelAll_id : (ts : List Triple) → Triple.relabelAll id ts = ts
  | [] => rfl
  | t :: ts => by rw [Triple.relabelAll, Triple.relabel_id t, Triple.relabelAll_id ts]

end

/-! ## Labels that leave formulas in order -/

mutual

theorem Term.rename_eq_relabel : (a : Term) → (a.relabel f).Canonical → a.rename (.ofLabels f) = a.relabel f
  | .literal _, _ | .iri _, _ => by rw [Term.rename, Term.relabel]
  | .var _, _ | .blank _, _ => by rw [Term.rename, Term.relabel]; rfl
  | .formula ts, h => by
    obtain ⟨ascending, canonical⟩ : Formula.Ascending (Triple.relabelAll f ts) ∧
      Triple.AllCanonical (Triple.relabelAll f ts) := h
    rw [Term.rename, Term.relabel, Triple.renameAll_eq_relabelAll ts canonical, ascending.ofList_eq]

theorem Triple.rename_eq_relabel : (t : Triple) → (t.relabel f).Canonical → t.rename (.ofLabels f) = t.relabel f
  | ⟨s, p, o⟩, ⟨hs, hp, ho⟩ => by
    rw [Triple.rename, Triple.relabel, Term.rename_eq_relabel s hs, Term.rename_eq_relabel p hp,
      Term.rename_eq_relabel o ho]

theorem Triple.renameAll_eq_relabelAll : (ts : List Triple) → Triple.AllCanonical (Triple.relabelAll f ts) →
    Triple.renameAll (.ofLabels f) ts = Triple.relabelAll f ts
  | [], _ => rfl
  | t :: ts, ⟨ht, hts⟩ => by
    rw [Triple.renameAll, Triple.relabelAll, Triple.rename_eq_relabel t ht, Triple.renameAll_eq_relabelAll ts hts]

end

theorem Triple.relabelAll_eq_map (f : String → String) (ts : List Triple) :
    relabelAll f ts = ts.map (relabel f) := by
  induction ts with
  | nil => rfl
  | cons t ts ih => rw [relabelAll, ih, List.map_cons]

/-- New labels that follow the order of the old ones, for the blank nodes among slots. -/
def LabelsInOrder (f : String → String) (slots : List Term) : Prop :=
  ∀ x y, .blank x ∈ slots → .blank y ∈ slots → x < y → f x < f y

theorem LabelsInOrder.compare_eq {slots : List Term} (h : LabelsInOrder f slots) {x y : String}
    (hx : .blank x ∈ slots) (hy : .blank y ∈ slots) : compare (f x) (f y) = compare x y := by
  rcases lt_trichotomy x y with lt | rfl | gt
  · rw [compare_lt_iff_lt.2 lt, compare_lt_iff_lt.2 (h x y hx hy lt)]
  · rw [compare_eq_iff_eq.2 rfl, compare_eq_iff_eq.2 rfl]
  · rw [compare_gt_iff_gt.2 gt, compare_gt_iff_gt.2 (h y x hy hx gt)]

theorem LabelsInOrder.subset {slots slots' : List Term} (h : LabelsInOrder f slots)
    (sub : ∀ k ∈ slots', k ∈ slots) : LabelsInOrder f slots' :=
  fun x y hx hy => h x y (sub _ hx) (sub _ hy)

/-- Labels keep their order where each gets the same beginning. -/
theorem LabelsInOrder.append_left (beginning : String) (slots : List Term) :
    LabelsInOrder (beginning ++ ·) slots := by
  intro x y _ _ h
  rw [String.lt_iff_toList_lt] at h ⊢
  simp only [String.toList_append]
  induction beginning.toList with
  | nil => exact h
  | cons c cs ih => exact List.cons_lt_cons_iff.2 (.inr ⟨rfl, ih⟩)

-- The labels of the one side are compared with those of the other only.
mutual

theorem Term.compare_relabel : (a b : Term) →
    (∀ x y, .blank x ∈ a.slots → .blank y ∈ b.slots → compare (f x) (f y) = compare x y) →
    (a.relabel f).compare (b.relabel f) = a.compare b
  | .blank x, .blank y, h => h x y (List.mem_singleton_self _) (List.mem_singleton_self _)
  | .formula ts, .formula us, h => Triple.compareAll_relabelAll ts us h
  | .literal _, .literal _, _ | .iri _, .iri _, _ | .var _, .var _, _
  | .literal _, .iri _, _ | .literal _, .var _, _ | .literal _, .blank _, _ | .literal _, .formula _, _
  | .iri _, .literal _, _ | .iri _, .var _, _ | .iri _, .blank _, _ | .iri _, .formula _, _
  | .var _, .literal _, _ | .var _, .iri _, _ | .var _, .blank _, _ | .var _, .formula _, _
  | .blank _, .literal _, _ | .blank _, .iri _, _ | .blank _, .var _, _ | .blank _, .formula _, _
  | .formula _, .literal _, _ | .formula _, .iri _, _ | .formula _, .var _, _ | .formula _, .blank _, _ => rfl

theorem Triple.compare_relabel : (t u : Triple) →
    (∀ x y, .blank x ∈ t.slots → .blank y ∈ u.slots → compare (f x) (f y) = compare x y) →
    (t.relabel f).compare (u.relabel f) = t.compare u
  | ⟨s, p, o⟩, ⟨s', p', o'⟩, h => by
    simp only [Triple.slots, List.mem_append] at h
    rw [Triple.relabel, Triple.relabel, Triple.compare, Triple.compare,
      Term.compare_relabel s s' fun x y hx hy => h x y (.inl (.inl hx)) (.inl (.inl hy)),
      Term.compare_relabel p p' fun x y hx hy => h x y (.inl (.inr hx)) (.inl (.inr hy)),
      Term.compare_relabel o o' fun x y hx hy => h x y (.inr hx) (.inr hy)]

theorem Triple.compareAll_relabelAll : (ts us : List Triple) →
    (∀ x y, .blank x ∈ Triple.allSlots ts → .blank y ∈ Triple.allSlots us → compare (f x) (f y) = compare x y) →
    Triple.compareAll (Triple.relabelAll f ts) (Triple.relabelAll f us) = Triple.compareAll ts us
  | [], [], _ | [], _ :: _, _ | _ :: _, [], _ => rfl
  | t :: ts, u :: us, h => by
    simp only [Triple.allSlots, List.mem_append] at h
    rw [Triple.relabelAll, Triple.relabelAll, Triple.compareAll, Triple.compareAll,
      Triple.compare_relabel t u fun x y hx hy => h x y (.inl hx) (.inl hy),
      Triple.compareAll_relabelAll ts us fun x y hx hy => h x y (.inr hx) (.inr hy)]

end

theorem LabelsInOrder.ascending_relabelAll {ts : List Triple} (h : LabelsInOrder f (Triple.allSlots ts))
    (ascending : Formula.Ascending ts) : Formula.Ascending (Triple.relabelAll f ts) := by
  rw [Formula.Ascending, Triple.relabelAll_eq_map, List.pairwise_map]
  refine ascending.imp_of_mem fun {t u} ht hu lt => ?_
  rw [Triple.compare_relabel t u fun x y hx hy => ?_]
  · exact lt
  · exact h.compare_eq (Triple.mem_allSlots.2 ⟨t, ht, hx⟩) (Triple.mem_allSlots.2 ⟨u, hu, hy⟩)

mutual

/-- Labels that stay in order leave the triples of each formula in order. -/
theorem Term.canonical_relabel : (a : Term) → LabelsInOrder f a.slots → a.Canonical → (a.relabel f).Canonical
  | .literal _, _, _ | .iri _, _, _ | .var _, _, _ | .blank _, _, _ => trivial
  | .formula ts, h, ⟨ascending, canonical⟩ =>
    ⟨LabelsInOrder.ascending_relabelAll h ascending, Triple.allCanonical_relabelAll ts h canonical⟩

theorem Triple.canonical_relabel : (t : Triple) → LabelsInOrder f t.slots → t.Canonical → (t.relabel f).Canonical
  | ⟨s, p, o⟩, h, ⟨hs, hp, ho⟩ =>
    ⟨Term.canonical_relabel s (h.subset fun k hk => by simp [Triple.slots, hk]) hs,
      Term.canonical_relabel p (h.subset fun k hk => by simp [Triple.slots, hk]) hp,
      Term.canonical_relabel o (h.subset fun k hk => by simp [Triple.slots, hk]) ho⟩

theorem Triple.allCanonical_relabelAll : (ts : List Triple) → LabelsInOrder f (Triple.allSlots ts) →
    Triple.AllCanonical ts → Triple.AllCanonical (Triple.relabelAll f ts)
  | [], _, _ => trivial
  | t :: ts, h, ⟨ht, hts⟩ =>
    ⟨Triple.canonical_relabel t (h.subset fun k hk => by simp [Triple.allSlots, hk]) ht,
      Triple.allCanonical_relabelAll ts (h.subset fun k hk => by simp [Triple.allSlots, hk]) hts⟩

end

/-! ## Legible labels -/

mutual

theorem Term.isLegible_relabel {kind : String → String} (unmarked : ∀ x, Text.isUnmarked (f x) = true) :
    (a : Term) → a.isLegible kind = true → (a.relabel f).isLegible kind = true
  | .literal _, h | .iri _, h | .var _, h => h
  | .blank x, _ => unmarked x
  | .formula ts, h => Triple.allLegible_relabelAll unmarked ts h

theorem Triple.isLegible_relabel {kind : String → String} (unmarked : ∀ x, Text.isUnmarked (f x) = true) :
    (t : Triple) → t.isLegible kind = true → (t.relabel f).isLegible kind = true
  | ⟨s, p, o⟩, h => by
    simp only [Triple.isLegible, Triple.relabel, Bool.and_eq_true] at h ⊢
    exact ⟨⟨Term.isLegible_relabel unmarked s h.1.1, Term.isLegible_relabel unmarked p h.1.2⟩,
      Term.isLegible_relabel unmarked o h.2⟩

theorem Triple.allLegible_relabelAll {kind : String → String} (unmarked : ∀ x, Text.isUnmarked (f x) = true) :
    (ts : List Triple) → Triple.allLegible kind ts = true → Triple.allLegible kind (Triple.relabelAll f ts) = true
  | [], _ => rfl
  | t :: ts, h => by
    rw [Triple.allLegible, Bool.and_eq_true] at h
    rw [Triple.relabelAll, Triple.allLegible, Triple.isLegible_relabel unmarked t h.1,
      Triple.allLegible_relabelAll unmarked ts h.2]
    rfl

end

end

end TripleChain
