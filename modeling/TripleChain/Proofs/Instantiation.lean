import TripleChain.Proofs.Instances
import TripleChain.Proofs.Renaming

/-!
# Blank nodes minted up front

The blank nodes of a conclusion can be minted for all of its slots at once and then put in, or one by one
where a clause has such a slot in a position. In a position both ways give the same; inside a quoted formula
only the first one puts a minted node. So a clause comes out alike if it quotes no slot that is minted, and
not alike if it does, unless the minted node is quoted there anyway (`assign_instantiate`).
-/

namespace TripleChain

/-- The slots without a value that stand in a position of the conclusion. -/
def Formula.minted (conclusion : Formula) (b : Bindings) : List Term :=
  (conclusion.flatMap Triple.terms).filter fun a => a.isSlot && !b.contains a

/-- The occurrences of slots inside the formulas that the clause quotes. -/
def Triple.quotedSlots (c : Triple) : List Term := (c.terms.filter Term.isFormula).flatMap Term.slots

section
variable {F : Formula} {b : Bindings} {a k : Term} {c : Triple}

theorem Bindings.lacks_iff : (a.isSlot && !b.contains a) = true ↔ a.isSlot = true ∧ b.get? a = none := by
  rw [Bool.and_eq_true, Bool.not_eq_true', Bindings.contains, Option.isSome_eq_false_iff,
    Option.isNone_iff_eq_none]

theorem Formula.mem_minted : k ∈ F.minted b ↔ (∃ c ∈ F, k ∈ c.terms) ∧ k.isSlot = true ∧ b.get? k = none := by
  rw [minted, List.mem_filter, List.mem_flatMap, Bindings.lacks_iff]

theorem Triple.mem_quotedSlots : k ∈ c.quotedSlots ↔ ∃ a ∈ c.terms, a.isFormula = true ∧ k ∈ a.slots := by
  simp only [quotedSlots, List.mem_flatMap, List.mem_filter, and_assoc]

theorem Triple.terms_assign (F : Formula) (b : Bindings) (c : Triple) :
    (c.assign F b).terms = c.terms.map fun a => a.assign F b := rfl

/-! ## Slots after a substitution -/

mutual

theorem Term.mem_slots_substitute {j : Term} : (a : Term) →
    (j ∈ (a.substitute b).slots ↔ ∃ k ∈ a.slots, j ∈ ((b.get? k).getD k).slots)
  | .var _ | .blank _ => by simp [Term.substitute, Term.slots]
  | .literal _ | .iri _ => by simp [Term.substitute, Term.slots]
  | .formula ts => by
    rw [Term.substitute, Term.slots, Term.slots, Triple.mem_allSlots_congr fun _ => Formula.mem_ofList]
    exact Triple.mem_allSlots_substituteAll ts

theorem Triple.mem_slots_substitute {j : Term} : (t : Triple) →
    (j ∈ (t.substitute b).slots ↔ ∃ k ∈ t.slots, j ∈ ((b.get? k).getD k).slots)
  | ⟨s, p, o⟩ => by
    simp only [Triple.substitute, Triple.slots, List.mem_append, Term.mem_slots_substitute s,
      Term.mem_slots_substitute p, Term.mem_slots_substitute o, or_and_right, exists_or]

theorem Triple.mem_allSlots_substituteAll {j : Term} : (ts : List Triple) →
    (j ∈ Triple.allSlots (Triple.substituteAll ts b) ↔ ∃ k ∈ Triple.allSlots ts, j ∈ ((b.get? k).getD k).slots)
  | [] => by simp [Triple.substituteAll, Triple.allSlots]
  | t :: ts => by
    simp only [Triple.substituteAll, Triple.allSlots, List.mem_append, Triple.mem_slots_substitute t,
      Triple.mem_allSlots_substituteAll ts, or_and_right, exists_or]

end

/-! ## The values of instantiated bindings -/

/-- Of the slots in a list, those without a value get one that the slot alone determines. -/
theorem Bindings.get?_foldl_insert (value : Term → Term) (as : List Term) (e : Bindings) (k : Term) :
    (as.foldl (fun e a => if a.isSlot && !e.contains a then e.insert a (value a) else e) e).get? k =
      if k ∈ as ∧ k.isSlot = true ∧ e.get? k = none then some (value k) else e.get? k := by
  induction as generalizing e with
  | nil => simp
  | cons a as ih =>
    rw [List.foldl_cons, ih]
    -- The head of the list gets its value here; another slot is left to the rest of the list.
    by_cases lacks : (a.isSlot && !e.contains a) = true
    · rw [if_pos lacks, get?_insert]
      rw [lacks_iff] at lacks
      by_cases hk : k = a
      · subst hk
        simp [lacks]
      · simp [hk]
    · rw [if_neg lacks]
      rw [lacks_iff] at lacks
      by_cases hk : k = a
      · subst hk
        simp [lacks]
      · simp [hk]

theorem Formula.get?_instantiate (F : Formula) (b : Bindings) (k : Term) :
    (F.instantiate b).get? k = if k ∈ F.minted b then some (mint F k b) else b.get? k := by
  rw [instantiate, Bindings.get?_foldl_insert (fun a => mint F a b)]
  simp only [mem_minted, List.mem_flatMap]

/-! ## Positions -/

theorem Term.assign_of_isFormula (h : a.isFormula = true) : a.assign F b = a.substitute b := by
  cases a with
  | formula => rfl
  | literal | iri | var | blank => cases h

theorem Term.isFormula_assign (h : a.isFormula = true) : (a.assign F b).isFormula = true := by
  rw [assign_of_isFormula h]
  cases a with
  | formula => rfl
  | literal | iri | var | blank => cases h

/-- What stands in a position, quoted formulas aside, is the same whenever the slots are minted. -/
theorem Term.assign_of_plain (hc : c ∈ F) (ha : a ∈ c.terms) (plain : a.isFormula = false) :
    a.assign F (F.instantiate b) = a.assign F b := by
  have value := F.get?_instantiate b a
  have substituted (s : Bindings) (slot : a.isSlot = true) : a.substitute s = (s.get? a).getD a := by
    cases a with
    | var | blank => rfl
    | literal | iri | formula => cases slot
  by_cases lacks : (a.isSlot && !b.contains a) = true
  · obtain ⟨slot, none⟩ := Bindings.lacks_iff.1 lacks
    rw [if_pos (Formula.mem_minted.2 ⟨⟨c, hc, ha⟩, slot, none⟩)] at value
    rw [assign, assign, if_pos lacks, if_neg (by simp [Bindings.contains, value]), substituted _ slot, value]
    rfl
  · have same : (F.instantiate b).get? a = b.get? a := by
      rw [value, if_neg]
      exact fun hm => lacks (Bindings.lacks_iff.2 (Formula.mem_minted.1 hm).2)
    rw [assign, assign, if_neg lacks, if_neg (by rwa [Bindings.contains, same])]
    cases a with
    | var | blank => rw [substituted _ rfl, substituted _ rfl, same]
    | literal | iri => rfl
    | formula => cases plain

/-- A quoted formula without minted slots is the same too. -/
theorem Term.substitute_instantiate (h : ∀ k ∈ F.minted b, k ∉ a.slots) :
    a.substitute (F.instantiate b) = a.substitute b := by
  refine substitute_congr a fun k hk => ?_
  rw [Formula.get?_instantiate, if_neg fun hm => h k hm hk]

/-- A minted slot of a quoted formula is replaced. -/
theorem Term.mint_mem_slots_substitute (hk : k ∈ a.slots) (hm : k ∈ F.minted b) :
    mint F k b ∈ (a.substitute (F.instantiate b)).slots := by
  refine (mem_slots_substitute a).2 ⟨k, hk, ?_⟩
  rw [Formula.get?_instantiate, if_pos hm]
  exact List.mem_singleton_self _

end

/-- Once all slots of a conclusion are minted, a clause comes out as it does when they are minted one by one,
but for the formulas that it quotes. Where these have no minted slot they come out alike too; where one has,
the minted node is put there only if it was minted first. -/
theorem assign_instantiate (F : Formula) (b : Bindings) (c : Triple) (hc : c ∈ F) :
    (∀ a ∈ c.terms, a.isFormula = false → a.assign F (F.instantiate b) = a.assign F b) ∧
      ((∀ k ∈ F.minted b, k ∉ c.quotedSlots) → c.assign F (F.instantiate b) = c.assign F b) ∧
      ∀ k ∈ F.minted b, k ∈ c.quotedSlots → mint F k b ∈ (c.assign F (F.instantiate b)).quotedSlots ∧
        (mint F k b ∉ (c.assign F b).quotedSlots → c.assign F (F.instantiate b) ≠ c.assign F b) := by
  have positions : ∀ a ∈ c.terms, a.isFormula = false → a.assign F (F.instantiate b) = a.assign F b :=
    fun a ha => Term.assign_of_plain hc ha
  refine ⟨positions, fun apart => ?_, fun k hm hk => ?_⟩
  · have same : ∀ a ∈ c.terms, a.assign F (F.instantiate b) = a.assign F b := by
      intro a ha
      cases quoted : a.isFormula with
      | false => exact positions a ha quoted
      | true =>
        rw [Term.assign_of_isFormula quoted, Term.assign_of_isFormula quoted]
        exact Term.substitute_instantiate fun k hm hk =>
          apart k hm (Triple.mem_quotedSlots.2 ⟨a, ha, quoted, hk⟩)
    simp only [Triple.terms, List.forall_mem_cons, List.not_mem_nil, false_implies, implies_true,
      and_true] at same
    rw [Triple.assign, Triple.assign, Triple.map, Triple.map, same.1, same.2.1, same.2.2]
  · have put : mint F k b ∈ (c.assign F (F.instantiate b)).quotedSlots := by
      obtain ⟨a, ha, quoted, hk⟩ := Triple.mem_quotedSlots.1 hk
      refine Triple.mem_quotedSlots.2 ⟨a.assign F (F.instantiate b), ?_, Term.isFormula_assign quoted, ?_⟩
      · rw [Triple.terms_assign]
        exact List.mem_map_of_mem ha
      · rw [Term.assign_of_isFormula quoted]
        exact Term.mint_mem_slots_substitute hk hm
    exact ⟨put, fun absent same => absent (same ▸ put)⟩

/-- One clause quotes a slot that stays quoted, the other one the slot that is minted for both. -/
theorem assign_instantiate_two_clauses :
    let claim : Triple := ⟨.blank "b", .iri "says", .formula [⟨.var "y", .iri "is", .var "z"⟩]⟩
    let keeps : Triple := ⟨.blank "b", .iri "keeps", .formula [⟨.blank "b", .iri "is", .var "y"⟩]⟩
    let F : Formula := [keeps, claim]
    let s := Bindings.ofList [(.var "y", .iri "ann")]
    F.minted s = [.blank "b", .blank "b"] ∧ claim ∈ F ∧ keeps ∈ F ∧ .blank "b" ∈ keeps.quotedSlots ∧
      claim.assign F (F.instantiate s) = claim.assign F s ∧ keeps.assign F (F.instantiate s) ≠ keeps.assign F s := by
  intro claim keeps F s
  have minted : F.minted s = [.blank "b", .blank "b"] := by decide +kernel
  have apart : ∀ k ∈ F.minted s, k ∉ claim.quotedSlots := by
    rw [minted]
    decide
  have quoted : .blank "b" ∈ keeps.quotedSlots := by decide
  have absent : mint F (.blank "b") s ∉ (keeps.assign F s).quotedSlots := by decide +kernel
  have hb : .blank "b" ∈ F.minted s := minted ▸ List.mem_cons_self ..
  have hclaim : claim ∈ F := by decide
  have hkeeps : keeps ∈ F := by decide
  exact ⟨minted, hclaim, hkeeps, quoted, (assign_instantiate F s claim hclaim).2.1 apart,
    ((assign_instantiate F s keeps hkeeps).2.2 _ hb quoted).2 absent⟩

/-- A blank node in a position and in the formula quoted beside it: minted first it is replaced in both. -/
theorem assign_instantiate_false : ¬ ∀ (F : Formula) (c : Triple) (b : Bindings), c ∈ F →
    c.assign F (F.instantiate b) = c.assign F b := by
  intro agree
  let c : Triple := ⟨.blank "x", .iri "p", .formula [⟨.blank "x", .iri "q", .iri "o"⟩]⟩
  have same : c.assign [c] (Formula.instantiate [c] ∅) = c.assign [c] ∅ :=
    agree [c] c ∅ (List.mem_singleton_self c)
  have other : c.assign [c] (Formula.instantiate [c] ∅) ≠ c.assign [c] ∅ := by decide +kernel
  exact other same

end TripleChain
