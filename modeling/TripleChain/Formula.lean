import TripleChain.Term.Order

/-!
# Formulas

A formula is a set of triples, held as the ascending list of its members. Main statements: what
`ofList` builds is ascending and has the members of the list, and ascending lists with the same
members are equal, so that formulas are equal exactly if they hold the same triples.
-/

namespace TripleChain

namespace Formula

/-- Puts a triple at its place, unless it is present. -/
def insert : Formula → Triple → Formula
  | [], t => [t]
  | u :: F, t =>
    match t.compare u with
    | .lt => t :: u :: F
    | .eq => u :: F
    | .gt => u :: insert F t

/-- The formula that holds the triples of a list. -/
def ofList (ts : List Triple) : Formula := ts.foldl insert []

/-- Strictly ascending, and so without repetition. -/
def Ascending (F : Formula) : Prop := F.Pairwise fun t u => t.compare u = .lt

theorem mem_insert {F : Formula} {t u : Triple} : u ∈ F.insert t ↔ u = t ∨ u ∈ F := by
  induction F with
  | nil => simp [insert]
  | cons v F ih =>
    unfold insert
    split
    · simp
    · next h => rw [(Triple.compare_eq_iff t v).1 h]; simp
    · simp only [List.mem_cons, ih]
      exact or_left_comm

theorem ascending_insert {F : Formula} (h : Ascending F) (t : Triple) : Ascending (F.insert t) := by
  induction F with
  | nil => exact List.pairwise_singleton _ _
  | cons v F ih =>
    rw [Ascending, List.pairwise_cons] at h
    unfold insert
    split
    · next lt =>
      refine List.pairwise_cons.2 ⟨fun u hu => ?_, List.pairwise_cons.2 h⟩
      rcases List.mem_cons.1 hu with rfl | hu
      · exact lt
      · exact Triple.compare_lt_trans _ _ _ lt (h.1 u hu)
    · exact List.pairwise_cons.2 h
    · next gt =>
      refine List.pairwise_cons.2 ⟨fun u hu => ?_, ih h.2⟩
      rcases mem_insert.1 hu with rfl | hu
      · exact Triple.totalOrder.gt_iff.1 gt
      · exact h.1 u hu

theorem mem_foldl_insert {ts : List Triple} {F : Formula} {u : Triple} :
    u ∈ ts.foldl insert F ↔ u ∈ F ∨ u ∈ ts := by
  induction ts generalizing F with
  | nil => simp
  | cons t ts ih =>
    simp only [List.foldl_cons, ih, mem_insert, List.mem_cons]
    exact ⟨fun h => h.elim (fun h => h.elim (Or.inr ∘ Or.inl) Or.inl) (Or.inr ∘ Or.inr),
      fun h => h.elim (Or.inl ∘ Or.inr) fun h => h.elim (Or.inl ∘ Or.inl) Or.inr⟩

theorem ascending_foldl_insert {ts : List Triple} {F : Formula} (h : Ascending F) :
    Ascending (ts.foldl insert F) := by
  induction ts generalizing F with
  | nil => exact h
  | cons t ts ih => exact ih (ascending_insert h t)

@[simp] theorem mem_ofList {ts : List Triple} {u : Triple} : u ∈ ofList ts ↔ u ∈ ts := by
  simp [ofList, mem_foldl_insert]

theorem ascending_ofList (ts : List Triple) : Ascending (ofList ts) :=
  ascending_foldl_insert List.Pairwise.nil

/-- Ascending lists with the same members are equal. -/
theorem Ascending.ext {F G : Formula} (hF : Ascending F) (hG : Ascending G)
    (h : ∀ t, t ∈ F ↔ t ∈ G) : F = G := by
  induction F generalizing G with
  | nil =>
    cases G with
    | nil => rfl
    | cons u G => exact absurd ((h u).2 (List.mem_cons_self ..)) List.not_mem_nil
  | cons t F ih =>
    cases G with
    | nil => exact absurd ((h t).1 (List.mem_cons_self ..)) List.not_mem_nil
    | cons u G =>
      rw [Ascending, List.pairwise_cons] at hF hG
      have tu : t = u := by
        rcases List.mem_cons.1 ((h t).1 (List.mem_cons_self ..)) with e | ht
        · exact e
        rcases List.mem_cons.1 ((h u).2 (List.mem_cons_self ..)) with e | hu
        · exact e.symm
        have contra := Triple.compare_lt_trans _ _ _ (hF.1 u hu) (hG.1 t ht)
        rw [Triple.totalOrder.self] at contra
        cases contra
      subst tu
      congr 1
      refine ih hF.2 hG.2 fun v => ⟨fun hv => ?_, fun hv => ?_⟩
      · rcases List.mem_cons.1 ((h v).1 (List.mem_cons_of_mem _ hv)) with rfl | hv'
        · have contra := hF.1 v hv
          rw [Triple.totalOrder.self] at contra
          cases contra
        · exact hv'
      · rcases List.mem_cons.1 ((h v).2 (List.mem_cons_of_mem _ hv)) with rfl | hv'
        · have contra := hG.1 v hv
          rw [Triple.totalOrder.self] at contra
          cases contra
        · exact hv'

theorem Ascending.nodup {F : Formula} (h : Ascending F) : F.Nodup :=
  h.imp fun {t u} lt e => by
    rw [e, Triple.totalOrder.self] at lt
    cases lt

theorem ofList_eq_iff {ts us : List Triple} : ofList ts = ofList us ↔ ∀ t, t ∈ ts ↔ t ∈ us := by
  refine ⟨fun h t => ?_, fun h => ?_⟩
  · rw [← mem_ofList, h, mem_ofList]
  · exact (ascending_ofList ts).ext (ascending_ofList us) fun t => by rw [mem_ofList, mem_ofList, h]

theorem Ascending.ofList_eq {F : Formula} (h : Ascending F) : ofList F = F :=
  (ascending_ofList F).ext h fun _ => mem_ofList

end Formula

mutual

/-- Every formula quoted in the term, at any depth, is ascending. -/
def Term.Canonical : Term → Prop
  | .formula ts => Formula.Ascending ts ∧ Triple.AllCanonical ts
  | .literal _ | .iri _ | .var _ | .blank _ => True

def Triple.Canonical : Triple → Prop
  | ⟨s, p, o⟩ => s.Canonical ∧ p.Canonical ∧ o.Canonical

def Triple.AllCanonical : List Triple → Prop
  | [] => True
  | t :: ts => t.Canonical ∧ Triple.AllCanonical ts

end

theorem Triple.allCanonical_iff {ts : List Triple} : AllCanonical ts ↔ ∀ t ∈ ts, t.Canonical := by
  induction ts with
  | nil => simp [AllCanonical]
  | cons t ts ih => simp [AllCanonical, ih]

/-- The term that quotes the given triples. -/
def Term.quoting (ts : List Triple) : Term := .formula (Formula.ofList ts)

theorem Term.canonical_quoting {ts : List Triple} (h : ∀ t ∈ ts, t.Canonical) :
    (quoting ts).Canonical :=
  ⟨Formula.ascending_ofList ts, Triple.allCanonical_iff.2 fun t ht => h t (Formula.mem_ofList.1 ht)⟩

end TripleChain
