import Mathlib.Data.List.Dedup
import Mathlib.Order.Defs.Unbundled
import TripleChain.Proofs.Legibility
import TripleChain.Rule.Basic

/-!
# Formulas are canonical

Terms, triples, formulas and rules are put in a line by their comparisons (`Rule.totalOrder`,
`TotalOrder.linear`). So a formula does not show how it came about, by sorting a list as a whole or by insertions one
after the other: it is the one strictly ascending list of its triples (`formulas_canonical`). Its text tells it from
other formulas as far as the texts of terms tell these apart.
-/

namespace TripleChain

/-! ## Linear orders -/

/-- Every two values are comparable, the comparison is transitive, and what is equal in it is the same. -/
structure Linear {α : Type} (cmp : α → α → Ordering) : Prop where
  order : IsLinearOrder α fun a b => (cmp a b).isLE = true
  eq_iff : ∀ a b, cmp a b = .eq ↔ a = b

theorem TotalOrder.linear {α : Type} {cmp : α → α → Ordering} (h : TotalOrder cmp) : Linear cmp where
  order :=
    { refl := fun a => h.isLE_iff.2 (.inr rfl)
      trans := fun _ _ _ => h.transCmp.isLE_trans
      antisymm := fun a b hab hba => by
        rcases h.isLE_iff.1 hab with lt | same
        · rw [h.swap b a, lt] at hba
          cases hba
        · exact same
      total := fun a b => by
        rw [h.swap b a]
        cases cmp a b <;> decide }
  eq_iff := h.eq_iff

theorem Rule.rank_eq_iff {r s : Rule} : r.rank = s.rank ↔ r.direction = s.direction := by
  unfold rank
  cases r.direction <;> cases s.direction <;> decide

/-- Rules are in a line: by condition, then by direction, then by conclusion. -/
theorem Rule.totalOrder : TotalOrder Rule.compare where
  eq_iff r s := by
    simp only [Rule.compare, Ordering.then_eq_eq, Term.compare_eq_iff, TotalOrder.nat.eq_iff, rank_eq_iff]
    cases r
    cases s
    simp
  swap r s := by
    simp only [Rule.compare, Ordering.swap_then, ← Term.totalOrder.swap, ← TotalOrder.nat.swap]
  lt_trans r s u hrs hsu :=
    then_lt_trans Term.compare_eq_iff (Term.compare_lt_trans r.condition s.condition u.condition)
      (then_lt_trans TotalOrder.nat.eq_iff (TotalOrder.nat.lt_trans r.rank s.rank u.rank)
        (Term.compare_lt_trans r.conclusion s.conclusion u.conclusion)) hrs hsu

/-! ## Ways to build a formula -/

namespace Formula

/-- The formula of a list: the list is sorted as a whole, then what is repeated is left out. -/
def collect (ts : List Triple) : Formula := (ts.mergeSort fun t u => (t.compare u).isLE).dedup

/-- Some triples are collected, and more are inserted one after the other. -/
def build (collected inserted : List Triple) : Formula := inserted.foldl insert (collect collected)

theorem ascending_collect (ts : List Triple) : Ascending (collect ts) := by
  have order := Triple.totalOrder.linear.order
  have sorted := List.pairwise_mergeSort (fun t u v => order.trans t u v)
    (fun t u => by rw [Bool.or_eq_true]; exact order.total t u) ts
  have distinct := List.nodup_dedup (ts.mergeSort fun t u => (t.compare u).isLE)
  refine ((sorted.sublist (List.dedup_sublist _)).and distinct).imp fun {t u} h => ?_
  exact (Triple.totalOrder.isLE_iff.1 h.1).resolve_right h.2

theorem collect_eq_ofList (ts : List Triple) : collect ts = ofList ts :=
  (ascending_collect ts).ext (ascending_ofList ts) fun t => by
    rw [collect, List.mem_dedup, List.mem_mergeSort, mem_ofList]

/-- However a formula is built, it is the formula of all its triples. -/
theorem build_eq_ofList (ts us : List Triple) : build ts us = ofList (ts ++ us) := by
  rw [build, collect_eq_ofList, ofList, ofList, List.foldl_append]

end Formula

/-! ## Texts of formulas -/

theorem Triple.allLegible_iff {kind : String → String} {ts : List Triple} :
    allLegible kind ts = true ↔ ∀ t ∈ ts, t.isLegible kind = true := by
  induction ts with
  | nil => simp [allLegible]
  | cons t ts ih => simp [allLegible, ih]

theorem Formula.text_inj {kind : String → String} {F G : Formula} (hF : Triple.allLegible kind F = true)
    (hG : Triple.allLegible kind G = true) (h : F.text = G.text) : F = G := by
  have same : (Term.formula F).text.toList ++ [] = (Term.formula G).text.toList ++ [] :=
    congrArg (·.toList ++ []) h
  have both := Term.text_append_inj (.formula F) (.formula G) hF hG Text.ended_nil Text.ended_nil same
  exact Term.formula.inj both.1

/-- The comparisons are total orders, at any depth of quotation, in which only the same is equal. Formulas that are
built from lists, by collecting and by inserting, are equal, look equal and are gone through in the same order exactly
if the lists hold the same triples; the triples come strictly ascending and each once. Texts by themselves show the
difference where they show the datatypes of numbers and where names have no marks. -/
theorem formulas_canonical (ts us ts' us' : List Triple) :
    let F := Formula.build ts us
    let G := Formula.build ts' us'
    Linear Term.compare ∧ Linear Triple.compare ∧ Linear Triple.compareAll ∧ Linear Rule.compare ∧
    ((F = G ∧ F.text = G.text ∧ ∀ i : Nat, F[i]? = G[i]?) ↔ ∀ t, t ∈ ts ++ us ↔ t ∈ ts' ++ us') ∧
    (F = G ↔ ∀ t, t ∈ ts ++ us ↔ t ∈ ts' ++ us') ∧
    ((∀ i : Nat, F[i]? = G[i]?) ↔ ∀ t, t ∈ ts ++ us ↔ t ∈ ts' ++ us') ∧
    (∀ kind, Triple.allLegible kind (ts ++ us) = true → Triple.allLegible kind (ts' ++ us') = true →
      (F.text = G.text ↔ ∀ t, t ∈ ts ++ us ↔ t ∈ ts' ++ us')) ∧
    (∀ t, t ∈ F ↔ t ∈ ts ++ us) ∧ F.Pairwise (fun t u => t.compare u = .lt) ∧ F.Nodup ∧
    ((∀ t ∈ ts ++ us, t.Canonical) → (Term.formula F).Canonical) := by
  intro F G
  have hF : F = Formula.ofList (ts ++ us) := Formula.build_eq_ofList ts us
  have hG : G = Formula.ofList (ts' ++ us') := Formula.build_eq_ofList ts' us'
  have same : F = G ↔ ∀ t, t ∈ ts ++ us ↔ t ∈ ts' ++ us' := by rw [hF, hG, Formula.ofList_eq_iff]
  have ascending : Formula.Ascending F := hF ▸ Formula.ascending_ofList _
  have iteration : (∀ i : Nat, F[i]? = G[i]?) ↔ F = G := ⟨List.ext_getElem?, fun h i => by rw [h]⟩
  refine ⟨Term.totalOrder.linear, Triple.totalOrder.linear, Triple.totalOrder_all.linear, Rule.totalOrder.linear,
    ?_, same, iteration.trans same, fun kind hts hts' => ?_, fun t => ?_, ascending, ascending.nodup, fun h => ?_⟩
  · rw [← same]
    exact ⟨fun h => h.1, fun h => ⟨h, by rw [h], iteration.2 h⟩⟩
  · rw [← same]
    have legible : Triple.allLegible kind F = true := Triple.allLegible_iff.2 fun t ht =>
      Triple.allLegible_iff.1 hts t (Formula.mem_ofList.1 (hF ▸ ht))
    have legible' : Triple.allLegible kind G = true := Triple.allLegible_iff.2 fun t ht =>
      Triple.allLegible_iff.1 hts' t (Formula.mem_ofList.1 (hG ▸ ht))
    exact ⟨Formula.text_inj legible legible', fun h => by rw [h]⟩
  · rw [hF, Formula.mem_ofList]
  · rw [hF]
    exact Term.canonical_quoting h

end TripleChain
