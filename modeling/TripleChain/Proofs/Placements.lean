import Mathlib.Data.List.FinRange
import Mathlib.Data.PEquiv
import Mathlib.Logic.Equiv.Fin.Basic
import TripleChain.Proofs.Dependency

/-!
# Pairings by position

A search for pairings takes up triples and clauses in many orders, and either list may hold a triple more
than once. What it finds has nothing to do with the order: it is what the partial injections of positions
leave over under which triples fit their clauses and the blank nodes that meet correspond one to one
(`residualClauses_placements`).
-/

namespace TripleChain

/-! ## Positions -/

section
variable {α : Type}

/-- Lists that are permutations of each other have the same elements in corresponding positions. -/
theorem exists_positions {l l' : List α} (h : l.Perm l') :
    ∃ e : Fin l.length ≃ Fin l'.length, ∀ i, l'.get (e i) = l.get i := by
  induction h with
  | nil => exact ⟨.refl _, fun i => i.elim0⟩
  | cons a _ ih =>
    obtain ⟨e, he⟩ := ih
    refine ⟨(finSuccEquiv _).trans (e.optionCongr.trans (finSuccEquiv _).symm), fun i => ?_⟩
    refine Fin.cases ?_ (fun j => ?_) i
    · rfl
    · exact he j
  | swap a b l =>
    refine ⟨Equiv.swap 0 1, fun i => ?_⟩
    refine Fin.cases rfl (fun i => Fin.cases rfl (fun j => ?_) i) i
    have fixed : Equiv.swap 0 1 (j.succ.succ : Fin (l.length + 2)) = j.succ.succ :=
      Equiv.swap_apply_of_ne_of_ne (Fin.succ_ne_zero _) (by simp [Fin.ext_iff])
    exact congrArg (a :: b :: l).get fixed
  | trans _ _ ih ih' =>
    obtain ⟨e, he⟩ := ih
    obtain ⟨e', he'⟩ := ih'
    exact ⟨e.trans e', fun i => (he' _).trans (he i)⟩

theorem finRange_perm {n : Nat} {l : List (Fin n)} {p : Fin n → Bool} (nodup : l.Nodup)
    (h : ∀ i, i ∈ l ↔ p i = false) : (List.finRange n).Perm (l ++ (List.finRange n).filter p) := by
  have disjoint : l.Disjoint ((List.finRange n).filter p) := by
    intro i hi hp
    rw [h, (List.mem_filter.1 hp).2] at hi
    cases hi
  refine (List.perm_ext_iff_of_nodup (List.nodup_finRange n)
    (List.Nodup.append nodup ((List.nodup_finRange n).filter p) disjoint)).2 fun i => ?_
  cases hp : p i <;> simp [h, hp]

/-- The positions below a bound. -/
def common (bound n m : Nat) : Fin n ≃. Fin m where
  toFun i := if h : i < bound ∧ i < m then some ⟨i, h.2⟩ else none
  invFun j := if h : j < bound ∧ j < n then some ⟨j, h.2⟩ else none
  inv i j := by
    simp only [Option.dite_none_right_eq_some, Option.some.injEq, Fin.ext_iff]
    constructor
    · rintro ⟨h, e⟩
      exact ⟨⟨e ▸ h.1, e ▸ j.2⟩, e.symm⟩
    · rintro ⟨h, e⟩
      exact ⟨⟨e ▸ h.1, e ▸ i.2⟩, e.symm⟩

theorem mem_common {bound n m : Nat} {i : Fin n} {j : Fin m} :
    j ∈ common bound n m i ↔ i.val = j.val ∧ i.val < bound := by
  rw [Option.mem_def, common, PEquiv.coe_mk, Option.dite_none_right_eq_some]
  simp only [Option.some.injEq, Fin.ext_iff]
  constructor
  · rintro ⟨h, e⟩
    exact ⟨e, h.1⟩
  · rintro ⟨e, h⟩
    exact ⟨⟨h, e ▸ j.2⟩, e⟩

end

/-- Positions of triples are taken to positions of clauses, each to at most one and no two to the same. -/
abbrev Placement (ts cs : List Triple) : Type := Fin ts.length ≃. Fin cs.length

namespace Placement

variable {ts cs : List Triple}

/-- The blank nodes meet in some position of a triple and its clause. -/
def Meets (f : Placement ts cs) (a c : Term) : Prop :=
  ∃ i, ∃ k ∈ f i, (a, c) ∈ (ts.get i).blankPairs (cs.get k)

/-- Triples fit their clauses, and the blank nodes that meet correspond one to one. -/
structure Consistent (f : Placement ts cs) : Prop where
  fits : ∀ i, ∀ k ∈ f i, (ts.get i).Fits (cs.get k)
  oneToOne : ∀ a c a' c', f.Meets a c → f.Meets a' c' → (a = a' ↔ c = c')

def UsesTriples (f : Placement ts cs) : Prop := ∀ i, ∃ k, k ∈ f i

def UsesClauses (f : Placement ts cs) : Prop := ∀ k, ∃ i, k ∈ f i

def Apart (f : Placement ts cs) : Prop := ∀ a c, ¬ f.Meets a c

/-- The triples and the clauses in the positions left over. -/
def left (f : Placement ts cs) : List Triple :=
  ((List.finRange ts.length).filter fun i => (f i).isNone).map ts.get

def rest (f : Placement ts cs) : List Triple :=
  ((List.finRange cs.length).filter fun k => (f.symm k).isNone).map cs.get

/-- The positions that are taken to each other. -/
def placed (f : Placement ts cs) : List (Fin ts.length × Fin cs.length) :=
  (List.finRange ts.length).filterMap fun i => (f i).map (Prod.mk i)

def pairs (f : Placement ts cs) : List (Triple × Triple) := f.placed.map fun p => (ts.get p.1, cs.get p.2)

section
variable {f : Placement ts cs}

theorem mem_placed {i : Fin ts.length} {k : Fin cs.length} : (i, k) ∈ f.placed ↔ k ∈ f i := by
  simp [placed]

theorem nodup_placed : f.placed.Nodup := by
  refine List.Nodup.filterMap (fun i i' p h h' => ?_) (List.nodup_finRange _)
  simp only [Option.mem_def, Option.map_eq_some_iff] at h h'
  obtain ⟨_, _, rfl⟩ := h
  obtain ⟨_, _, e⟩ := h'
  exact (congrArg Prod.fst e).symm

theorem mem_pairs {p : Triple × Triple} : p ∈ f.pairs ↔ ∃ i, ∃ k ∈ f i, (ts.get i, cs.get k) = p := by
  simp [pairs, mem_placed]

theorem mem_blankPairsOf {a c : Term} : (a, c) ∈ blankPairsOf f.pairs ↔ f.Meets a c := by
  simp only [blankPairsOf, List.mem_flatMap, mem_pairs, Meets]
  constructor
  · rintro ⟨p, ⟨i, k, hk, rfl⟩, h⟩
    exact ⟨i, k, hk, h⟩
  · rintro ⟨i, k, hk, h⟩
    exact ⟨_, ⟨i, k, hk, rfl⟩, h⟩

theorem consistent_iff : f.Consistent ↔ (∀ p ∈ f.pairs, p.1.Fits p.2) ∧ OneToOne (blankPairsOf f.pairs) := by
  constructor
  · intro h
    constructor
    · intro p hp
      obtain ⟨i, k, hk, rfl⟩ := mem_pairs.1 hp
      exact h.fits i k hk
    · intro ⟨a, c⟩ hp ⟨a', c'⟩ hq
      exact h.oneToOne a c a' c' (mem_blankPairsOf.1 hp) (mem_blankPairsOf.1 hq)
  · intro ⟨fits, one⟩
    constructor
    · exact fun i k hk => fits _ (mem_pairs.2 ⟨i, k, hk, rfl⟩)
    · exact fun a c a' c' h h' => one _ (mem_blankPairsOf.2 h) _ (mem_blankPairsOf.2 h')

theorem blankPairsOf_eq_nil : blankPairsOf f.pairs = [] ↔ f.Apart := by
  simp only [List.eq_nil_iff_forall_not_mem, Prod.forall, mem_blankPairsOf, Apart]

theorem left_eq_nil : f.left = [] ↔ f.UsesTriples := by
  simp [left, UsesTriples, List.filter_eq_nil_iff, Option.ne_none_iff_exists']

theorem rest_eq_nil : f.rest = [] ↔ f.UsesClauses := by
  simp [rest, UsesClauses, List.filter_eq_nil_iff, Option.ne_none_iff_exists', PEquiv.eq_some_iff]

theorem triples_perm : ts.Perm (f.pairs.map Prod.fst ++ f.left) := by
  have nodup : (f.placed.map Prod.fst).Nodup := by
    refine nodup_placed.map_on fun p hp q hq same => Prod.ext same ?_
    have hq' := mem_placed.1 hq
    rw [← same] at hq'
    exact Option.some.inj ((mem_placed.1 hp).symm.trans hq')
  have all := (finRange_perm (p := fun i => (f i).isNone) nodup fun i => by
    simp [mem_placed, Option.isSome_iff_exists]).map ts.get
  rw [List.map_get_finRange, List.map_append, List.map_map] at all
  rw [pairs, List.map_map]
  exact all

theorem clauses_perm : cs.Perm (f.pairs.map Prod.snd ++ f.rest) := by
  have nodup : (f.placed.map Prod.snd).Nodup := by
    refine nodup_placed.map_on fun p hp q hq same => Prod.ext ?_ same
    have hq' := mem_placed.1 hq
    rw [← same] at hq'
    exact f.inj (mem_placed.1 hp) hq'
  have all := (finRange_perm (p := fun k => (f.symm k).isNone) nodup fun k => by
    simp [mem_placed, Option.isSome_iff_exists, PEquiv.eq_some_iff]).map cs.get
  rw [List.map_get_finRange, List.map_append, List.map_map] at all
  rw [pairs, List.map_map]
  exact all

theorem Consistent.isPairing (h : f.Consistent) : IsPairing [] ts cs f.pairs f.left f.rest where
  triples := triples_perm
  clauses := clauses_perm
  fits := (consistent_iff.1 h).1
  oneToOne := (consistent_iff.1 h).2

end

/-! ### Placements of pairings -/

/-- The placement that takes positions to each other where the two lists begin with the same pairs. -/
def through {ts' cs' : List Triple} (e : Fin ts.length ≃ Fin ts'.length) (e' : Fin cs.length ≃ Fin cs'.length)
    (count : Nat) : Placement ts cs := (e.toPEquiv.trans (common count _ _)).trans e'.symm.toPEquiv

theorem mem_through {ts' cs' : List Triple} {e : Fin ts.length ≃ Fin ts'.length}
    {e' : Fin cs.length ≃ Fin cs'.length} {count : Nat} {i : Fin ts.length} {k : Fin cs.length} :
    k ∈ through e e' count i ↔ (e i).val = (e' k).val ∧ (e i).val < count := by
  constructor
  · intro h
    obtain ⟨j, hj, hk⟩ := (PEquiv.mem_trans _ _ _ _).1 h
    obtain ⟨_, hi, hj⟩ := (PEquiv.mem_trans _ _ _ _).1 hj
    obtain rfl := Option.some.inj hi
    obtain rfl := Option.some.inj hk
    rw [e'.apply_symm_apply]
    exact mem_common.1 hj
  · intro h
    refine (PEquiv.mem_trans _ _ _ _).2 ⟨e' k, ?_, congrArg some (e'.symm_apply_apply k)⟩
    exact (PEquiv.mem_trans _ _ _ _).2 ⟨e i, rfl, mem_common.2 h⟩

section
variable {ps : List (Triple × Triple)} {unpaired spare : List Triple}

theorem exists_placement (h : IsPairing [] ts cs ps unpaired spare) : ∃ f : Placement ts cs,
    f.pairs.Perm ps ∧ f.left.Perm unpaired ∧ f.rest.Perm spare := by
  obtain ⟨e, he⟩ := exists_positions h.triples
  obtain ⟨e', he'⟩ := exists_positions h.clauses
  have lt (j : Fin ps.length) : j.val < (ps.map Prod.fst ++ unpaired).length := by
    rw [List.length_append, List.length_map]
    omega
  have lt' (j : Fin ps.length) : j.val < (ps.map Prod.snd ++ spare).length := by
    rw [List.length_append, List.length_map]
    omega
  -- Position `j` of the pairs is where `e` and `e'` meet.
  let place (j : Fin ps.length) := (e.symm ⟨j, lt j⟩, e'.symm ⟨j, lt' j⟩)
  let f : Placement ts cs := through e e' ps.length
  have injective : Function.Injective place := by
    intro j j' same
    exact Fin.ext (Fin.mk.inj (e.symm.injective (congrArg Prod.fst same)))
  have listed : f.placed.Perm ((List.finRange ps.length).map place) := by
    refine (List.perm_ext_iff_of_nodup nodup_placed ((List.nodup_finRange _).map injective)).2 fun ⟨i, k⟩ => ?_
    rw [mem_placed, mem_through, List.mem_map]
    constructor
    · intro ⟨same, below⟩
      refine ⟨⟨e i, below⟩, List.mem_finRange _, Prod.ext (e.symm_apply_apply i) ?_⟩
      exact e'.symm_apply_eq.2 (Fin.ext same)
    · rintro ⟨j, -, ⟨⟩⟩
      simp
  have get : (fun p => (ts.get p.1, cs.get p.2)) ∘ place = ps.get := by
    funext j
    show (ts.get (place j).1, cs.get (place j).2) = ps.get j
    rw [← he, ← he']
    simp [place]
  have pairs : f.pairs.Perm ps := by
    have mapped := listed.map fun p => (ts.get p.1, cs.get p.2)
    rwa [List.map_map, get, List.map_get_finRange] at mapped
  refine ⟨f, pairs, ?_, ?_⟩
  · have both := (triples_perm (f := f)).symm.trans h.triples
    exact (List.perm_append_left_iff _).1 (((pairs.map Prod.fst).symm.append_right _).trans both)
  · have both := (clauses_perm (f := f)).symm.trans h.clauses
    exact (List.perm_append_left_iff _).1 (((pairs.map Prod.snd).symm.append_right _).trans both)

/-- A pairing of the elements comes from one of the positions. -/
theorem exists_consistent (h : IsPairing [] ts cs ps unpaired spare) : ∃ f : Placement ts cs, f.Consistent ∧
    (f.UsesTriples ↔ unpaired = []) ∧ (f.UsesClauses ↔ spare = []) ∧ (f.Apart ↔ blankPairsOf ps = []) ∧
    Formula.ofList f.rest = Formula.ofList spare := by
  obtain ⟨f, hpairs, hleft, hrest⟩ := exists_placement h
  have met : (blankPairsOf f.pairs).Perm (blankPairsOf ps) := hpairs.flatMap_right _
  refine ⟨f, consistent_iff.2 ⟨?_, ?_⟩, ?_, ?_, ?_, ?_⟩
  · exact fun p hp => h.fits p (hpairs.mem_iff.1 hp)
  · exact h.oneToOne.subset fun e he => met.mem_iff.1 he
  · rw [← left_eq_nil, ← List.length_eq_zero_iff, hleft.length_eq, List.length_eq_zero_iff]
  · rw [← rest_eq_nil, ← List.length_eq_zero_iff, hrest.length_eq, List.length_eq_zero_iff]
  · rw [← blankPairsOf_eq_nil, ← List.length_eq_zero_iff, met.length_eq, List.length_eq_zero_iff]
  · exact Formula.ofList_eq_iff.2 fun c => hrest.mem_iff

end

end Placement

/-! ## What is left over -/

section
variable {ts cs : List Triple} {F : Formula}

open Placement

theorem Term.fits_formula_iff : (Term.formula ts).Fits (.formula cs) ↔
    ∃ f : Placement ts cs, f.Consistent ∧ f.UsesClauses ∧ (f.UsesTriples ∨ f.Apart) := by
  rw [Term.fits_formula]
  constructor
  · intro ⟨ps, left, h, ends⟩
    obtain ⟨f, consistent, triples, clauses, apart, -⟩ := exists_consistent h
    exact ⟨f, consistent, clauses.2 rfl, ends.imp triples.2 apart.2⟩
  · intro ⟨f, consistent, clauses, ends⟩
    have h := consistent.isPairing
    rw [rest_eq_nil.2 clauses] at h
    exact ⟨f.pairs, f.left, h, ends.imp left_eq_nil.2 blankPairsOf_eq_nil.2⟩

theorem Term.fits_iff {a c : Term} : a.Fits c ↔ a.isSlot = true ∨ c.isSlot = true ∨
    (∃ l, a = .literal l ∧ c = .literal l) ∨ (∃ i, a = .iri i ∧ c = .iri i) ∨
    ∃ ts cs, a = .formula ts ∧ c = .formula cs ∧
      ∃ f : Placement ts cs, f.Consistent ∧ f.UsesClauses ∧ (f.UsesTriples ∨ f.Apart) := by
  constructor
  · intro h
    cases h with
    | slot h => exact h.imp_right .inl
    | literal l => exact .inr (.inr (.inl ⟨l, rfl, rfl⟩))
    | iri i => exact .inr (.inr (.inr (.inl ⟨i, rfl, rfl⟩)))
    | formula ps left triples clauses subjects predicates objects oneToOne ends =>
      have h := Term.Fits.formula ps left triples clauses subjects predicates objects oneToOne ends
      exact .inr (.inr (.inr (.inr ⟨_, _, rfl, rfl, fits_formula_iff.1 h⟩)))
  · rintro (h | h | ⟨l, rfl, rfl⟩ | ⟨i, rfl, rfl⟩ | ⟨ts, cs, rfl, rfl, h⟩)
    · exact .slot (.inl h)
    · exact .slot (.inr h)
    · exact .literal l
    · exact .iri i
    · exact fits_formula_iff.2 h

theorem mem_residualClauses : F ∈ residualClauses cs ts ↔
    (∃ f : Placement ts cs, f.Consistent ∧ f.UsesTriples ∧ F = Formula.ofList f.rest) ∨
      F = [] ∧ ∃ f : Placement ts cs, f.Consistent ∧ f.UsesClauses ∧ f.Apart := by
  rw [residualClauses, OrderedSet.mem_ofList, Pairing.mem_residuals]
  constructor
  · rintro ⟨ps, left, rest, h, leaves⟩
    obtain ⟨f, consistent, triples, clauses, apart, spare⟩ := exists_consistent h
    cases leaves with
    | inl leaves => exact .inl ⟨f, consistent, triples.2 leaves.1, spare ▸ leaves.2⟩
    | inr leaves => exact .inr ⟨leaves.2.2, f, consistent, clauses.2 leaves.1, apart.2 leaves.2.1⟩
  · rintro (⟨f, consistent, triples, hF⟩ | ⟨hF, f, consistent, clauses, apart⟩)
    · exact ⟨_, _, _, consistent.isPairing, .inl ⟨left_eq_nil.2 triples, hF⟩⟩
    · exact ⟨_, _, _, consistent.isPairing, .inr ⟨rest_eq_nil.2 clauses, blankPairsOf_eq_nil.2 apart, hF⟩⟩

theorem exists_mem_residualClauses : (∃ F, F ∈ residualClauses cs ts) ↔
    ∃ f : Placement ts cs, f.Consistent ∧ (f.UsesTriples ∨ f.UsesClauses ∧ f.Apart) := by
  simp only [mem_residualClauses]
  constructor
  · rintro ⟨F, ⟨f, consistent, triples, -⟩ | ⟨-, f, consistent, ends⟩⟩
    · exact ⟨f, consistent, .inl triples⟩
    · exact ⟨f, consistent, .inr ends⟩
  · rintro ⟨f, consistent, triples | ends⟩
    · exact ⟨_, .inl ⟨f, consistent, triples, rfl⟩⟩
    · exact ⟨_, .inr ⟨rfl, f, consistent, ends⟩⟩

theorem conclusionFeeds_iff_exists {G H : Formula} : conclusionFeeds (.formula G) (.formula H) = true ↔
    H.readClauses ≠ [] ∧ G ≠ [] ∧ ∃ F, F ∈ residualClauses H.readClauses G := by
  have found : (∃ F, F ∈ residualClauses H.readClauses G) ↔
      Pairing.anyResidual (fun _ => true) (Triple.feeders G) H.readClauses = true := by
    simp [residualClauses, OrderedSet.mem_ofList, Pairing.anyResidual_eq]
  constructor
  · intro h
    have some := ne_nil_of_conclusionFeeds h
    rw [conclusionFeeds_iff some.1 some.2, ← Pairing.anyResidual_true_iff, ← found] at h
    exact ⟨some.2, some.1, h⟩
  · rintro ⟨hH, hG, h⟩
    rwa [conclusionFeeds_iff hG hH, ← Pairing.anyResidual_true_iff, ← found]

end

/-- What the pairings leave over that use all triples is found, each once, and the empty formula if a pairing
uses all clauses and no blank nodes meet. A conclusion feeds a condition if neither is empty and there is
such a pairing, that is, if anything is found. -/
theorem residualClauses_placements (cs ts : List Triple) :
    (residualClauses cs ts).toList.Nodup ∧
    (∀ F, F ∈ residualClauses cs ts ↔
      (∃ f : Placement ts cs, f.Consistent ∧ f.UsesTriples ∧ F = Formula.ofList f.rest) ∨
        F = [] ∧ ∃ f : Placement ts cs, f.Consistent ∧ f.UsesClauses ∧ f.Apart) ∧
    (∀ a c : Term, a.Fits c ↔ a.isSlot = true ∨ c.isSlot = true ∨
      (∃ l, a = .literal l ∧ c = .literal l) ∨ (∃ i, a = .iri i ∧ c = .iri i) ∨
      ∃ ts cs, a = .formula ts ∧ c = .formula cs ∧
        ∃ f : Placement ts cs, f.Consistent ∧ f.UsesClauses ∧ (f.UsesTriples ∨ f.Apart)) ∧
    ∀ G H : Formula,
      (conclusionFeeds (.formula G) (.formula H) = true ↔ H.readClauses ≠ [] ∧ G ≠ [] ∧
        ∃ f : Placement G H.readClauses, f.Consistent ∧ (f.UsesTriples ∨ f.UsesClauses ∧ f.Apart)) ∧
      (conclusionFeeds (.formula G) (.formula H) = true ↔ H.readClauses ≠ [] ∧ G ≠ [] ∧
        ∃ F, F ∈ residualClauses H.readClauses G) := by
  refine ⟨OrderedSet.nodup _, fun F => mem_residualClauses, fun a c => Term.fits_iff, fun G H => ⟨?_, ?_⟩⟩
  · rw [conclusionFeeds_iff_exists, exists_mem_residualClauses]
  · exact conclusionFeeds_iff_exists

/-- Either of two equal clauses is left over, which is one formula. -/
example : (residualClauses [⟨.var "x", .iri "p", .blank "n"⟩, ⟨.var "x", .iri "p", .blank "n"⟩]
    [⟨.iri "a", .iri "p", .blank "m"⟩]).toList = [[⟨.var "x", .iri "p", .blank "n"⟩]] := by decide

end TripleChain
