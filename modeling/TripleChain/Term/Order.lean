import TripleChain.Term.Basic

/-!
# The order of terms

Terms are ordered by kind (literals, IRIs, variables, blank nodes, formulas) and within a kind
by their parts; triples position by position; lists of triples lexicographically, the shorter
first. Texts are ordered by code point. Main statements: the comparisons of terms and of triples
are total orders whose equal case is equality.
-/

namespace TripleChain

/-- What makes a comparison a total order whose equal case is equality. -/
structure TotalOrder {α : Type} (cmp : α → α → Ordering) : Prop where
  eq_iff : ∀ a b, cmp a b = .eq ↔ a = b
  swap : ∀ a b, cmp a b = (cmp b a).swap
  lt_trans : ∀ a b c, cmp a b = .lt → cmp b c = .lt → cmp a c = .lt

namespace TotalOrder
variable {α : Type} {cmp : α → α → Ordering}

theorem self (h : TotalOrder cmp) (a : α) : cmp a a = .eq := (h.eq_iff a a).2 rfl

theorem isLE_iff (h : TotalOrder cmp) {a b : α} : (cmp a b).isLE = true ↔ cmp a b = .lt ∨ a = b := by
  rw [← h.eq_iff]; cases cmp a b <;> decide

theorem transCmp (h : TotalOrder cmp) : Std.TransCmp cmp where
  eq_swap {a b} := h.swap a b
  isLE_trans {a b c} hab hbc := by
    rw [h.isLE_iff] at hab hbc ⊢
    rcases hab with hab | rfl
    · rcases hbc with hbc | rfl
      · exact Or.inl (h.lt_trans a b c hab hbc)
      · exact Or.inl hab
    · exact hbc

theorem lawfulEqCmp (h : TotalOrder cmp) : Std.LawfulEqCmp cmp where
  compare_self {a} := h.self a
  eq_of_compare {a b} e := (h.eq_iff a b).1 e

theorem ofLawful [Std.TransCmp cmp] [Std.LawfulEqCmp cmp] : TotalOrder cmp where
  eq_iff _ _ := Std.LawfulEqCmp.compare_eq_iff_eq
  swap _ _ := Std.OrientedCmp.eq_swap
  lt_trans _ _ _ := Std.TransCmp.lt_trans

theorem string : TotalOrder (compare : String → String → Ordering) := ofLawful

theorem nat : TotalOrder (compare : Nat → Nat → Ordering) := ofLawful

theorem gt_iff (h : TotalOrder cmp) {a b : α} : cmp a b = .gt ↔ cmp b a = .lt := by
  rw [h.swap a b]; cases cmp b a <;> decide

end TotalOrder

theorem Literal.totalOrder : TotalOrder Literal.compare where
  eq_iff a b := by
    cases a; cases b
    simp [Literal.compare, Ordering.then_eq_eq]
  swap a b := by
    simp only [Literal.compare, Ordering.swap_then, ← TotalOrder.string.swap]
  lt_trans a b c hab hbc := by
    simp only [Literal.compare, Ordering.then_eq_lt, TotalOrder.string.eq_iff] at *
    rcases hab with hab | ⟨hab, hab'⟩ <;> rcases hbc with hbc | ⟨hbc, hbc'⟩
    · exact Or.inl (TotalOrder.string.lt_trans _ _ _ hab hbc)
    · exact Or.inl (hbc ▸ hab)
    · exact Or.inl (hab ▸ hbc)
    · exact Or.inr ⟨hab.trans hbc, TotalOrder.string.lt_trans _ _ _ hab' hbc'⟩

/-- Literals come first, then IRIs, variables, blank nodes and formulas. -/
def Term.rank : Term → Nat
  | .literal _ => 0
  | .iri _ => 1
  | .var _ => 2
  | .blank _ => 3
  | .formula _ => 4

mutual

protected def Term.compare : Term → Term → Ordering
  | .literal l, .literal m => l.compare m
  | .iri s, .iri t | .var s, .var t | .blank s, .blank t => compare s t
  | .formula ts, .formula us => Triple.compareAll ts us
  | a, b => compare a.rank b.rank

protected def Triple.compare : Triple → Triple → Ordering
  | ⟨s, p, o⟩, ⟨s', p', o'⟩ => (s.compare s').then ((p.compare p').then (o.compare o'))

def Triple.compareAll : List Triple → List Triple → Ordering
  | [], [] => .eq
  | [], _ :: _ => .lt
  | _ :: _, [] => .gt
  | t :: ts, u :: us => (t.compare u).then (Triple.compareAll ts us)

end

instance : Ord Term := ⟨Term.compare⟩

instance : Ord Triple := ⟨Triple.compare⟩

instance : LT Term := ltOfOrd

instance : LT Triple := ltOfOrd

mutual

theorem Term.compare_eq_iff : (a b : Term) → (a.compare b = .eq ↔ a = b)
  | .literal l, .literal m => by simp [Term.compare, Literal.totalOrder.eq_iff]
  | .iri s, .iri t | .var s, .var t | .blank s, .blank t => by simp [Term.compare]
  | .formula ts, .formula us => by simp [Term.compare, Triple.compareAll_eq_iff ts us]
  | .literal _, .iri _ | .literal _, .var _ | .literal _, .blank _ | .literal _, .formula _
  | .iri _, .literal _ | .iri _, .var _ | .iri _, .blank _ | .iri _, .formula _
  | .var _, .literal _ | .var _, .iri _ | .var _, .blank _ | .var _, .formula _
  | .blank _, .literal _ | .blank _, .iri _ | .blank _, .var _ | .blank _, .formula _
  | .formula _, .literal _ | .formula _, .iri _ | .formula _, .var _ | .formula _, .blank _ => by
    simp [Term.compare, Term.rank]

theorem Triple.compare_eq_iff : (t u : Triple) → (t.compare u = .eq ↔ t = u)
  | ⟨s, p, o⟩, ⟨s', p', o'⟩ => by
    simp [Triple.compare, Ordering.then_eq_eq, s.compare_eq_iff, p.compare_eq_iff, o.compare_eq_iff]

theorem Triple.compareAll_eq_iff : (ts us : List Triple) → (Triple.compareAll ts us = .eq ↔ ts = us)
  | [], [] | [], _ :: _ | _ :: _, [] => by simp [Triple.compareAll]
  | t :: ts, u :: us => by
    simp [Triple.compareAll, Ordering.then_eq_eq, t.compare_eq_iff, Triple.compareAll_eq_iff ts us]

end

mutual

theorem Term.compare_swap : (a b : Term) → a.compare b = (b.compare a).swap
  | .literal l, .literal m => by simp only [Term.compare, ← Literal.totalOrder.swap]
  | .iri s, .iri t | .var s, .var t | .blank s, .blank t => by
    simp only [Term.compare, ← TotalOrder.string.swap]
  | .formula ts, .formula us => by
    simp only [Term.compare]; exact Triple.compareAll_swap ts us
  | .literal _, .iri _ | .literal _, .var _ | .literal _, .blank _ | .literal _, .formula _
  | .iri _, .literal _ | .iri _, .var _ | .iri _, .blank _ | .iri _, .formula _
  | .var _, .literal _ | .var _, .iri _ | .var _, .blank _ | .var _, .formula _
  | .blank _, .literal _ | .blank _, .iri _ | .blank _, .var _ | .blank _, .formula _
  | .formula _, .literal _ | .formula _, .iri _ | .formula _, .var _ | .formula _, .blank _ => by
    simp only [Term.compare, ← TotalOrder.nat.swap]

theorem Triple.compare_swap : (t u : Triple) → t.compare u = (u.compare t).swap
  | ⟨s, p, o⟩, ⟨s', p', o'⟩ => by
    simp only [Triple.compare, Ordering.swap_then, ← s.compare_swap s', ← p.compare_swap p',
      ← o.compare_swap o']

theorem Triple.compareAll_swap : (ts us : List Triple) →
    Triple.compareAll ts us = (Triple.compareAll us ts).swap
  | [], [] | [], _ :: _ | _ :: _, [] => rfl
  | t :: ts, u :: us => by
    simp only [Triple.compareAll, Ordering.swap_then, ← t.compare_swap u, ← Triple.compareAll_swap ts us]

end

/-- Terms of different kinds stand as their kinds do. -/
theorem Term.compare_of_rank_ne {a b : Term} (h : a.rank ≠ b.rank) :
    a.compare b = compare a.rank b.rank := by
  cases a <;> cases b <;> first | exact absurd rfl h | rfl

/-- What is smaller does not have the greater kind. -/
theorem Term.rank_le_of_compare_lt {a b : Term} (h : a.compare b = .lt) : a.rank ≤ b.rank := by
  by_cases e : a.rank = b.rank
  · omega
  · rw [compare_of_rank_ne e, Nat.compare_eq_lt] at h
    omega

/-- Smaller in a lexicographic comparison, for a first part whose equal case is equality. -/
theorem then_lt_trans {α : Type} {cmp : α → α → Ordering} (eq_iff : ∀ a b, cmp a b = .eq ↔ a = b)
    {a b c : α} (trans : cmp a b = .lt → cmp b c = .lt → cmp a c = .lt) {x y z : Ordering}
    (next : x = .lt → y = .lt → z = .lt) (hab : (cmp a b).then x = .lt)
    (hbc : (cmp b c).then y = .lt) : (cmp a c).then z = .lt := by
  simp only [Ordering.then_eq_lt, eq_iff] at *
  rcases hab with hab | ⟨hab, hx⟩ <;> rcases hbc with hbc | ⟨hbc, hy⟩
  · exact Or.inl (trans hab hbc)
  · exact Or.inl (hbc ▸ hab)
  · exact Or.inl (hab ▸ hbc)
  · exact Or.inr ⟨hab.trans hbc, next hx hy⟩

mutual

theorem Term.compare_lt_trans (a b c : Term) (hab : a.compare b = .lt) (hbc : b.compare c = .lt) :
    a.compare c = .lt := by
  have h₁ := Term.rank_le_of_compare_lt hab
  have h₂ := Term.rank_le_of_compare_lt hbc
  by_cases e : a.rank = c.rank
  · cases a <;> cases b <;> cases c <;> simp only [Term.rank] at e h₁ h₂ <;> try omega
    · exact Literal.totalOrder.lt_trans _ _ _ hab hbc
    · exact TotalOrder.string.lt_trans _ _ _ hab hbc
    · exact TotalOrder.string.lt_trans _ _ _ hab hbc
    · exact TotalOrder.string.lt_trans _ _ _ hab hbc
    · exact Triple.compareAll_lt_trans _ _ _ hab hbc
  · rw [Term.compare_of_rank_ne e, Nat.compare_eq_lt]
    omega

theorem Triple.compare_lt_trans : (t u v : Triple) →
    t.compare u = .lt → u.compare v = .lt → t.compare v = .lt
  | ⟨s, p, o⟩, ⟨s', p', o'⟩, ⟨s'', p'', o''⟩, htu, huv =>
    then_lt_trans Term.compare_eq_iff (s.compare_lt_trans s' s'')
      (then_lt_trans Term.compare_eq_iff (p.compare_lt_trans p' p'') (o.compare_lt_trans o' o''))
      htu huv

theorem Triple.compareAll_lt_trans : (ts us vs : List Triple) →
    Triple.compareAll ts us = .lt → Triple.compareAll us vs = .lt → Triple.compareAll ts vs = .lt
  | [], _, _ :: _, _, _ => rfl
  | _ :: _, [], _, h, _ => nomatch h
  | _, _ :: _, [], _, h => nomatch h
  | [], [], [], _, h => h
  | t :: ts, u :: us, v :: vs, htu, huv =>
    then_lt_trans Triple.compare_eq_iff (t.compare_lt_trans u v) (Triple.compareAll_lt_trans ts us vs)
      htu huv

end

theorem Term.totalOrder : TotalOrder Term.compare :=
  ⟨compare_eq_iff, compare_swap, compare_lt_trans⟩

theorem Triple.totalOrder : TotalOrder Triple.compare :=
  ⟨compare_eq_iff, compare_swap, compare_lt_trans⟩

theorem Triple.totalOrder_all : TotalOrder Triple.compareAll :=
  ⟨compareAll_eq_iff, compareAll_swap, compareAll_lt_trans⟩

instance : Std.TransOrd Term := Term.totalOrder.transCmp

instance : Std.LawfulEqOrd Term := Term.totalOrder.lawfulEqCmp

end TripleChain
