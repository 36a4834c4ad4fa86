import TripleChain.Term.Order

/-!
# Bindings

A finite map from slots to terms, held as the list of its entries by ascending key. Main
statements: an insertion changes the value of its key alone, and bindings with the same values
are equal.
-/

namespace TripleChain

/-- A finite map between terms, its entries ascending by key. -/
structure Bindings where
  entries : List (Term × Term)
  ascending : entries.Pairwise fun e f => e.1.compare f.1 = .lt

namespace Bindings

def empty : Bindings := ⟨[], List.Pairwise.nil⟩

instance : EmptyCollection Bindings := ⟨empty⟩

instance : Inhabited Bindings := ⟨empty⟩

instance : DecidableEq Bindings := fun a b =>
  decidable_of_iff (a.entries = b.entries) (by cases a; cases b; simp)

/-- The keys, ascending. -/
def keys (b : Bindings) : List Term := b.entries.map (·.1)

/-- The value of a key among entries. -/
def lookup (k : Term) : List (Term × Term) → Option Term
  | [] => none
  | (k', v) :: es => if k = k' then some v else lookup k es

def get? (b : Bindings) (k : Term) : Option Term := lookup k b.entries

def contains (b : Bindings) (k : Term) : Bool := (b.get? k).isSome

/-- The entries with the value of `k` set to `v`. -/
def put (k v : Term) : List (Term × Term) → List (Term × Term)
  | [] => [(k, v)]
  | (k', v') :: es =>
    match k.compare k' with
    | .lt => (k, v) :: (k', v') :: es
    | .eq => (k, v) :: es
    | .gt => (k', v') :: put k v es

theorem key_of_mem_put {k v : Term} {es : List (Term × Term)} {e : Term × Term}
    (h : e ∈ put k v es) : e.1 = k ∨ e ∈ es := by
  induction es with
  | nil => exact Or.inl (by rw [put, List.mem_singleton] at h; rw [h])
  | cons f es ih =>
    unfold put at h
    split at h
    · rcases List.mem_cons.1 h with rfl | h
      · exact Or.inl rfl
      · exact Or.inr h
    · rcases List.mem_cons.1 h with rfl | h
      · exact Or.inl rfl
      · exact Or.inr (List.mem_cons_of_mem _ h)
    · rcases List.mem_cons.1 h with rfl | h
      · exact Or.inr (List.mem_cons_self ..)
      · exact (ih h).imp id (List.mem_cons_of_mem _)

theorem ascending_put {k v : Term} {es : List (Term × Term)}
    (h : es.Pairwise fun e f => e.1.compare f.1 = .lt) :
    (put k v es).Pairwise fun e f => e.1.compare f.1 = .lt := by
  induction es with
  | nil => exact List.pairwise_singleton _ _
  | cons f es ih =>
    obtain ⟨k', v'⟩ := f
    rw [List.pairwise_cons] at h
    unfold put
    split
    · next lt =>
      refine List.pairwise_cons.2 ⟨fun e he => ?_, List.pairwise_cons.2 h⟩
      rcases List.mem_cons.1 he with rfl | he
      · exact lt
      · exact Term.compare_lt_trans _ _ _ lt (h.1 e he)
    · next eq =>
      obtain rfl := (Term.compare_eq_iff _ _).1 eq
      exact List.pairwise_cons.2 h
    · next gt =>
      refine List.pairwise_cons.2 ⟨fun e he => ?_, ih h.2⟩
      rcases key_of_mem_put he with e' | he
      · rw [e']; exact Term.totalOrder.gt_iff.1 gt
      · exact h.1 e he

/-- Sets the value of a key, whatever it was before. -/
def insert (b : Bindings) (k v : Term) : Bindings := ⟨put k v b.entries, ascending_put b.ascending⟩

theorem lookup_put (k v k' : Term) (es : List (Term × Term)) :
    lookup k' (put k v es) = if k' = k then some v else lookup k' es := by
  induction es with
  | nil => rfl
  | cons f es ih =>
    obtain ⟨k'', v''⟩ := f
    unfold put
    split
    · rfl
    · next eq =>
      obtain rfl := (Term.compare_eq_iff _ _).1 eq
      simp only [lookup]; split <;> rfl
    · next gt =>
      have ne : k'' ≠ k := by
        rintro rfl
        rw [Term.totalOrder.self] at gt
        cases gt
      by_cases e : k' = k''
      · subst e; simp [lookup, ne]
      · simp [lookup, e, ih]

@[simp] theorem get?_empty (k : Term) : (∅ : Bindings).get? k = none := rfl

theorem get?_insert (b : Bindings) (k v k' : Term) :
    (b.insert k v).get? k' = if k' = k then some v else b.get? k' := lookup_put k v k' b.entries

@[simp] theorem get?_insert_self (b : Bindings) (k v : Term) : (b.insert k v).get? k = some v := by
  rw [get?_insert, if_pos rfl]

theorem get?_insert_of_ne (b : Bindings) {k k' : Term} (v : Term) (h : k' ≠ k) :
    (b.insert k v).get? k' = b.get? k' := by rw [get?_insert, if_neg h]

theorem lookup_eq_some {es : List (Term × Term)} (h : es.Pairwise fun e f => e.1.compare f.1 = .lt)
    {k v : Term} : lookup k es = some v ↔ (k, v) ∈ es := by
  induction es with
  | nil => simp [lookup]
  | cons f es ih =>
    obtain ⟨k', v'⟩ := f
    rw [List.pairwise_cons] at h
    simp only [lookup, List.mem_cons, Prod.mk.injEq]
    split
    · next e =>
      subst e
      refine ⟨fun s => Or.inl ⟨rfl, (Option.some.inj s).symm⟩, fun o => ?_⟩
      rcases o with ⟨_, rfl⟩ | m
      · rfl
      · have contra := h.1 _ m
        rw [Term.totalOrder.self] at contra
        cases contra
    · next e => rw [ih h.2]; exact ⟨Or.inr, fun o => o.resolve_left fun p => e p.1⟩

theorem get?_eq_some {b : Bindings} {k v : Term} : b.get? k = some v ↔ (k, v) ∈ b.entries :=
  lookup_eq_some b.ascending

theorem mem_keys {b : Bindings} {k : Term} : k ∈ b.keys ↔ (b.get? k).isSome := by
  rw [Option.isSome_iff_exists]
  simp only [get?_eq_some, keys, List.mem_map, Prod.exists, exists_and_right, exists_eq_right]

/-- Entries ascending by key are determined by their members. -/
theorem entries_ext {es fs : List (Term × Term)}
    (he : es.Pairwise fun e f => e.1.compare f.1 = .lt)
    (hf : fs.Pairwise fun e f => e.1.compare f.1 = .lt) (h : ∀ e, e ∈ es ↔ e ∈ fs) : es = fs := by
  have irrefl : ∀ e : Term × Term, e.1.compare e.1 ≠ .lt := fun e contra => by
    rw [Term.totalOrder.self] at contra; cases contra
  induction es generalizing fs with
  | nil =>
    cases fs with
    | nil => rfl
    | cons f fs => exact absurd ((h f).2 (List.mem_cons_self ..)) List.not_mem_nil
  | cons e es ih =>
    cases fs with
    | nil => exact absurd ((h e).1 (List.mem_cons_self ..)) List.not_mem_nil
    | cons f fs =>
      rw [List.pairwise_cons] at he hf
      have ef : e = f := by
        rcases List.mem_cons.1 ((h e).1 (List.mem_cons_self ..)) with x | hx
        · exact x
        rcases List.mem_cons.1 ((h f).2 (List.mem_cons_self ..)) with y | hy
        · exact y.symm
        exact absurd (Term.compare_lt_trans _ _ _ (he.1 f hy) (hf.1 e hx)) (irrefl e)
      subst ef
      congr 1
      refine ih he.2 hf.2 fun x => ⟨fun hx => ?_, fun hx => ?_⟩
      · rcases List.mem_cons.1 ((h x).1 (List.mem_cons_of_mem _ hx)) with rfl | hx'
        · exact absurd (he.1 _ hx) (irrefl _)
        · exact hx'
      · rcases List.mem_cons.1 ((h x).2 (List.mem_cons_of_mem _ hx)) with rfl | hx'
        · exact absurd (hf.1 _ hx) (irrefl _)
        · exact hx'

/-- Bindings with the same values are equal. -/
theorem ext_get? {a b : Bindings} (h : ∀ k, a.get? k = b.get? k) : a = b := by
  obtain ⟨es, he⟩ := a
  obtain ⟨fs, hf⟩ := b
  congr 1
  refine entries_ext he hf fun ⟨k, v⟩ => ?_
  rw [← lookup_eq_some he, ← lookup_eq_some hf]
  exact iff_of_eq (congrArg (· = some v) (h k))

/-- The entries of a list set one after the other. -/
def ofList (es : List (Term × Term)) : Bindings := es.foldl (fun b e => b.insert e.1 e.2) empty

/-- The entries whose keys satisfy `p`. -/
def restrict (b : Bindings) (p : Term → Bool) : Bindings :=
  ⟨b.entries.filter fun e => p e.1, b.ascending.filter _⟩

theorem get?_restrict (b : Bindings) (p : Term → Bool) (k : Term) :
    (b.restrict p).get? k = if p k then b.get? k else none := by
  refine Option.ext fun v => ?_
  rw [get?_eq_some]
  simp only [restrict, List.mem_filter, ← get?_eq_some]
  cases p k <;> simp

end Bindings

/-- The term that stands for `a` under the bindings, if there is one: a slot needs a value, and
every other term stands for itself. -/
def Term.resolve (a : Term) (b : Bindings) : Option Term := if a.isSlot then b.get? a else some a

end TripleChain
