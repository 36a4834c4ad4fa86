import Mathlib.Data.List.Nodup
import TripleChain.Matching

/-!
# What matching means

A pattern matches a term under bindings if the bindings turn the one into the other; a quoted
formula matches one that holds, for each of its clauses, a triple that the clause matches.
Matching clauses against triples lists exactly the bindings that give values to the slots of the
clauses, and to no others, and under which every clause matches some triple (`mem_bindAll`).
-/

namespace TripleChain

/-! ## Bindings that extend others -/

namespace Bindings

/-- `s` keeps the entries of `b` and gives values to the terms `new`, and to no others. -/
structure Extends (b : Bindings) (new : List Term) (s : Bindings) : Prop where
  keeps : ∀ k v, b.get? k = some v → s.get? k = some v
  keys : ∀ k, k ∈ s.keys ↔ k ∈ b.keys ∨ k ∈ new

section
variable {b m s : Bindings} {xs ys : List Term}

theorem get?_eq_none {k : Term} : b.get? k = none ↔ k ∉ b.keys := by
  rw [mem_keys]; simp

theorem Extends.get?_eq (h : b.Extends xs s) {k : Term} (hk : k ∈ b.keys) : s.get? k = b.get? k := by
  rw [mem_keys, Option.isSome_iff_exists] at hk
  obtain ⟨v, hv⟩ := hk
  rw [hv, h.keeps k v hv]

theorem Extends.ext (h : b.Extends xs m) (h' : b.Extends xs s) (he : ∀ k ∈ xs, m.get? k = s.get? k) :
    m = s := by
  apply ext_get?
  intro k
  by_cases hb : k ∈ b.keys
  · rw [h.get?_eq hb, h'.get?_eq hb]
  by_cases hx : k ∈ xs
  · exact he k hx
  · rw [get?_eq_none.2 (by simp [h.keys, hb, hx]), get?_eq_none.2 (by simp [h'.keys, hb, hx])]

theorem Extends.trans (h : b.Extends xs m) (h' : m.Extends ys s) : b.Extends (xs ++ ys) s where
  keeps k v hv := h'.keeps k v (h.keeps k v hv)
  keys k := by rw [h'.keys, h.keys, List.mem_append, or_assoc]

theorem Extends.unique {m' : Bindings} (h : b.Extends xs m) (h' : b.Extends xs m')
    (hs : m.Extends ys s) (hs' : m'.Extends ys s) : m = m' := by
  apply h.ext h'
  intro k hk
  rw [← hs.get?_eq ((h.keys k).2 (.inr hk)), hs'.get?_eq ((h'.keys k).2 (.inr hk))]

theorem extends_nil : b.Extends [] s ↔ s = b := by
  constructor
  · intro h
    have hb : b.Extends [] b := ⟨fun _ _ hv => hv, fun k => by simp⟩
    exact h.ext hb fun k hk => absurd hk List.not_mem_nil
  · rintro rfl
    exact ⟨fun _ _ hv => hv, fun k => by simp⟩

theorem extends_append : b.Extends (xs ++ ys) s ↔ ∃ m, b.Extends xs m ∧ m.Extends ys s := by
  constructor
  · intro h
    let m := s.restrict fun k => decide (k ∈ b.keys ∨ k ∈ xs)
    have hm : ∀ k, m.get? k = if k ∈ b.keys ∨ k ∈ xs then s.get? k else none := by
      intro k; rw [get?_restrict]; simp
    have mkeys : ∀ k, k ∈ m.keys ↔ k ∈ b.keys ∨ k ∈ xs := by
      intro k
      rw [mem_keys, hm]
      by_cases hk : k ∈ b.keys ∨ k ∈ xs
      · have : k ∈ s.keys := (h.keys k).2 (hk.imp id fun hx => List.mem_append_left _ hx)
        rw [if_pos hk]
        simp [mem_keys.1 this, hk]
      · simp [hk]
    refine ⟨m, ⟨?_, mkeys⟩, ⟨?_, ?_⟩⟩
    · intro k v hv
      rw [hm, if_pos (.inl (by rw [mem_keys, hv]; rfl)), h.keeps k v hv]
    · intro k v hv
      rw [hm] at hv
      split at hv
      · exact hv
      · cases hv
    · intro k
      rw [mkeys, h.keys, List.mem_append, or_assoc]
  · rintro ⟨m, h, h'⟩
    exact h.trans h'

/-- Extending in two steps, where what is asked after the first step is as true after the second. -/
theorem exists_extends_and {P Q : Prop} {R : Bindings → Prop}
    (stable : ∀ m, b.Extends xs m → m.Extends ys s → (R m ↔ P)) :
    (∃ m, (b.Extends xs m ∧ R m) ∧ m.Extends ys s ∧ Q) ↔ b.Extends (xs ++ ys) s ∧ P ∧ Q := by
  rw [extends_append]
  constructor
  · rintro ⟨m, ⟨h, hR⟩, h', hQ⟩
    exact ⟨⟨m, h, h'⟩, (stable m h h').1 hR, hQ⟩
  · rintro ⟨⟨m, h, h'⟩, hP, hQ⟩
    exact ⟨m, ⟨h, (stable m h h').2 hP⟩, h', hQ⟩

theorem mem_unify {k a : Term} : s ∈ b.unify k a ↔ b.Extends [k] s ∧ s.get? k = some a := by
  have only : ∀ m, b.Extends [k] m → m.get? k = some a →
      (s = m ↔ b.Extends [k] s ∧ s.get? k = some a) := by
    intro m hm hv
    constructor
    · rintro rfl; exact ⟨hm, hv⟩
    · rintro ⟨hs, hs'⟩
      apply hs.ext hm
      intro k' hk'
      rw [List.mem_singleton.1 hk', hs', hv]
  unfold unify
  cases hk : b.get? k with
  | some v =>
    have hb : b.Extends [k] b := by
      refine ⟨fun _ _ hv => hv, fun k' => ?_⟩
      rw [List.mem_singleton, iff_self_or]
      rintro rfl
      rw [mem_keys, hk]; rfl
    by_cases hv : v = a
    · subst hv
      simp [← only b hb hk]
    · simp only [hv, if_false, List.not_mem_nil, false_iff]
      rintro ⟨hs, hs'⟩
      rw [hs.keeps k v hk] at hs'
      exact hv (Option.some.inj hs')
  | none =>
    have hb : b.Extends [k] (b.insert k a) := by
      constructor
      · intro k' v' hv'
        rw [get?_insert, if_neg]
        · exact hv'
        · rintro rfl; rw [hk] at hv'; cases hv'
      · intro k'
        rw [mem_keys, mem_keys, get?_insert]
        by_cases e : k' = k <;> simp [e]
    simp only [List.mem_singleton]
    exact only _ hb (get?_insert_self b k a)

end

end Bindings

/-! ## The meaning of a match -/

theorem Term.mem_slots_self {a : Term} (h : a.isSlot = true) : a ∈ a.slots := by
  cases a with
  | var | blank => exact List.mem_singleton_self _
  | literal | iri | formula => cases h

theorem Triple.mem_slots {t : Triple} {k : Term} : k ∈ t.slots ↔ ∃ a ∈ t.terms, k ∈ a.slots := by
  obtain ⟨s, p, o⟩ := t
  simp [slots, terms]

theorem Triple.mem_allSlots {cs : List Triple} {k : Term} : k ∈ allSlots cs ↔ ∃ c ∈ cs, k ∈ c.slots := by
  rw [allSlots_eq_flatMap, List.mem_flatMap]

mutual

/-- Whether the pattern, the first term, matches the second one under the bindings. -/
def Term.Matches : Term → Term → Bindings → Prop
  | .literal l, a, _ => a = .literal l
  | .iri i, a, _ => a = .iri i
  | .var x, a, s => a.isVar = false ∧ s.get? (.var x) = some a
  | .blank x, a, s => a.isVar = false ∧ s.get? (.blank x) = some a
  | .formula cs, .formula ts, s => Triple.AllMatch cs ts s
  | .formula _, _, _ => False

def Triple.Matches : Triple → Triple → Bindings → Prop
  | ⟨s, p, o⟩, t, b => s.Matches t.subject b ∧ p.Matches t.predicate b ∧ o.Matches t.object b

/-- Whether every clause of the first list matches some triple of the second one. -/
def Triple.AllMatch : List Triple → List Triple → Bindings → Prop
  | [], _, _ => True
  | c :: cs, ts, s => (∃ t ∈ ts, c.Matches t s) ∧ Triple.AllMatch cs ts s

end

theorem Triple.allMatch_iff {cs ts : List Triple} {s : Bindings} :
    AllMatch cs ts s ↔ ∀ c ∈ cs, ∃ t ∈ ts, c.Matches t s := by
  induction cs with
  | nil => simp [AllMatch]
  | cons c cs ih => simp [AllMatch, ih]

theorem Term.not_matches_var (a : Term) (x : String) (s : Bindings) : ¬ a.Matches (.var x) s := by
  cases a <;> simp [Term.Matches, Term.isVar]

mutual

theorem Term.matches_congr {s s' : Bindings} : (a t : Term) →
    (∀ k ∈ a.slots, s.get? k = s'.get? k) → (a.Matches t s ↔ a.Matches t s')
  | .literal _, _, _ | .iri _, _, _ => by simp only [Term.Matches]
  | .var x, _, h | .blank x, _, h => by simp only [Term.Matches, h _ (List.mem_singleton_self _)]
  | .formula cs, .formula ts, h => by
    simp only [Term.Matches]
    exact Triple.allMatch_congr cs ts h
  | .formula _, .literal _, _ | .formula _, .iri _, _ | .formula _, .var _, _
  | .formula _, .blank _, _ => by simp only [Term.Matches]

theorem Triple.matches_congr {s s' : Bindings} : (c t : Triple) →
    (∀ k ∈ c.slots, s.get? k = s'.get? k) → (c.Matches t s ↔ c.Matches t s')
  | ⟨a, p, o⟩, t, h => by
    simp only [Triple.slots, List.mem_append] at h
    simp only [Triple.Matches]
    rw [Term.matches_congr a t.subject fun k hk => h k (.inl (.inl hk)),
      Term.matches_congr p t.predicate fun k hk => h k (.inl (.inr hk)),
      Term.matches_congr o t.object fun k hk => h k (.inr hk)]

theorem Triple.allMatch_congr {s s' : Bindings} : (cs ts : List Triple) →
    (∀ k ∈ Triple.allSlots cs, s.get? k = s'.get? k) →
      (Triple.AllMatch cs ts s ↔ Triple.AllMatch cs ts s')
  | [], _, _ => Iff.rfl
  | c :: cs, ts, h => by
    simp only [Triple.allSlots, List.mem_append] at h
    simp only [Triple.AllMatch]
    rw [Triple.allMatch_congr cs ts fun k hk => h k (.inr hk)]
    simp only [Triple.matches_congr c _ fun k hk => h k (.inl hk)]

end

/-- A match still holds, and held already, once further slots have values. -/
theorem Bindings.Extends.values_eq {b m s : Bindings} {xs ys : List Term} (h : b.Extends xs m)
    (h' : m.Extends ys s) : ∀ k ∈ xs, m.get? k = s.get? k :=
  fun k hk => (h'.get?_eq ((h.keys k).2 (.inr hk))).symm

mutual

theorem Term.mem_bind {s : Bindings} : (a t : Term) → (b : Bindings) →
    (s ∈ a.bind t b ↔ b.Extends a.slots s ∧ a.Matches t s)
  | a, .var x, b => by
    have : a.bind (.var x) b = [] := by cases a <;> rfl
    simp [this, Term.not_matches_var]
  | .literal l, .literal _, b | .literal l, .iri _, b | .literal l, .blank _, b
  | .literal l, .formula _, b => by
    simp only [Term.bind, Term.slots, Term.Matches, Bindings.extends_nil]
    split <;> simp_all
  | .iri l, .literal _, b | .iri l, .iri _, b | .iri l, .blank _, b | .iri l, .formula _, b => by
    simp only [Term.bind, Term.slots, Term.Matches, Bindings.extends_nil]
    split <;> simp_all
  | .var x, .literal _, b | .var x, .iri _, b | .var x, .blank _, b | .var x, .formula _, b
  | .blank x, .literal _, b | .blank x, .iri _, b | .blank x, .blank _, b
  | .blank x, .formula _, b => by
    simp only [Term.bind, Term.slots, Term.Matches, Bindings.mem_unify, Term.isVar, true_and]
  | .formula cs, .formula ts, b => by
    simp only [Term.bind, Term.slots, Term.Matches]
    rw [Triple.mem_bindAll cs ts b]
  | .formula _, .literal _, b | .formula _, .iri _, b | .formula _, .blank _, b => by
    simp [Term.bind, Term.Matches]

theorem Triple.mem_bind {s : Bindings} : (c t : Triple) → (b : Bindings) →
    (s ∈ c.bind t b ↔ b.Extends c.slots s ∧ c.Matches t s)
  | ⟨a, p, o⟩, t, b => by
    simp only [Triple.bind, List.mem_flatMap, Triple.slots, Triple.Matches, List.append_assoc]
    -- The positions are matched in turn; each step leaves the matches before it as they were.
    have inner : ∀ m, (∃ n ∈ p.bind t.predicate m, s ∈ o.bind t.object n) ↔
        m.Extends (p.slots ++ o.slots) s ∧ p.Matches t.predicate s ∧ o.Matches t.object s := by
      intro m
      simp only [Term.mem_bind p t.predicate, Term.mem_bind o t.object]
      exact Bindings.exists_extends_and fun n h h' => Term.matches_congr _ _ (h.values_eq h')
    simp only [inner, Term.mem_bind a t.subject]
    exact Bindings.exists_extends_and fun m h h' => Term.matches_congr _ _ (h.values_eq h')

/-- Matching clauses lists the bindings under which each of them matches some triple. -/
theorem Triple.mem_bindAll {s : Bindings} : (cs ts : List Triple) → (b : Bindings) →
    (s ∈ Triple.bindAll cs ts b ↔ b.Extends (Triple.allSlots cs) s ∧ Triple.AllMatch cs ts s)
  | [], _, b => by
    simp only [Triple.bindAll, Triple.allSlots, Triple.AllMatch, and_true, Bindings.extends_nil,
      List.mem_singleton]
  | c :: cs, ts, b => by
    have here : ∀ m, m ∈ (ts.flatMap fun t => c.bind t b) ↔
        b.Extends c.slots m ∧ ∃ t ∈ ts, c.Matches t m := by
      intro m
      simp only [List.mem_flatMap, Triple.mem_bind c]
      constructor
      · rintro ⟨t, ht, h, hm⟩; exact ⟨h, t, ht, hm⟩
      · rintro ⟨h, t, ht, hm⟩; exact ⟨t, ht, h, hm⟩
    simp only [Triple.bindAll, Triple.allSlots, Triple.AllMatch]
    rw [List.mem_flatMap]
    simp only [here, Triple.mem_bindAll cs ts]
    refine Bindings.exists_extends_and fun m h h' => ?_
    simp only [Triple.matches_congr c _ (h.values_eq h')]

end

/-! ## No binding twice -/

/-- No quoted formula stands in a position of the clause. -/
def Triple.IsFlat (c : Triple) : Prop := ∀ a ∈ c.terms, a.isFormula = false

instance (c : Triple) : Decidable c.IsFlat := inferInstanceAs (Decidable (∀ a ∈ c.terms, _))

theorem Triple.isFlat_iff {c : Triple} : c.IsFlat ↔ c.subject.isFormula = false ∧
    c.predicate.isFormula = false ∧ c.object.isFormula = false := by
  simp [Triple.IsFlat, Triple.terms]

theorem Term.matches_unique {a t u : Term} {s : Bindings} (h : a.isFormula = false)
    (ht : a.Matches t s) (hu : a.Matches u s) : t = u := by
  cases a with
  | literal l => rw [Term.Matches] at ht hu; rw [ht, hu]
  | iri i => rw [Term.Matches] at ht hu; rw [ht, hu]
  | var x => rw [Term.Matches] at ht hu; exact Option.some.inj (ht.2.symm.trans hu.2)
  | blank x => rw [Term.Matches] at ht hu; exact Option.some.inj (ht.2.symm.trans hu.2)
  | formula cs => simp [Term.isFormula] at h

theorem Triple.matches_unique {c t u : Triple} {s : Bindings} (h : c.IsFlat)
    (ht : c.Matches t s) (hu : c.Matches u s) : t = u := by
  obtain ⟨h₁, h₂, h₃⟩ := Triple.isFlat_iff.1 h
  obtain ⟨a, p, o⟩ := c
  obtain ⟨t₁, t₂, t₃⟩ := t
  obtain ⟨u₁, u₂, u₃⟩ := u
  rw [Triple.Matches] at ht hu
  obtain rfl : t₁ = u₁ := Term.matches_unique h₁ ht.1 hu.1
  obtain rfl : t₂ = u₂ := Term.matches_unique h₂ ht.2.1 hu.2.1
  obtain rfl : t₃ = u₃ := Term.matches_unique h₃ ht.2.2 hu.2.2
  rfl

theorem Bindings.length_unify_le (b : Bindings) (k a : Term) : (b.unify k a).length ≤ 1 := by
  unfold Bindings.unify
  split
  · split <;> simp
  · simp

theorem Term.length_bind_le {a : Term} (h : a.isFormula = false) (t : Term) (b : Bindings) :
    (a.bind t b).length ≤ 1 := by
  cases a with
  | literal l => cases t <;> simp only [Term.bind] <;> (try split) <;> simp
  | iri i => cases t <;> simp only [Term.bind] <;> (try split) <;> simp
  | var x => cases t <;> simp only [Term.bind, b.length_unify_le, List.length_nil, Nat.zero_le]
  | blank x => cases t <;> simp only [Term.bind, b.length_unify_le, List.length_nil, Nat.zero_le]
  | formula cs => simp [Term.isFormula] at h

theorem length_flatMap_le_one {α β : Type} {l : List α} {f : α → List β} (hl : l.length ≤ 1)
    (hf : ∀ a, (f a).length ≤ 1) : (l.flatMap f).length ≤ 1 := by
  match l, hl with
  | [], _ => simp
  | [a], _ => simpa using hf a

theorem nodup_of_length_le_one {α : Type} {l : List α} (h : l.length ≤ 1) : l.Nodup := by
  match l, h with
  | [], _ => exact List.nodup_nil
  | [a], _ => exact List.nodup_singleton a

theorem Triple.nodup_bind {c : Triple} (h : c.IsFlat) (t : Triple) (b : Bindings) :
    (c.bind t b).Nodup := by
  obtain ⟨h₁, h₂, h₃⟩ := Triple.isFlat_iff.1 h
  obtain ⟨a, p, o⟩ := c
  rw [Triple.bind]
  exact nodup_of_length_le_one (length_flatMap_le_one (Term.length_bind_le h₁ _ _) fun m =>
    length_flatMap_le_one (Term.length_bind_le h₂ _ _) fun n => Term.length_bind_le h₃ _ _)

theorem Triple.nodup_bindAll {ts : List Triple} (hts : ts.Nodup) : (cs : List Triple) →
    (b : Bindings) → (∀ c ∈ cs, c.IsFlat) → (Triple.bindAll cs ts b).Nodup
  | [], b, _ => by
    rw [Triple.bindAll]
    exact List.nodup_singleton b
  | c :: cs, b, h => by
    have hc : c.IsFlat := h c (List.mem_cons_self ..)
    rw [Triple.bindAll, List.nodup_flatMap]
    constructor
    · intro m _
      exact Triple.nodup_bindAll hts cs m fun d hd => h d (List.mem_cons_of_mem _ hd)
    · have here : (ts.flatMap fun t => c.bind t b).Nodup := by
        rw [List.nodup_flatMap]
        refine ⟨fun t _ => Triple.nodup_bind hc t b, hts.imp fun {t u} ne m ht hu => ne ?_⟩
        exact Triple.matches_unique hc ((Triple.mem_bind c t b).1 ht).2 ((Triple.mem_bind c u b).1 hu).2
      refine here.imp_of_mem fun {m m'} hm hm' ne s hs hs' => ne ?_
      obtain ⟨t, _, hm⟩ := List.mem_flatMap.1 hm
      obtain ⟨t', _, hm'⟩ := List.mem_flatMap.1 hm'
      exact ((Triple.mem_bind c t b).1 hm).1.unique ((Triple.mem_bind c t' b).1 hm').1
        ((Triple.mem_bindAll cs ts m).1 hs).1 ((Triple.mem_bindAll cs ts m').1 hs').1

end TripleChain
