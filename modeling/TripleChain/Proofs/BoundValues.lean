import TripleChain.Proofs.Scopes

/-!
# What holds of all values

A search takes its values from the store and from the formulas that it opens as scopes. So a property of
terms that what stands inside a formula inherits, with bindings put in too, holds of every value found, if
it holds of the facts, of the values at the start and of the scopes written in the clauses
(`searchInvariant_within`).
-/

namespace TripleChain

/-- The terms inside a formula with the property have it too. -/
structure Inherited (P : Term → Prop) : Prop where
  literal : ∀ l, P (.literal l)
  inside : ∀ F, P (.formula F) → ∀ t ∈ F, ∀ a ∈ t.terms, P a

def Bindings.Within (P : Term → Prop) (b : Bindings) : Prop := ∀ k v, b.get? k = some v → P v

def Store.Within (P : Term → Prop) (store : Store) : Prop := ∀ t ∈ store.toList, ∀ a ∈ t.terms, P a

/-- So have the terms inside it with the values put in. -/
def Bindings.KeepsInside (P : Term → Prop) (b : Bindings) : Prop :=
  ∀ F, P (.formula F) → ∀ t ∈ F, ∀ a ∈ t.terms, P (a.substitute b)

/-- Putting in values with the property keeps it, whichever slots they are for. -/
def Substitutes (P : Term → Prop) : Prop := ∀ b : Bindings, b.Within P → b.KeepsInside P

section
variable {P : Term → Prop} {b : Bindings}

theorem Bindings.within_empty : (∅ : Bindings).Within P := by
  intro k v h
  cases h

theorem Bindings.Within.insert (h : b.Within P) (k : Term) {a : Term} (ha : P a) :
    (b.insert k a).Within P := by
  intro k' v hv
  rw [get?_insert] at hv
  by_cases hk : k' = k
  · rw [if_pos hk] at hv
    exact Option.some.inj hv ▸ ha
  · rw [if_neg hk] at hv
    exact h k' v hv

theorem Bindings.Within.unify (h : b.Within P) {k a : Term} (ha : P a) {s : Bindings} (hs : s ∈ b.unify k a) :
    s.Within P := by
  unfold Bindings.unify at hs
  split at hs
  · split at hs
    · rw [List.mem_singleton.1 hs]
      exact h
    · exact absurd hs List.not_mem_nil
  · rw [List.mem_singleton.1 hs]
    exact h.insert k ha

theorem Term.resolve_within (hb : b.Within P) {a v : Term} (ha : a.isSlot = false → P a)
    (hv : a.resolve b = some v) : P v := by
  unfold resolve at hv
  split at hv
  · exact hb a v hv
  · next h =>
    obtain rfl := Option.some.inj hv
    exact ha (by simpa using h)

mutual

theorem Term.within_bind (hP : Inherited P) : (a t : Term) → P t → (b : Bindings) → b.Within P →
    ∀ s ∈ a.bind t b, s.Within P
  | a, .var x, _, b, _, s, hs => by
    have none : a.bind (.var x) b = [] := by cases a <;> rfl
    rw [none] at hs
    exact absurd hs List.not_mem_nil
  | .literal l, .literal _, _, b, h, s, hs | .literal l, .iri _, _, b, h, s, hs
  | .literal l, .blank _, _, b, h, s, hs | .literal l, .formula _, _, b, h, s, hs
  | .iri l, .literal _, _, b, h, s, hs | .iri l, .iri _, _, b, h, s, hs
  | .iri l, .blank _, _, b, h, s, hs | .iri l, .formula _, _, b, h, s, hs => by
    simp only [Term.bind] at hs
    split at hs
    · rw [List.mem_singleton.1 hs]
      exact h
    · exact absurd hs List.not_mem_nil
  | .var x, .literal _, ht, b, h, s, hs | .var x, .iri _, ht, b, h, s, hs
  | .var x, .blank _, ht, b, h, s, hs | .var x, .formula _, ht, b, h, s, hs
  | .blank x, .literal _, ht, b, h, s, hs | .blank x, .iri _, ht, b, h, s, hs
  | .blank x, .blank _, ht, b, h, s, hs | .blank x, .formula _, ht, b, h, s, hs => by
    simp only [Term.bind] at hs
    exact h.unify ht hs
  | .formula cs, .formula ts, ht, b, h, s, hs => by
    simp only [Term.bind] at hs
    exact Triple.within_bindAll hP cs ts (hP.inside ts ht) b h s hs
  | .formula _, .literal _, _, b, _, s, hs | .formula _, .iri _, _, b, _, s, hs
  | .formula _, .blank _, _, b, _, s, hs => by
    simp only [Term.bind] at hs
    exact absurd hs List.not_mem_nil

theorem Triple.within_bind (hP : Inherited P) : (c t : Triple) → (∀ a ∈ t.terms, P a) → (b : Bindings) →
    b.Within P → ∀ s ∈ c.bind t b, s.Within P
  | ⟨a, p, o⟩, t, ht, b, h, s, hs => by
    simp only [Triple.terms, List.forall_mem_cons] at ht
    obtain ⟨h₁, h₂, h₃, -⟩ := ht
    simp only [Triple.bind, List.mem_flatMap] at hs
    obtain ⟨m, hm, n, hn, hs⟩ := hs
    have hm' := Term.within_bind hP a t.subject h₁ b h m hm
    have hn' := Term.within_bind hP p t.predicate h₂ m hm' n hn
    exact Term.within_bind hP o t.object h₃ n hn' s hs

theorem Triple.within_bindAll (hP : Inherited P) : (cs ts : List Triple) → (∀ t ∈ ts, ∀ a ∈ t.terms, P a) →
    (b : Bindings) → b.Within P → ∀ s ∈ Triple.bindAll cs ts b, s.Within P
  | [], _, _, b, h, s, hs => by
    rw [Triple.bindAll, List.mem_singleton] at hs
    exact hs ▸ h
  | c :: cs, ts, hts, b, h, s, hs => by
    simp only [Triple.bindAll, List.mem_flatMap] at hs
    obtain ⟨m, ⟨t, ht, hm⟩, hs⟩ := hs
    exact Triple.within_bindAll hP cs ts hts m (Triple.within_bind hP c t (hts t ht) b h m hm) s hs

end

theorem Builtin.within_evalPlain (hP : Inherited P) (f : Builtin) {s o : Term} (hb : b.Within P) :
    ∀ m ∈ f.evalPlain s o b, m.Within P := by
  intro m hm
  rcases f.mem_evalPlain hm with rfl | ⟨k, -, l, -, rfl⟩
  · exact hb
  · exact hb.insert k (hP.literal l)

end

theorem Triple.terms_substitute (t : Triple) (b : Bindings) :
    (t.substitute b).terms = t.terms.map fun a => a.substitute b := by
  cases t
  rfl

/-- A property of terms that a formula has if its triples have another one, which putting values in cannot
undo. -/
structure Compositional (P : Term → Prop) (Q : Triple → Prop) : Prop where
  literal : ∀ l, P (.literal l)
  formula : ∀ ts, P (.formula ts) ↔ ∀ t ∈ ts, Q t
  terms : ∀ t, Q t → ∀ a ∈ t.terms, P a
  substitute : ∀ t b, Q t → (∀ a ∈ t.terms, P (a.substitute b)) → Q (t.substitute b)

mutual

theorem Term.substitute_within {P : Term → Prop} {Q : Triple → Prop} (h : Compositional P Q) {b : Bindings}
    (hb : b.Within P) : (a : Term) → P a → P (a.substitute b)
  | .literal _, ha | .iri _, ha => by simpa only [Term.substitute] using ha
  | .var x, ha | .blank x, ha => by
    simp only [Term.substitute]
    cases hv : b.get? _ with
    | none => exact ha
    | some v => exact hb _ v hv
  | .formula ts, ha => by
    rw [Term.substitute, h.formula]
    intro t ht
    exact Triple.substituteAll_within h hb ts ((h.formula ts).1 ha) t (Formula.mem_ofList.1 ht)

theorem Triple.substitute_within {P : Term → Prop} {Q : Triple → Prop} (h : Compositional P Q) {b : Bindings}
    (hb : b.Within P) : (t : Triple) → Q t → Q (t.substitute b)
  | ⟨s, p, o⟩, ht => by
    have terms := h.terms _ ht
    simp only [Triple.terms, List.forall_mem_cons] at terms
    refine h.substitute _ b ht (List.forall_mem_cons.2 ⟨Term.substitute_within h hb s terms.1, ?_⟩)
    exact List.forall_mem_cons.2 ⟨Term.substitute_within h hb p terms.2.1,
      List.forall_mem_singleton.2 (Term.substitute_within h hb o terms.2.2.1)⟩

theorem Triple.substituteAll_within {P : Term → Prop} {Q : Triple → Prop} (h : Compositional P Q)
    {b : Bindings} (hb : b.Within P) : (ts : List Triple) → (∀ t ∈ ts, Q t) →
      ∀ u ∈ Triple.substituteAll ts b, Q u
  | [], _, u, hu => absurd hu List.not_mem_nil
  | t :: ts, hts, u, hu => by
    rw [Triple.substituteAll, List.mem_cons] at hu
    rcases hu with rfl | hu
    · exact Triple.substitute_within h hb t (hts t (List.mem_cons_self ..))
    · exact Triple.substituteAll_within h hb ts (fun t ht => hts t (List.mem_cons_of_mem _ ht)) u hu

end

section
variable {P : Term → Prop} {Q : Triple → Prop}

theorem Compositional.inherited (h : Compositional P Q) : Inherited P :=
  ⟨h.literal, fun F hF t ht => h.terms t ((h.formula F).1 hF t ht)⟩

theorem Compositional.substitutes (h : Compositional P Q) : Substitutes P :=
  fun _ hb F hF t ht a ha => Term.substitute_within h hb a (h.inherited.inside F hF t ht a ha)

end

/-! ## Scopes -/

mutual

/-- The scopes written in the clauses that the term quotes have the property, as far as clauses can be
matched: the object of an inclusion is made of clauses again. -/
def Term.ScopesIn (P : Term → Prop) : Term → Prop
  | .formula ts => Triple.AllScopesIn P ts
  | .literal _ | .iri _ | .var _ | .blank _ => True

def Triple.ScopesIn (P : Term → Prop) : Triple → Prop
  | ⟨s, p, o⟩ => (⟨s, p, o⟩ : Triple).ScopeFree ∨ (s.isSlot = false → P s) ∧ o.ScopesIn P

def Triple.AllScopesIn (P : Term → Prop) : List Triple → Prop
  | [] => True
  | c :: cs => c.ScopesIn P ∧ Triple.AllScopesIn P cs

end

theorem Triple.allScopesIn_iff {P : Term → Prop} {cs : List Triple} :
    AllScopesIn P cs ↔ ∀ c ∈ cs, c.ScopesIn P := by
  induction cs with
  | nil => simp [AllScopesIn]
  | cons c cs ih => simp [AllScopesIn, ih]

mutual

theorem Term.scopesIn {P : Term → Prop} (hP : Inherited P) : (a : Term) → P a → a.ScopesIn P
  | .literal _, _ | .iri _, _ | .var _, _ | .blank _, _ => trivial
  | .formula ts, h => Triple.allScopesIn hP ts (hP.inside ts h)

theorem Triple.scopesIn {P : Term → Prop} (hP : Inherited P) : (c : Triple) → (∀ a ∈ c.terms, P a) →
    c.ScopesIn P
  | ⟨s, p, o⟩, h =>
    .inr ⟨fun _ => h s (by simp [Triple.terms]), Term.scopesIn hP o (h o (by simp [Triple.terms]))⟩

theorem Triple.allScopesIn {P : Term → Prop} (hP : Inherited P) : (cs : List Triple) →
    (∀ c ∈ cs, ∀ a ∈ c.terms, P a) → Triple.AllScopesIn P cs
  | [], _ => trivial
  | c :: cs, h => ⟨Triple.scopesIn hP c (h c (List.mem_cons_self ..)),
    Triple.allScopesIn hP cs fun d hd => h d (List.mem_cons_of_mem _ hd)⟩

end

mutual

/-- Two properties of the scopes that make a third one. -/
theorem Term.ScopesIn.combine {P P' R : Term → Prop} (h : ∀ a, P a → P' a → R a) :
    {a : Term} → a.ScopesIn P → a.ScopesIn P' → a.ScopesIn R
  | .formula _, hP, hP' => Triple.AllScopesIn.combine h hP hP'
  | .literal _, _, _ | .iri _, _, _ | .var _, _, _ | .blank _, _, _ => trivial

theorem Triple.ScopesIn.combine {P P' R : Term → Prop} (h : ∀ a, P a → P' a → R a) :
    {c : Triple} → c.ScopesIn P → c.ScopesIn P' → c.ScopesIn R
  | ⟨s, _, _⟩, .inr ⟨hs, ho⟩, .inr ⟨hs', ho'⟩ =>
    .inr ⟨fun slot => h s (hs slot) (hs' slot), Term.ScopesIn.combine h ho ho'⟩
  | ⟨_, _, _⟩, .inl free, _ | ⟨_, _, _⟩, _, .inl free => .inl free

theorem Triple.AllScopesIn.combine {P P' R : Term → Prop} (h : ∀ a, P a → P' a → R a) :
    {cs : List Triple} → Triple.AllScopesIn P cs → Triple.AllScopesIn P' cs → Triple.AllScopesIn R cs
  | [], _, _ => trivial
  | _ :: _, hP, hP' => ⟨Triple.ScopesIn.combine h hP.1 hP'.1, Triple.AllScopesIn.combine h hP.2 hP'.2⟩

end

/-! ## Searches -/

section
variable {P : Term → Prop} {store : Store} {s o : Term} {c : Triple} {b : Bindings}

theorem Builtin.within_scope (hsub : b.KeepsInside P) (hb : b.Within P) (hs : s.isSlot = false → P s)
    {scope : Formula} (h : s.resolve b = some (.formula scope)) :
    (Store.formula (Formula.substitute scope b)).Within P := by
  have hscope := Term.resolve_within hb hs h
  intro t ht a ha
  obtain ⟨u, hu, rfl⟩ := List.mem_map.1 (Formula.mem_ofList.1 ht)
  rw [Triple.terms_substitute] at ha
  obtain ⟨c, hc, rfl⟩ := List.mem_map.1 ha
  exact hsub scope hscope u hu c hc

theorem Builtin.within_task (hP : Inherited P) (hsub : b.KeepsInside P) (hstore : store.Within P)
    (hb : b.Within P) (hs : s.isSlot = false → P s) (ho : o.ScopesIn P) {t : Task}
    (h : task? store s o b = some t) : t.store.Within P ∧ ∀ c ∈ t.clauses, c.ScopesIn P := by
  obtain ⟨F, hF, hclauses, -, hscope⟩ := task?_eq_some h
  constructor
  · rcases hscope with e | ⟨scope, hscope, e⟩
    · exact e ▸ hstore
    · exact e ▸ within_scope hsub hb hs hscope
  · have scopes : (Term.formula F).ScopesIn P := by
      unfold Term.resolve at hF
      split at hF
      · exact Term.scopesIn hP _ (hb o _ hF)
      · exact Option.some.inj hF ▸ ho
    exact fun c hc => Triple.allScopesIn_iff.1 scopes c (hclauses c hc)

/-- The values found have the property, if the data and the written scopes have it. -/
theorem searchInvariant_within (hP : Inherited P) (hsub : Substitutes P) :
    SearchInvariant (fun b => b.Within P) (fun store => store.Within P) (fun c => c.ScopesIn P) where
  stored _ c b t hstore _ hb ht := Triple.within_bind hP c t (hstore t ht) b hb
  computed _ _ f _ hb := Builtin.within_evalPlain hP f hb
  scope store c b t hstore hc hb ht := by
    obtain ⟨s, p, o⟩ := c
    obtain ⟨opens, task⟩ := Triple.task?_eq_some ht
    obtain ⟨hs, ho⟩ := hc.resolve_left opens
    exact Builtin.within_task hP (hsub b hb) hstore hb hs ho task

end

end TripleChain
