import TripleChain.Proofs.Pairing
import TripleChain.Proofs.Passes

/-!
# Instances of clauses

A match of scope-free clauses in one store is a match in another as soon as every stored clause
matches some triple there (`mem_solutions_of_matches`). A clause that matches a fact matches its own
instance, also where it quotes formulas; so the instances of the guard and the rest of a condition
suffice for the matches of the whole condition (`derive_instances`). Instances of clauses that quote
nothing are facts (`mem_instances`).
-/

namespace TripleChain

/-! ## Instances match -/

mutual

theorem Term.matches_substitute {s : Bindings} : (a t : Term) → a.Matches t s → a.Matches (a.substitute s) s
  | .literal _, _, _ | .iri _, _, _ => by simp only [Term.substitute, Term.Matches]
  | .var x, t, h | .blank x, t, h => by
    rw [Term.Matches] at h
    simp only [Term.substitute, Term.Matches, h.2, Option.getD_some]
    exact ⟨h.1, trivial⟩
  | .formula cs, .formula ts, h => by
    rw [Term.Matches] at h
    rw [Term.substitute, Term.Matches, Triple.allMatch_iff]
    intro c hc
    obtain ⟨hm, hmem⟩ := Triple.matches_substituteAll cs ts h c hc
    exact ⟨_, Formula.mem_ofList.2 hmem, hm⟩
  | .formula _, .literal _, h | .formula _, .iri _, h | .formula _, .var _, h
  | .formula _, .blank _, h => by simp only [Term.Matches] at h

theorem Triple.matches_substitute {s : Bindings} : (c t : Triple) → c.Matches t s →
    c.Matches (c.substitute s) s
  | ⟨a, p, o⟩, t, h => by
    rw [Triple.Matches] at h
    rw [Triple.substitute, Triple.Matches]
    exact ⟨Term.matches_substitute a _ h.1, Term.matches_substitute p _ h.2.1,
      Term.matches_substitute o _ h.2.2⟩

theorem Triple.matches_substituteAll {s : Bindings} : (cs ts : List Triple) → Triple.AllMatch cs ts s →
    ∀ c ∈ cs, c.Matches (c.substitute s) s ∧ c.substitute s ∈ Triple.substituteAll cs s
  | [], _, _ => fun _ hc => absurd hc List.not_mem_nil
  | d :: cs, ts, h => by
    rw [Triple.AllMatch] at h
    obtain ⟨⟨t, -, hd⟩, h⟩ := h
    have here := Triple.matches_substitute d t hd
    have rest := Triple.matches_substituteAll cs ts h
    rw [Triple.substituteAll]
    refine List.forall_mem_cons.2 ⟨⟨here, List.mem_cons_self ..⟩, fun c hc => ?_⟩
    exact ⟨(rest c hc).1, List.mem_cons_of_mem _ (rest c hc).2⟩

end

mutual

theorem Term.exists_value_of_matches {s : Bindings} : (a t : Term) → a.Matches t s →
    ∀ k ∈ a.slots, ∃ v, s.get? k = some v ∧ v.isVar = false
  | .literal _, _, _, k, hk | .iri _, _, _, k, hk => absurd hk List.not_mem_nil
  | .var x, t, h, k, hk | .blank x, t, h, k, hk => by
    rw [Term.Matches] at h
    rw [Term.slots, List.mem_singleton] at hk
    exact ⟨t, hk ▸ h.2, h.1⟩
  | .formula cs, .formula ts, h, k, hk => by
    rw [Term.Matches] at h
    exact Triple.exists_value_of_allMatch cs ts h k hk
  | .formula _, .literal _, h, _, _ | .formula _, .iri _, h, _, _ | .formula _, .var _, h, _, _
  | .formula _, .blank _, h, _, _ => by simp only [Term.Matches] at h

theorem Triple.exists_value_of_matches {s : Bindings} : (c t : Triple) → c.Matches t s →
    ∀ k ∈ c.slots, ∃ v, s.get? k = some v ∧ v.isVar = false
  | ⟨a, p, o⟩, t, h, k, hk => by
    rw [Triple.Matches] at h
    simp only [Triple.slots, List.mem_append] at hk
    rcases hk with (hk | hk) | hk
    · exact Term.exists_value_of_matches a _ h.1 k hk
    · exact Term.exists_value_of_matches p _ h.2.1 k hk
    · exact Term.exists_value_of_matches o _ h.2.2 k hk

theorem Triple.exists_value_of_allMatch {s : Bindings} : (cs ts : List Triple) →
    Triple.AllMatch cs ts s → ∀ k ∈ Triple.allSlots cs, ∃ v, s.get? k = some v ∧ v.isVar = false
  | [], _, _, k, hk => absurd hk List.not_mem_nil
  | c :: cs, ts, h, k, hk => by
    rw [Triple.AllMatch] at h
    obtain ⟨⟨t, -, hc⟩, h⟩ := h
    rw [Triple.allSlots, List.mem_append] at hk
    rcases hk with hk | hk
    · exact Triple.exists_value_of_matches c t hc k hk
    · exact Triple.exists_value_of_allMatch cs ts h k hk

end

mutual

theorem Term.substitute_congr {s s' : Bindings} : (a : Term) →
    (∀ k ∈ a.slots, s.get? k = s'.get? k) → a.substitute s = a.substitute s'
  | .literal _, _ | .iri _, _ => by simp only [Term.substitute]
  | .var x, h | .blank x, h => by
    simp only [Term.substitute, h _ (List.mem_singleton_self _)]
  | .formula ts, h => by
    simp only [Term.substitute, Triple.substituteAll_congr ts h]

theorem Triple.substitute_congr {s s' : Bindings} : (c : Triple) →
    (∀ k ∈ c.slots, s.get? k = s'.get? k) → c.substitute s = c.substitute s'
  | ⟨a, p, o⟩, h => by
    simp only [Triple.slots, List.mem_append] at h
    rw [Triple.substitute, Triple.substitute, Term.substitute_congr a fun k hk => h k (.inl (.inl hk)),
      Term.substitute_congr p fun k hk => h k (.inl (.inr hk)),
      Term.substitute_congr o fun k hk => h k (.inr hk)]

theorem Triple.substituteAll_congr {s s' : Bindings} : (cs : List Triple) →
    (∀ k ∈ Triple.allSlots cs, s.get? k = s'.get? k) →
      Triple.substituteAll cs s = Triple.substituteAll cs s'
  | [], _ => rfl
  | c :: cs, h => by
    simp only [Triple.allSlots, List.mem_append] at h
    rw [Triple.substituteAll, Triple.substituteAll, Triple.substitute_congr c fun k hk => h k (.inl hk),
      Triple.substituteAll_congr cs fun k hk => h k (.inr hk)]

end

theorem Term.assign_eq_substitute {a t : Term} {s : Bindings} (G : Formula) (h : a.Matches t s) :
    a.assign G s = a.substitute s := by
  unfold Term.assign
  rw [if_neg]
  intro hslot
  rw [Bool.and_eq_true] at hslot
  have hk : a ∈ a.slots := by cases a <;> simp_all [Term.isSlot, Term.slots]
  obtain ⟨v, hv, -⟩ := Term.exists_value_of_matches a t h a hk
  simp [Bindings.contains, hv] at hslot

theorem Triple.assign_eq_substitute {c t : Triple} {s : Bindings} (G : Formula) (h : c.Matches t s) :
    c.assign G s = c.substitute s := by
  obtain ⟨a, p, o⟩ := c
  rw [Triple.Matches] at h
  rw [Triple.assign, Triple.map, Triple.substitute, Term.assign_eq_substitute G h.1,
    Term.assign_eq_substitute G h.2.1, Term.assign_eq_substitute G h.2.2]

theorem Term.matches_assign_of_values {a : Term} {s : Bindings} (flat : a.isFormula = false) (G : Formula)
    (values : ∀ k ∈ a.slots, ∃ v, s.get? k = some v ∧ v.isVar = false) : a.Matches (a.assign G s) s := by
  have slot : ∀ {k : Term}, k.isSlot = true → (∃ v, s.get? k = some v ∧ v.isVar = false) →
      (k.assign G s).isVar = false ∧ s.get? k = some (k.assign G s) := by
    rintro k hk ⟨v, hv, hvar⟩
    have assigned : k.assign G s = v := by
      cases k <;> simp_all [Term.assign, Bindings.contains, Term.substitute, Term.isSlot]
    rw [assigned]
    exact ⟨hvar, hv⟩
  cases a with
  | literal | iri => rfl
  | formula => cases flat
  | var x | blank x => exact slot rfl (values _ (List.mem_singleton_self _))

theorem Triple.matches_assign_of_values {c : Triple} {s : Bindings} (flat : c.IsFlat) (G : Formula)
    (values : ∀ k ∈ c.slots, ∃ v, s.get? k = some v ∧ v.isVar = false) : c.Matches (c.assign G s) s := by
  obtain ⟨h₁, h₂, h₃⟩ := Triple.isFlat_iff.1 flat
  obtain ⟨a, p, o⟩ := c
  simp only [Triple.slots, List.mem_append] at values
  exact ⟨Term.matches_assign_of_values h₁ G fun k hk => values k (.inl (.inl hk)),
    Term.matches_assign_of_values h₂ G fun k hk => values k (.inl (.inr hk)),
    Term.matches_assign_of_values h₃ G fun k hk => values k (.inr hk)⟩

/-! ## Instances of whole facts -/

theorem Term.substitute_of_matches {a t : Term} {s : Bindings} (h : a.isFormula = false)
    (hm : a.Matches t s) : a.substitute s = t := by
  cases a with
  | literal l => rw [Term.Matches] at hm; rw [hm]; rfl
  | iri i => rw [Term.Matches] at hm; rw [hm]; rfl
  | var x =>
    rw [Term.Matches] at hm
    simp [Term.substitute, hm.2]
  | blank x =>
    rw [Term.Matches] at hm
    simp [Term.substitute, hm.2]
  | formula cs => simp [Term.isFormula] at h

/-- A clause that quotes nothing is, under its bindings, the fact that it matches. -/
theorem Triple.substitute_of_flat {c t : Triple} {s : Bindings} (h : c.IsFlat) (hm : c.Matches t s) :
    c.substitute s = t := by
  obtain ⟨h₁, h₂, h₃⟩ := Triple.isFlat_iff.1 h
  obtain ⟨a, p, o⟩ := c
  obtain ⟨t₁, t₂, t₃⟩ := t
  rw [Triple.Matches] at hm
  rw [Triple.substitute, Term.substitute_of_matches h₁ hm.1, Term.substitute_of_matches h₂ hm.2.1,
    Term.substitute_of_matches h₃ hm.2.2]

/-- So is a quoted pattern of one triple the formula of one triple that it matches. -/
theorem Term.substitute_of_single {d u : Triple} {s : Bindings} (flat : d.IsFlat)
    (h : (Term.formula [d]).Matches (.formula [u]) s) : (Term.formula [d]).substitute s = .formula [u] := by
  rw [Term.Matches, Triple.allMatch_iff] at h
  obtain ⟨t, ht, hm⟩ := h d (List.mem_singleton_self d)
  obtain rfl := List.mem_singleton.1 ht
  rw [Term.substitute, Triple.substituteAll, Triple.substituteAll, Triple.substitute_of_flat flat hm]
  rfl

theorem Guard.opensNoScope_of_stored {clauses : Formula} (stored : ∀ c ∈ clauses, c.isComputed = false) :
    (Rule.ofLists clauses clauses).OpensNoScope (Formula.ofList clauses) (Formula.ofList clauses) :=
  ⟨rfl, rfl, fun c hc => Triple.scopeFree_of_stored (stored c (Formula.mem_ofList.1 hc))⟩

namespace Guard

section
variable {config : Config} {store : Store} {clauses : Formula} (stored : ∀ c ∈ clauses, c.isComputed = false)
include stored

theorem mem_of_derive (whole : ∀ c ∈ clauses, ∀ t ∈ store.toList, ∀ s, c.Matches t s → c.substitute s = t)
    {D : OrderedSet Triple} (hD : (Rule.ofLists clauses clauses).derive config store = .ok D) {t : Triple}
    (ht : t ∈ D) : t ∈ store.toList := by
  obtain ⟨s, hs, c, hc, rfl⟩ := ((opensNoScope_of_stored stored).mem_derive hD).1 ht
  have ordered : ∀ d ∈ config.order (Formula.ofList clauses), d.isComputed = false :=
    fun d hd => stored d (Formula.mem_ofList.1 (Config.mem_order.1 hd))
  obtain ⟨u, hu, hm⟩ := ((Triple.mem_solutions_stored ordered).1 hs).2 c (Config.mem_order.2 hc)
  rwa [Triple.assign_eq_substitute _ hm, whole c (Formula.mem_ofList.1 hc) u hu s hm]

/-- The instances of stored clauses are facts, if the clauses match facts as a whole. -/
theorem mem_instances_of_whole
    (whole : ∀ c ∈ clauses, ∀ t ∈ store.toList, ∀ s, c.Matches t s → c.substitute s = t) {g : Graph}
    (h : Guard.instances config store clauses = .ok g) {t : Triple} (ht : t ∈ g.toList) :
    t ∈ store.toList := by
  unfold Guard.instances at h
  split at h
  · cases h
    exact absurd ht List.not_mem_nil
  · obtain ⟨D, hD, hg⟩ := bind_eq_ok.1 h
    exact mem_of_derive stored whole hD ((Graph.mem_ofList hg).1 ht)

variable (flat : ∀ c ∈ clauses, c.IsFlat)
include flat

theorem mem_instances {g : Graph} (h : Guard.instances config store clauses = .ok g) {t : Triple}
    (ht : t ∈ g.toList) : t ∈ store.toList :=
  mem_instances_of_whole stored (fun c hc _ _ _ hm => Triple.substitute_of_flat (flat c hc) hm) h ht

theorem exists_instances (noVar : ∀ t ∈ store.toList, t.hasVar = false) :
    ∃ g, Guard.instances config store clauses = .ok g := by
  unfold Guard.instances
  split
  · exact ⟨∅, rfl⟩
  · obtain ⟨D, hD, -⟩ := (opensNoScope_of_stored stored).derive_eq_ok config store
    rw [hD, ok_bind]
    refine Graph.exists_addAll (fun t ht => noVar t ?_) _
    exact mem_of_derive stored (fun c hc _ _ _ hm => Triple.substitute_of_flat (flat c hc) hm) hD ht

end

end Guard

/-! ## Matches in another store -/

theorem Builtin.evalPlain_keeps (f : Builtin) {a o : Term} {b m : Bindings} (h : m ∈ f.evalPlain a o b)
    {k v : Term} (hv : b.get? k = some v) : m.get? k = some v := by
  rcases f.mem_evalPlain h with rfl | ⟨slot, -, l, free, rfl⟩
  · exact hv
  · rw [Bindings.get?_insert_of_ne]
    · exact hv
    · rintro rfl
      rw [free] at hv
      cases hv

namespace Triple

variable {cs ts us : List Triple} {c : Triple} {b m s : Bindings}

theorem extensions_keeps (h : m ∈ c.extensions ts b) {k v : Term} (hv : b.get? k = some v) :
    m.get? k = some v := by
  unfold extensions at h
  cases hf : c.predicate.builtin? with
  | some f =>
    rw [hf] at h
    exact f.evalPlain_keeps h hv
  | none =>
    rw [hf] at h
    obtain ⟨t, -, hm⟩ := List.mem_flatMap.1 h
    exact ((mem_bind c t b).1 hm).1.keeps k v hv

theorem solutions_keeps (h : s ∈ solutions cs ts b) {k v : Term} (hv : b.get? k = some v) :
    s.get? k = some v := by
  induction cs generalizing b with
  | nil => rwa [List.mem_singleton.1 h]
  | cons c cs ih =>
    obtain ⟨m, hm, hs⟩ := List.mem_flatMap.1 h
    exact ih hs (extensions_keeps hm hv)

/-- What a clause was matched with it matches at the end as well, and the other way round. -/
theorem matches_iff_of_solutions (hm : b.Extends c.slots m) (hs : s ∈ solutions cs ts m) (t : Triple) :
    c.Matches t m ↔ c.Matches t s := by
  apply matches_congr
  intro k hk
  have hsome := Bindings.mem_keys.1 ((hm.keys k).2 (.inr hk))
  obtain ⟨v, hv⟩ := Option.isSome_iff_exists.1 hsome
  rw [hv, solutions_keeps hs hv]

theorem matches_of_mem_solutions (h : s ∈ solutions cs ts b) (hc : c ∈ cs) (stored : c.isComputed = false) :
    ∃ t ∈ ts, c.Matches t s := by
  induction cs generalizing b with
  | nil => exact absurd hc List.not_mem_nil
  | cons d cs ih =>
    obtain ⟨m, hm, hs⟩ := List.mem_flatMap.1 h
    rcases List.mem_cons.1 hc with rfl | hc
    · rw [extensions, builtin?_of_stored stored] at hm
      obtain ⟨t, ht, hm⟩ := List.mem_flatMap.1 hm
      obtain ⟨hext, hmatch⟩ := (mem_bind c t b).1 hm
      exact ⟨t, ht, (matches_iff_of_solutions hext hs t).1 hmatch⟩
    · exact ih hs hc

theorem mem_solutions_of_matches (h : s ∈ solutions cs ts b)
    (there : ∀ c ∈ cs, c.isComputed = false → ∃ u ∈ us, c.Matches u s) : s ∈ solutions cs us b := by
  induction cs generalizing b with
  | nil => exact h
  | cons c cs ih =>
    obtain ⟨m, hm, hs⟩ := List.mem_flatMap.1 h
    refine List.mem_flatMap.2 ⟨m, ?_, ih hs fun d hd => there d (List.mem_cons_of_mem _ hd)⟩
    unfold extensions at hm ⊢
    cases hf : c.predicate.builtin? with
    | some f => rwa [hf] at hm
    | none =>
      rw [hf] at hm
      obtain ⟨t, -, hm⟩ := List.mem_flatMap.1 hm
      obtain ⟨hext, -⟩ := (mem_bind c t b).1 hm
      have stored : c.isComputed = false := by simp [isComputed, Term.isBuiltin, hf]
      obtain ⟨u, hu, hmatch⟩ := there c (List.mem_cons_self ..) stored
      refine List.mem_flatMap.2 ⟨u, hu, (mem_bind c u b).2 ⟨hext, ?_⟩⟩
      exact (matches_iff_of_solutions hext hs u).2 hmatch

/-- Bindings under which all clauses match can be cut down to a match that a search finds. -/
theorem exists_mem_solutions (stored : ∀ c ∈ cs, c.isComputed = false)
    (h : ∀ c ∈ cs, ∃ t ∈ ts, c.Matches t s) :
    ∃ m ∈ solutions cs ts ∅, ∀ c ∈ cs, ∀ k ∈ c.slots, m.get? k = s.get? k := by
  let m := s.restrict fun k => decide (k ∈ allSlots cs)
  have hm : ∀ k, m.get? k = if k ∈ allSlots cs then s.get? k else none := by
    intro k
    rw [Bindings.get?_restrict]
    simp
  have same : ∀ c ∈ cs, ∀ k ∈ c.slots, m.get? k = s.get? k := by
    intro c hc k hk
    rw [hm, if_pos (mem_allSlots.2 ⟨c, hc, hk⟩)]
  refine ⟨m, (mem_solutions_stored stored).2 ⟨⟨nofun, fun k => ?_⟩, fun c hc => ?_⟩, same⟩
  · rw [Bindings.mem_keys, hm, or_iff_right (by simp [Bindings.mem_keys])]
    by_cases hk : k ∈ allSlots cs
    · obtain ⟨c, hc, hk'⟩ := mem_allSlots.1 hk
      obtain ⟨t, -, hmatch⟩ := h c hc
      obtain ⟨v, hv, -⟩ := exists_value_of_matches c t hmatch k hk'
      simp [hk, hv]
    · simp [hk]
  · obtain ⟨t, ht, hmatch⟩ := h c hc
    exact ⟨t, ht, (matches_congr c t (same c hc)).2 hmatch⟩

end Triple

/-- A rule without builtins that mints nothing concludes what its conclusion matches under bindings under
which its condition holds. -/
theorem Rule.IsPlain.mem_derive_matched {r : Rule} {F : Formula} {c : Triple} (h : r.IsPlain F [c])
    (stored : ∀ d ∈ F, d.isComputed = false) (flat : c.IsFlat) (given : ∀ k ∈ c.slots, ∃ d ∈ F, k ∈ d.slots)
    {config : Config} {store : Store} {D : OrderedSet Triple} (hD : r.derive config store = .ok D)
    {t : Triple} : t ∈ D ↔
      ∃ s : Bindings, (∀ d ∈ F, ∃ u ∈ store.toList, d.Matches u s) ∧ c.Matches t s := by
  rw [h.opensNoScope.mem_derive hD]
  constructor
  · rintro ⟨s, hs, d, hd, rfl⟩
    obtain rfl := List.mem_singleton.1 hd
    have matched : ∀ e ∈ F, ∃ u ∈ store.toList, e.Matches u s :=
      fun e he => Triple.matches_of_mem_solutions hs (Config.mem_order.2 he) (stored e he)
    refine ⟨s, matched, Triple.matches_assign_of_values flat _ fun k hk => ?_⟩
    obtain ⟨e, he, hke⟩ := given k hk
    obtain ⟨u, -, hu⟩ := matched e he
    exact Triple.exists_value_of_matches e u hu k hke
  · rintro ⟨s, matched, hc⟩
    have ordered : ∀ {d}, d ∈ config.order F ↔ d ∈ F := Config.mem_order
    obtain ⟨m, hm, same⟩ := Triple.exists_mem_solutions (fun d hd => stored d (ordered.1 hd))
      fun d hd => matched d (ordered.1 hd)
    have hc' : c.Matches t m := by
      refine (Triple.matches_congr c t fun k hk => ?_).2 hc
      obtain ⟨d, hd, hkd⟩ := given k hk
      exact same d (ordered.2 hd) k hkd
    refine ⟨m, hm, c, List.mem_singleton_self c, ?_⟩
    rw [Triple.assign_eq_substitute _ hc', Triple.substitute_of_flat flat hc']

/-! ## The two parts of a condition -/

theorem Triple.ScopeFree.not_negation {c : Triple} (h : c.ScopeFree) : c.isNegation = false := by
  by_contra hn
  rw [Bool.not_eq_false] at hn
  simp only [isNegation, Bool.and_eq_true, decide_eq_true_eq] at hn
  exact h.2 (hn.1.1 ▸ by decide)

theorem Triple.ScopeFree.not_includesFacts {c : Triple} (h : c.ScopeFree) (F : Formula) :
    c.includesFacts F = false := by
  by_contra hn
  rw [Bool.not_eq_false] at hn
  simp only [includesFacts, Bool.and_eq_true, decide_eq_true_eq] at hn
  exact h.1 (hn.1.1 ▸ by decide)

namespace Formula

theorem readClauses_eq_filter {F : Formula} (h : ∀ c ∈ F, c.ScopeFree) :
    F.readClauses = F.filter fun c => !c.isComputed := by
  have one : F.readClauses = F.flatMap fun c => if c.isComputed then [] else [c] := by
    unfold readClauses
    refine List.flatMap_congr fun c hc => ?_
    rw [(h c hc).not_negation, (h c hc).not_includesFacts]
    split <;> rfl
  rw [one]
  clear one h
  induction F with
  | nil => rfl
  | cons c F ih =>
    rw [List.flatMap_cons, List.filter_cons, ih]
    cases c.isComputed <;> rfl

theorem stored_of_mem_readClauses {F : Formula} {c : Triple} (h : c ∈ F.readClauses) :
    c.isComputed = false := by
  have kept : ∀ {d : Triple}, c ∈ (if d.isComputed then [] else [d]) → c.isComputed = false := by
    intro d hc
    split at hc
    · exact absurd hc List.not_mem_nil
    · next hd =>
      rw [List.mem_singleton.1 hc]
      simpa using hd
  obtain ⟨d, -, hc⟩ := List.mem_flatMap.1 h
  split at hc
  · split at hc
    · simpa using (List.mem_filter.1 hc).2
    · exact kept hc
  · exact kept hc

theorem mem_readClauses {F : Formula} (h : ∀ c ∈ F, c.ScopeFree) {c : Triple} :
    c ∈ F.readClauses ↔ c ∈ F ∧ c.isComputed = false := by
  rw [readClauses_eq_filter h, List.mem_filter, Bool.not_eq_true']

end Formula

namespace Guard

/-- The stored clauses of the condition fall into the two parts. -/
structure Parts (g : Guard) (F : Formula) : Prop where
  guard : ∀ c ∈ g.guard, c ∈ F ∧ c.isComputed = false
  rest : ∀ c ∈ g.rest, c ∈ F ∧ c.isComputed = false
  all : ∀ c ∈ F, c.isComputed = false → c ∈ g.guard ∨ c ∈ g.rest

variable {producer consumer : Rule} {F G : Formula} {g : Guard}

theorem split_eq_ok (hG : producer.conclusion = .formula G) (hF : consumer.condition = .formula F) :
    split producer consumer = .ok g ↔ (residualClauses F.readClauses G).toList = [g.guard] ∧
      g.rest = Formula.ofList (F.readClauses.filter fun c => c ∉ g.guard) := by
  obtain ⟨guard, rest⟩ := g
  rw [Guard.split, hG, Rule.conditionFormula, hF]
  dsimp only [bind, ok_bind]
  split
  · next guard' e =>
    rw [e, Except.ok.injEq, Guard.mk.injEq, List.cons.injEq]
    constructor
    · rintro ⟨rfl, rfl⟩
      exact ⟨⟨rfl, rfl⟩, rfl⟩
    · rintro ⟨⟨rfl, -⟩, hrest⟩
      exact ⟨rfl, hrest.symm⟩
  · next hmany =>
    refine ⟨fun h => ?_, fun h => absurd h.1 (hmany _)⟩
    cases h

theorem mem_residuals_of_split (hG : producer.conclusion = .formula G)
    (hF : consumer.condition = .formula F) (h : split producer consumer = .ok g) :
    g.guard ∈ Pairing.residuals (Triple.feeders G) F.readClauses := by
  rw [← OrderedSet.mem_ofList, OrderedSet.mem_def]
  have hone : (OrderedSet.ofList (Pairing.residuals (Triple.feeders G) F.readClauses)).toList =
    [g.guard] := ((split_eq_ok hG hF).1 h).1
  rw [hone]
  exact List.mem_singleton_self _

theorem subset_of_split (hG : producer.conclusion = .formula G) (hF : consumer.condition = .formula F)
    (h : split producer consumer = .ok g) :
    (∀ c ∈ g.guard, c ∈ F.readClauses) ∧ ∀ c ∈ g.rest, c ∈ F.readClauses := by
  constructor
  · exact fun c hc => Pairing.subset_of_mem_residuals (mem_residuals_of_split hG hF h) hc
  · intro c hc
    rw [((split_eq_ok hG hF).1 h).2, Formula.mem_ofList] at hc
    exact (List.mem_filter.1 hc).1

theorem parts_of_split (hG : producer.conclusion = .formula G) (hF : consumer.condition = .formula F)
    (free : ∀ c ∈ F, c.ScopeFree) (h : split producer consumer = .ok g) : g.Parts F where
  guard c hc := (Formula.mem_readClauses free).1 ((subset_of_split hG hF h).1 c hc)
  rest c hc := (Formula.mem_readClauses free).1 ((subset_of_split hG hF h).2 c hc)
  all c hc stored := by
    rw [((split_eq_ok hG hF).1 h).2, Formula.mem_ofList, List.mem_filter,
      Formula.mem_readClauses free, decide_eq_true_eq]
    by_cases hg : c ∈ g.guard
    · exact .inl hg
    · exact .inr ⟨⟨hc, stored⟩, hg⟩

variable {config : Config} {store : Store} {clauses : Formula} {instances : Graph}

/-- Where the clauses match facts together, their instances are found. -/
theorem substitute_mem_instances (stored : ∀ c ∈ clauses, c.isComputed = false)
    (h : Guard.instances config store clauses = .ok instances) {s : Bindings}
    (hs : ∀ c ∈ clauses, ∃ t ∈ store.toList, c.Matches t s) {c : Triple} (hc : c ∈ clauses) :
    c.substitute s ∈ instances.toList := by
  have hne : clauses.isEmpty = false := List.isEmpty_eq_false_iff_exists_mem.2 ⟨c, hc⟩
  rw [Guard.instances, hne, if_neg Bool.false_ne_true] at h
  obtain ⟨D, hD, hg⟩ := bind_eq_ok.1 h
  have ordered : ∀ d, d ∈ config.order (Formula.ofList clauses) ↔ d ∈ clauses :=
    fun d => Config.mem_order.trans Formula.mem_ofList
  have matched : ∀ d ∈ config.order (Formula.ofList clauses), ∃ t ∈ store.toList, d.Matches t s :=
    fun d hd => hs d ((ordered d).1 hd)
  obtain ⟨m, hm, same⟩ :=
    Triple.exists_mem_solutions (fun d hd => stored d ((ordered d).1 hd)) matched
  rw [Graph.mem_ofList hg]
  apply ((opensNoScope_of_stored stored).mem_derive hD).2
  refine ⟨m, hm, c, Formula.mem_ofList.2 hc, ?_⟩
  have hsame := same c ((ordered c).2 hc)
  obtain ⟨t, -, hmatch⟩ := hs c hc
  rw [Triple.assign_eq_substitute _ ((Triple.matches_congr c t hsame).2 hmatch)]
  exact (Triple.substitute_congr c hsame).symm

/-- The instances that belong to a match of a condition are found. -/
theorem substitute_mem_of_solution (sub : ∀ c ∈ clauses, c ∈ F ∧ c.isComputed = false)
    (h : Guard.instances config store clauses = .ok instances) {s : Bindings}
    (hs : s ∈ Triple.solutions (config.order F) store.toList ∅) {c : Triple} (hc : c ∈ clauses) :
    c.substitute s ∈ instances.toList := by
  refine substitute_mem_instances (fun d hd => (sub d hd).2) h (fun d hd => ?_) hc
  exact Triple.matches_of_mem_solutions hs (Config.mem_order.2 (sub d hd).1) (sub d hd).2

/-- Where the guard has clauses but no instances, the condition has no match. -/
theorem not_mem_solutions {split : Guard} (parts : split.Parts F) (hne : split.guard.isEmpty = false)
    (h : Guard.instances config store split.guard = .ok instances) (hnone : instances.size = 0)
    (s : Bindings) : s ∉ Triple.solutions (config.order F) store.toList ∅ := by
  intro hs
  obtain ⟨c, hc⟩ := List.isEmpty_eq_false_iff_exists_mem.1 hne
  have hmem := substitute_mem_of_solution parts.guard h hs hc
  have hempty : instances.toList = [] := List.length_eq_zero_iff.1 hnone
  rw [hempty] at hmem
  exact absurd hmem List.not_mem_nil

end Guard

/-- The instances of the two parts suffice for what a rule derives. -/
theorem Rule.derive_instances {r : Rule} {F G : Formula} (hr : r.OpensNoScope F G) {split : Guard}
    (parts : split.Parts F) {config : Config} {store store' : Store} {guarding resting : Graph}
    (hguard : Guard.instances config store split.guard = .ok guarding)
    (hrest : Guard.instances config store split.rest = .ok resting)
    (hsub : ∀ t, t ∈ guarding.toList ∨ t ∈ resting.toList → t ∈ store'.toList)
    {D D' : OrderedSet Triple} (hD : r.derive config store = .ok D)
    (hD' : r.derive config store' = .ok D') {t : Triple} (ht : t ∈ D) : t ∈ D' := by
  obtain ⟨s, hs, c, hc, e⟩ := (hr.mem_derive hD).1 ht
  refine (hr.mem_derive hD').2 ⟨s, Triple.mem_solutions_of_matches hs fun d hd stored => ?_, c, hc, e⟩
  obtain ⟨u, -, hu⟩ := Triple.matches_of_mem_solutions hs hd stored
  refine ⟨d.substitute s, hsub _ ?_, Triple.matches_substitute d u hu⟩
  rcases parts.all d (Config.mem_order.1 hd) stored with hpart | hpart
  · exact .inl (Guard.substitute_mem_of_solution parts.guard hguard hs hpart)
  · exact .inr (Guard.substitute_mem_of_solution parts.rest hrest hs hpart)

end TripleChain
