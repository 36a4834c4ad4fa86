import Mathlib.Data.List.Perm.Basic
import TripleChain.Inference.Guarded
import TripleChain.Proofs.Search

/-!
# What a pass derives

A pass whose clauses open no scopes comes to its end. It derives what the matches of its clauses
give (`derive_eq_ok`), and no less from more facts (`derive_mono`).
-/

namespace TripleChain

/-! ## The order of clauses -/

namespace Schedule

theorem choose_lt {bound : List Term} {remaining : List Triple} (h : remaining ≠ []) :
    choose bound remaining < remaining.length := by
  have hfind : ∀ {p : Triple → Bool} {i : Nat}, remaining.findIdx? p = some i → i < remaining.length :=
    fun hi => (List.findIdx?_eq_some_iff_getElem.1 hi).1
  unfold choose
  cases hs : bestStored bound remaining with
  | some i =>
    obtain ⟨_, _, hi⟩ := Option.bind_eq_some_iff.1 hs
    exact hfind hi
  | none =>
    cases hr : firstReady bound remaining with
    | some i => exact hfind hr
    | none => exact List.length_pos_iff.2 h

theorem place_perm (count : Nat) (bound : List Term) (remaining : List Triple)
    (h : remaining.length = count) : (place count bound remaining).Perm remaining := by
  induction count generalizing bound remaining with
  | zero => rw [place, List.length_eq_zero_iff.1 h]
  | succ count ih =>
    have hlt : choose bound remaining < remaining.length :=
      choose_lt (List.ne_nil_of_length_eq_add_one h)
    rw [place]
    simp only [List.getElem?_eq_getElem hlt]
    refine .trans (.cons _ (ih _ _ ?_)) (List.getElem_cons_eraseIdx_perm hlt)
    rw [List.length_eraseIdx_of_lt hlt, h, Nat.add_sub_cancel]

end Schedule

theorem orderClauses_perm (clauses : List Triple) (bound : List Term) :
    (orderClauses clauses bound).Perm clauses := Schedule.place_perm _ _ _ rfl

theorem Config.mem_order {config : Config} {clauses : List Triple} {c : Triple} :
    c ∈ config.order clauses ↔ c ∈ clauses := by
  unfold Config.order
  split
  · exact (orderClauses_perm clauses []).mem_iff
  · exact Iff.rfl

/-! ## Passes -/

theorem bind_eq_ok {α β : Type} {x : Except Fault α} {f : α → Except Fault β} {b : β} :
    x.bind f = .ok b ↔ ∃ a, x = .ok a ∧ f a = .ok b := by
  cases x <;> simp [Except.bind]

theorem ok_bind {α β : Type} (a : α) (f : α → Except Fault β) : (Except.ok a).bind f = f a := rfl

theorem exists_ok_of_map {α β : Type} {x : Except Fault α} {f : α → β} {b : β}
    (h : x.toOption.map f = some b) : ∃ a, x = .ok a ∧ f a = b := by
  cases x with
  | error e => cases h
  | ok a => exact ⟨a, rfl, Option.some.inj h⟩

namespace Rule

theorem conditionFormula_eq_ok {r : Rule} {F : Formula} : r.conditionFormula = .ok F ↔ r.condition = .formula F := by
  unfold conditionFormula
  cases r.condition <;> simp

theorem isNegative_eq_false {r : Rule} {F : Formula} (hF : r.condition = .formula F)
    (h : ∀ c ∈ F, c.isNegation = false) : r.isNegative = false := by
  rw [isNegative, hF, Term.formula?, Option.any_some, List.any_eq_false]
  intro c hc hneg
  rw [h c hc] at hneg
  cases hneg

theorem exists_fireAll {r : Rule} {bs : List Bindings} (h : ∀ b ∈ bs, ∃ ts, r.fire b = .ok ts)
    (derived : OrderedSet Triple) : ∃ last, r.fireAll derived bs = .ok last := by
  induction bs generalizing derived with
  | nil => exact ⟨derived, rfl⟩
  | cons b bs ih =>
    obtain ⟨ts, hts⟩ := h b (List.mem_cons_self ..)
    obtain ⟨last, hlast⟩ := ih (fun c hc => h c (List.mem_cons_of_mem _ hc)) (derived.insertAll ts)
    refine ⟨last, ?_⟩
    rw [fireAll, List.foldlM_cons, hts]
    exact hlast

theorem fire_of_fireAll {r : Rule} {bs : List Bindings} {derived last : OrderedSet Triple}
    (h : r.fireAll derived bs = .ok last) : ∀ b ∈ bs, ∃ ts, r.fire b = .ok ts := by
  induction bs generalizing derived with
  | nil => exact fun _ hb => absurd hb List.not_mem_nil
  | cons b bs ih =>
    unfold fireAll at h
    rw [List.foldlM_cons] at h
    cases hf : r.fire b with
    | error e => rw [hf] at h; cases h
    | ok ts =>
      rw [hf] at h
      exact List.forall_mem_cons.2 ⟨⟨ts, hf⟩, @ih (derived.insertAll ts) h⟩

theorem fire_of_fireAll_error {r : Rule} {bs : List Bindings} {derived : OrderedSet Triple} {e : Fault}
    (h : r.fireAll derived bs = .error e) : ∃ b ∈ bs, r.fire b = .error e := by
  induction bs generalizing derived with
  | nil => cases h
  | cons b bs ih =>
    unfold fireAll at h
    rw [List.foldlM_cons] at h
    cases hf : r.fire b with
    | error e' =>
      rw [hf] at h
      cases h
      exact ⟨b, List.mem_cons_self .., hf⟩
    | ok ts =>
      rw [hf] at h
      obtain ⟨c, hc, hce⟩ := @ih (derived.insertAll ts) h
      exact ⟨c, List.mem_cons_of_mem _ hc, hce⟩

theorem fire_formula {r : Rule} {G : Formula} (h : r.conclusion = .formula G) (s : Bindings) :
    r.fire s = .ok (G.map fun c => c.assign G s) := by
  rw [fire, h]

/-- The rule gives the triple for a match with the bindings. -/
def Fires (r : Rule) (s : Bindings) (t : Triple) : Prop := ∃ ts, r.fire s = .ok ts ∧ t ∈ ts

theorem mem_fireAnswers {r : Rule} {a : Answers} {D : OrderedSet Triple} (h : r.fireAnswers a = .ok D)
    {t : Triple} : t ∈ D ↔ ∃ s ∈ a.found, r.Fires s t := by
  rw [mem_fireAll (fireAnswers_eq_ok.1 h).1]
  exact or_iff_right List.not_mem_nil

theorem exists_fireAnswers_iff {r : Rule} {a : Answers} : (∃ D, r.fireAnswers a = .ok D) ↔
    (∀ b ∈ a.found, ∃ ts, r.fire b = .ok ts) ∧ a.complete = true := by
  simp only [fireAnswers_eq_ok]
  constructor
  · rintro ⟨D, hD, hc⟩
    exact ⟨fire_of_fireAll hD, hc⟩
  · rintro ⟨hfire, hc⟩
    obtain ⟨D, hD⟩ := exists_fireAll hfire ∅
    exact ⟨D, hD, hc⟩

theorem fireAnswers_eq_error {r : Rule} {a : Answers} {e : Fault} (h : r.fireAnswers a = .error e) :
    (∃ b ∈ a.found, r.fire b = .error e) ∨ a.complete = false ∧ e = .outOfPatience := by
  unfold fireAnswers at h
  cases hf : r.fireAll ∅ a.found with
  | error e' =>
    rw [hf] at h
    cases h
    exact .inl (fire_of_fireAll_error hf)
  | ok D =>
    rw [hf, ok_bind] at h
    split at h
    · cases h
    · next hc =>
      cases h
      exact .inr ⟨by simpa using hc, rfl⟩

/-- Why firing fails depends on the conclusion, whatever the match. -/
theorem kind_of_fire {r : Rule} {b : Bindings} {e : Fault} (h : r.fire b = .error e) :
    r.conclusion.isFormula = false ∧
      e.kind = if r.conclusion.isVar then .typeMismatch else .malformedRule := by
  unfold fire at h
  cases hG : r.conclusion with
  | formula G => rw [hG] at h; cases h
  | var x =>
    rw [hG] at h
    dsimp only at h
    split at h
    · cases h
    · cases h
      exact ⟨rfl, rfl⟩
  | literal l | iri i | blank x =>
    rw [hG] at h
    cases h
    exact ⟨rfl, rfl⟩

theorem fires_iff {r : Rule} {G : Formula} (h : r.conclusion = .formula G) {s : Bindings} {t : Triple} :
    r.Fires s t ↔ ∃ c ∈ G, t = c.assign G s := by
  simp only [Fires, fire_formula h, Except.ok.injEq, exists_eq_left', List.mem_map, eq_comm (a := t)]

theorem fireAnswers_formula {r : Rule} {G : Formula} (h : r.conclusion = .formula G)
    (bs : List Bindings) : ∃ D, r.fireAnswers (.all bs) = .ok D ∧
      ∀ t, t ∈ D ↔ ∃ s ∈ bs, ∃ c ∈ G, t = c.assign G s := by
  obtain ⟨D, hD⟩ := exists_fireAll (fun s (_ : s ∈ bs) => ⟨_, fire_formula h s⟩) ∅
  refine ⟨D, fireAnswers_eq_ok.2 ⟨hD, rfl⟩, fun t => ?_⟩
  rw [mem_fireAll hD]
  simp only [fire_formula h, Except.ok.injEq, exists_eq_left', List.mem_map, eq_comm (a := t)]
  exact or_iff_right List.not_mem_nil

/-- Both sides are formulas, and the clauses of the condition open no scope. -/
structure OpensNoScope (r : Rule) (F G : Formula) : Prop where
  condition : r.condition = .formula F
  conclusion : r.conclusion = .formula G
  scopeFree : ∀ c ∈ F, c.ScopeFree

/-- Both sides are formulas, and the clauses of the condition quote nothing and open no scope. -/
structure IsPlain (r : Rule) (F G : Formula) : Prop where
  condition : r.condition = .formula F
  conclusion : r.conclusion = .formula G
  flat : ∀ c ∈ F, c.IsFlat
  scopeFree : ∀ c ∈ F, c.ScopeFree

section
variable {r : Rule} {F G : Formula} {config : Config} {store store' : Store}

theorem IsPlain.opensNoScope (h : r.IsPlain F G) : r.OpensNoScope F G :=
  ⟨h.condition, h.conclusion, h.scopeFree⟩

theorem OpensNoScope.derive_eq_ok (h : r.OpensNoScope F G) (config : Config) (store : Store) :
    ∃ D, r.derive config store = .ok D ∧
      ∀ t, t ∈ D ↔ ∃ s ∈ Triple.solutions (config.order F) store.toList ∅, ∃ c ∈ G, t = c.assign G s := by
  have hanswers : store.answers config F =
      .all (Triple.solutions (config.order F) store.toList ∅) :=
    Search.solveWith_scopeFree _ (fun c hc => h.scopeFree c (Config.mem_order.1 hc)) ∅
  rw [derive, conditionFormula, h.condition]
  show ∃ D, r.fireAnswers (store.answers config F) = .ok D ∧ _
  rw [hanswers]
  exact fireAnswers_formula h.conclusion _

theorem OpensNoScope.mem_derive (h : r.OpensNoScope F G) {D : OrderedSet Triple}
    (hD : r.derive config store = .ok D) {t : Triple} : t ∈ D ↔
      ∃ s ∈ Triple.solutions (config.order F) store.toList ∅, ∃ c ∈ G, t = c.assign G s := by
  obtain ⟨E, hE, mem⟩ := h.derive_eq_ok config store
  obtain rfl : D = E := Except.ok.inj (hD.symm.trans hE)
  exact mem t

theorem derive_eq_ok (h : r.IsPlain F G) (config : Config) (store : Store) :
    ∃ D, r.derive config store = .ok D ∧
    ∀ t, t ∈ D ↔ ∃ s ∈ Triple.solutions (config.order F) store.toList ∅, ∃ c ∈ G, t = c.assign G s :=
  h.opensNoScope.derive_eq_ok config store

theorem OpensNoScope.derive_mono (h : r.OpensNoScope F G) (hsub : ∀ t ∈ store.toList, t ∈ store'.toList)
    {D D' : OrderedSet Triple} (hD : r.derive config store = .ok D)
    (hD' : r.derive config store' = .ok D') {t : Triple} (ht : t ∈ D) : t ∈ D' := by
  obtain ⟨s, hs, c, hc, e⟩ := (h.mem_derive hD).1 ht
  exact (h.mem_derive hD').2 ⟨s, Triple.solutions_mono hsub hs, c, hc, e⟩

theorem derive_mono (h : r.IsPlain F G) (hsub : ∀ t ∈ store.toList, t ∈ store'.toList)
    {D D' : OrderedSet Triple} (hD : r.derive config store = .ok D)
    (hD' : r.derive config store' = .ok D') {t : Triple} (ht : t ∈ D) : t ∈ D' :=
  h.opensNoScope.derive_mono hsub hD hD' ht

end

end Rule

/-! ## Facts added to a graph -/

namespace Graph

theorem mem_add {g g' : Graph} {t u : Triple} (h : g.add t = .ok g') :
    u ∈ g'.toList ↔ u ∈ g.toList ∨ u = t := by
  unfold add at h
  split at h
  · obtain rfl := Except.ok.inj h
    rw [toList_insert]
    split
    · next ht => exact ⟨.inl, fun h => h.elim id fun e => e ▸ ht⟩
    · rw [List.mem_append, List.mem_singleton]
  · cases h

theorem mem_addAll {ts : List Triple} {g g' : Graph} {u : Triple} (h : g.addAll ts = .ok g') :
    u ∈ g'.toList ↔ u ∈ g.toList ∨ u ∈ ts := by
  induction ts generalizing g with
  | nil => cases h; simp
  | cons t ts ih =>
    unfold addAll at h
    rw [List.foldlM_cons] at h
    cases hg : g.add t with
    | error e => rw [hg] at h; cases h
    | ok m =>
      rw [hg] at h
      have rest : u ∈ g'.toList ↔ u ∈ m.toList ∨ u ∈ ts := ih h
      rw [rest, mem_add hg, List.mem_cons, or_assoc]

/-- Triples without variables are all taken. -/
theorem exists_addAll {ts : List Triple} (h : ∀ t ∈ ts, t.hasVar = false) (g : Graph) :
    ∃ g', g.addAll ts = .ok g' := by
  induction ts generalizing g with
  | nil => exact ⟨g, rfl⟩
  | cons t ts ih =>
    obtain ⟨g', hg'⟩ := ih (fun u hu => h u (List.mem_cons_of_mem _ hu))
      (g.insert t (h t (List.mem_cons_self ..)))
    refine ⟨g', ?_⟩
    rw [addAll, List.foldlM_cons, add, dif_pos (h t (List.mem_cons_self ..))]
    exact hg'

theorem addAll_eq_error {g : Graph} {ts : List Triple} {e : Fault} (h : g.addAll ts = .error e) :
    ∃ t ∈ ts, t.hasVar = true ∧ e = .variableInFact t := by
  induction ts generalizing g with
  | nil => cases h
  | cons t ts ih =>
    unfold addAll at h
    rw [List.foldlM_cons] at h
    cases hadd : g.add t with
    | ok g₁ =>
      rw [hadd] at h
      obtain ⟨u, hu, hvar⟩ := ih (g := g₁) h
      exact ⟨u, List.mem_cons_of_mem _ hu, hvar⟩
    | error e' =>
      rw [hadd] at h
      cases h
      refine ⟨t, List.mem_cons_self .., ?_⟩
      unfold add at hadd
      split at hadd
      · cases hadd
      · next hvar =>
        cases hadd
        exact ⟨by simpa using hvar, rfl⟩

theorem noVar_of_addAll {g g' : Graph} {ts : List Triple} (h : g.addAll ts = .ok g') : ∀ t ∈ ts, t.hasVar = false :=
  fun t ht => g'.noVar t ((mem_addAll h).2 (.inr ht))

theorem mem_ofList {ts : List Triple} {g : Graph} {u : Triple} (h : ofList ts = .ok g) :
    u ∈ g.toList ↔ u ∈ ts := by
  rw [mem_addAll h]
  exact or_iff_right List.not_mem_nil

end Graph

end TripleChain
