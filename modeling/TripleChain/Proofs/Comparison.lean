import TripleChain.Proofs.Extensional
import TripleChain.Proofs.Negation
import TripleChain.Proofs.Strata
import TripleChain.Proofs.Values
import TripleChain.Proofs.Walk

/-!
# Two runs beside each other

The same rules are run twice, on facts that differ in their order, or with clauses put in another order.
Where the searches of the two runs find the same, every step gives the same triples in both, or fails in
both for the same kind of reason (`infer_alike`): what a step looks at is which triples are there, how
many of them, and how many are new. Only where a search was left may the kinds differ, because the rest
of the search could have come to another fault.
-/

namespace TripleChain

/-! ## Ends of two runs -/

/-- Both come to a value, with `P` between the values, or both fail, with `E` between the faults. -/
inductive EndAlike {α β : Type} (E : Fault → Fault → Prop) (P : α → β → Prop) :
    Except Fault α → Except Fault β → Prop where
  | ok {a : α} {b : β} (h : P a b) : EndAlike E P (.ok a) (.ok b)
  | error {e f : Fault} (h : E e f) : EndAlike E P (.error e) (.error f)

section
variable {α β γ δ : Type} {E : Fault → Fault → Prop} {P : α → β → Prop} {Q : γ → δ → Prop}

theorem EndAlike.bind {x : Except Fault α} {y : Except Fault β} (h : EndAlike E P x y)
    {f : α → Except Fault γ} {g : β → Except Fault δ}
    (hf : ∀ a b, P a b → EndAlike E Q (f a) (g b)) : EndAlike E Q (x.bind f) (y.bind g) := by
  cases h with
  | ok h => exact hf _ _ h
  | error h => exact .error h

theorem EndAlike.mono {x : Except Fault α} {y : Except Fault β} (h : EndAlike E P x y)
    {E' : Fault → Fault → Prop} {P' : α → β → Prop} (hE : ∀ {e f}, E e f → E' e f)
    (hP : ∀ {a b}, P a b → P' a b) : EndAlike E' P' x y := by
  cases h with
  | ok h => exact .ok (hP h)
  | error h => exact .error (hE h)

theorem EndAlike.of {x : Except Fault α} {y : Except Fault β} (ends : (∃ a, x = .ok a) ↔ ∃ b, y = .ok b)
    (values : ∀ a b, x = .ok a → y = .ok b → P a b)
    (faults : ∀ e f, x = .error e → y = .error f → E e f) : EndAlike E P x y := by
  cases hx : x with
  | ok a =>
    obtain ⟨b, hb⟩ := ends.1 ⟨a, hx⟩
    rw [hb]
    exact .ok (values a b hx hb)
  | error e =>
    cases hy : y with
    | ok b =>
      obtain ⟨a, ha⟩ := ends.2 ⟨b, hy⟩
      rw [ha] at hx
      cases hx
    | error f => exact .error (faults e f hx hy)

namespace Run

/-- The results are alike, whatever is reported on the way. -/
def Alike (E : Fault → Fault → Prop) (P : α → β → Prop) (x : Run α) (y : Run β) : Prop :=
  EndAlike E P x.result y.result

theorem alike_pure {a : α} {b : β} (h : P a b) : Alike E P (Pure.pure a : Run α) (Pure.pure b : Run β) :=
  .ok h

theorem Alike.bind {x : Run α} {y : Run β} (h : Alike E P x y) {f : α → Run γ} {g : β → Run δ}
    (hf : ∀ a b, P a b → Alike E Q (f a) (g b)) : Alike E Q (x >>= f) (y >>= g) := by
  unfold Alike
  rw [result_bind, result_bind]
  exact EndAlike.bind h hf

theorem alike_lift {x : Except Fault α} {y : Except Fault β} (h : EndAlike E P x y) :
    Alike E P (liftM x : Run α) (liftM y : Run β) := h

theorem alike_report (e e' : Event) : Alike E (fun _ _ => True) (report e) (report e') := .ok trivial

theorem alike_fail {e f : Fault} (h : E e f) : Alike E P (fail e : Run α) (fail f : Run β) := .error h

end Run

end

/-- The faults are of one kind, unless the patience ended first in one of the runs; in a `total` setting
no search is left. In a `clean` setting nothing fails but for what is unsupported. -/
structure FaultsAlike (total clean : Prop) (e f : Fault) : Prop where
  kind : e.kind = f.kind ∨ ¬ total ∧ (e = .outOfPatience ∨ f = .outOfPatience)
  clean : clean → e.kind = .unsupported ∨ e = .outOfPatience

/-- The same triples were derived, in a `clean` setting without variables. -/
structure DerivedAlike (clean : Prop) (D D' : OrderedSet Triple) : Prop where
  same : ∀ t, t ∈ D ↔ t ∈ D'
  noVar : clean → ∀ t ∈ D, t.hasVar = false

/-- The graphs hold the same facts. -/
def Graph.Same (g g' : Graph) : Prop := ∀ t, t ∈ g.toList ↔ t ∈ g'.toList

section
variable {total clean : Prop} {config config' : Config}

theorem endAlike_self {α : Type} (x : Except Fault α)
    (h : clean → ∀ e, x = .error e → e.kind = .unsupported ∨ e = .outOfPatience) :
    EndAlike (FaultsAlike total clean) (fun a b => x = .ok a ∧ a = b) x x := by
  cases hx : x with
  | ok a => exact .ok ⟨rfl, rfl⟩
  | error e => exact .error ⟨.inl rfl, fun hc => h hc e hx⟩

theorem unsupported_alike {e : Fault} (h : e.kind = .unsupported) : FaultsAlike total clean e e :=
  ⟨.inl rfl, fun _ => .inl h⟩

/-! ## What is the same of the same triples -/

namespace Graph

variable {g g' : Graph} {ts ts' : List Triple}

theorem Same.size_eq (h : g.Same g') : g.size = g'.size :=
  ((List.perm_ext_iff_of_nodup g.nodup g'.nodup).2 h).length_eq

theorem Same.contains_eq (h : g.Same g') (t : Triple) : g.contains t = g'.contains t := by
  rw [Bool.eq_iff_iff, contains_iff, contains_iff]
  exact h t

theorem addAll_alike (h : g.Same g') (hts : ∀ t, t ∈ ts ↔ t ∈ ts')
    (noVar : clean → ∀ t ∈ ts, t.hasVar = false) :
    EndAlike (FaultsAlike total clean) Graph.Same (g.addAll ts) (g'.addAll ts') := by
  refine .of ⟨?_, ?_⟩ (fun k k' hk hk' t => ?_) fun e f he hf => ?_
  · rintro ⟨k, hk⟩
    exact exists_addAll (fun t ht => noVar_of_addAll hk t ((hts t).2 ht)) g'
  · rintro ⟨k, hk⟩
    exact exists_addAll (fun t ht => noVar_of_addAll hk t ((hts t).1 ht)) g
  · rw [mem_addAll hk, mem_addAll hk', h t, hts t]
  · obtain ⟨t, ht, hvar, rfl⟩ := addAll_eq_error he
    obtain ⟨-, -, -, rfl⟩ := addAll_eq_error hf
    refine ⟨.inl rfl, fun hc => ?_⟩
    rw [noVar hc t ht] at hvar
    cases hvar

end Graph

theorem Store.Same.contains_eq {store store' : Store} (h : store.Same store') (t : Triple) :
    store.contains t = store'.contains t := by
  rw [Bool.eq_iff_iff, contains_iff, contains_iff]
  exact h t

namespace DerivedAlike

variable {D D' E E' : OrderedSet Triple}

theorem empty : DerivedAlike clean ∅ ∅ :=
  ⟨fun _ => Iff.rfl, fun _ _ h => absurd h List.not_mem_nil⟩

theorem insertAll (h : DerivedAlike clean D D') (hE : DerivedAlike clean E E') :
    DerivedAlike clean (D.insertAll E.toList) (D'.insertAll E'.toList) where
  same t := by
    rw [OrderedSet.mem_insertAll, OrderedSet.mem_insertAll, ← OrderedSet.mem_def,
      ← OrderedSet.mem_def, h.same, hE.same]
  noVar hc t ht := by
    rcases OrderedSet.mem_insertAll.1 ht with ht | ht
    · exact h.noVar hc t ht
    · exact hE.noVar hc t ht

theorem without (h : DerivedAlike clean D D') (hE : DerivedAlike clean E E') :
    DerivedAlike clean (D.filter fun t => t ∉ E) (D'.filter fun t => t ∉ E') where
  same t := by simp only [OrderedSet.mem_filter, h.same, hE.same]
  noVar hc t ht := h.noVar hc t (OrderedSet.mem_filter.1 ht).1

theorem countP_eq (h : DerivedAlike clean D D') {p p' : Triple → Bool} (hp : ∀ t, p t = p' t) :
    D.toList.countP p = D'.toList.countP p' := by
  obtain rfl : p = p' := funext hp
  exact ((List.perm_ext_iff_of_nodup D.nodup D'.nodup).2 h.same).countP_eq p

theorem addAll (h : DerivedAlike clean D D') {g g' : Graph} (hg : g.Same g') :
    EndAlike (FaultsAlike total clean) Graph.Same (g.addAll D.toList) (g'.addAll D'.toList) :=
  Graph.addAll_alike hg h.same h.noVar

end DerivedAlike

/-! ## Passes -/

namespace Rule

variable {r : Rule} {a a' : Answers}

theorem fireAnswers_alike (same : a.Same a') (complete : total → a.complete = true)
    (sides : clean → r.conclusion.isFormula = true) (free : ∀ s ∈ a.found, s.VarFree) :
    EndAlike (FaultsAlike total clean) (DerivedAlike clean) (r.fireAnswers a) (r.fireAnswers a') := by
  refine .of ?_ (fun D D' hD hD' => ⟨fun t => ?_, fun hc t ht => ?_⟩) fun e f he hf => ?_
  · rw [exists_fireAnswers_iff, exists_fireAnswers_iff]
    constructor
    · rintro ⟨hfire, hc⟩
      exact ⟨fun b hb => hfire b ((same.mem_iff hc b).2 hb), same.complete_iff.1 hc⟩
    · rintro ⟨hfire, hc⟩
      have hc := same.complete_iff.2 hc
      exact ⟨fun b hb => hfire b ((same.mem_iff hc b).1 hb), hc⟩
  · rw [mem_fireAnswers hD, mem_fireAnswers hD']
    simp only [same.mem_iff (fireAnswers_eq_ok.1 hD).2]
  · obtain ⟨s, hs, hfires⟩ := (mem_fireAnswers hD).1 ht
    obtain ⟨G, hG⟩ := Term.isFormula_iff.1 (sides hc)
    exact hfires.hasVar hG (free s hs)
  · have left : a.complete = false → ¬ total := fun h ht => by rw [complete ht] at h; cases h
    have same_left : a'.complete = false → a.complete = false := by
      intro h
      rw [← Bool.not_eq_true] at h ⊢
      exact mt same.complete_iff.1 h
    -- The match that fails to fire in one run may lie where the other search did not come to.
    rcases fireAnswers_eq_error he with ⟨b, -, he⟩ | ⟨hc, rfl⟩
    · obtain ⟨hform, hkind⟩ := kind_of_fire he
      have dirty : ¬ clean := fun hc => by rw [sides hc] at hform; cases hform
      rcases fireAnswers_eq_error hf with ⟨b', -, hf⟩ | ⟨hc', rfl⟩
      · exact ⟨.inl (hkind.trans (kind_of_fire hf).2.symm), fun hc => absurd hc dirty⟩
      · exact ⟨.inr ⟨left (same_left hc'), .inr rfl⟩, fun hc => absurd hc dirty⟩
    · exact ⟨.inr ⟨left hc, .inl rfl⟩, fun _ => .inr rfl⟩

end Rule

/-- Whatever the order of the triples, the clauses have the same matches under both configurations. -/
structure SearchedAlike (total : Prop) (config config' : Config) (clauses : List Triple) : Prop where
  same : ∀ store store' : Store, store.Same store' →
    (store.answers config clauses).Same (store'.answers config' clauses)
  complete : total → ∀ store : Store, (store.answers config clauses).complete = true

namespace Rule

variable {r : Rule}

theorem conditionFormula_alike (sides : clean → r.condition.isFormula = true) :
    EndAlike (FaultsAlike total clean) (fun F F' => r.conditionFormula = .ok F ∧ F = F')
      r.conditionFormula r.conditionFormula := by
  refine endAlike_self _ fun hc e he => ?_
  obtain ⟨F, hF⟩ := Term.isFormula_iff.1 (sides hc)
  rw [conditionFormula_eq_ok.2 hF] at he
  cases he

theorem derive_alike (searched : ∀ F, r.condition = .formula F → SearchedAlike total config config' F)
    (sides : clean → r.condition.isFormula = true ∧ r.conclusion.isFormula = true) {store store' : Store}
    (h : store.Same store') : EndAlike (FaultsAlike total clean) (DerivedAlike clean)
      (r.derive config store) (r.derive config' store') := by
  refine (conditionFormula_alike fun hc => (sides hc).1).bind fun F F' hF => ?_
  obtain ⟨hF, rfl⟩ := hF
  have alike := searched F (conditionFormula_eq_ok.1 hF)
  exact fireAnswers_alike (alike.same _ _ h) (fun ht => alike.complete ht store)
    (fun hc => (sides hc).2) (Store.varFree_answers _ _ _)

end Rule

/-! ## Rules with negations -/

/-- The lists of clauses that evaluating a rule can search: its condition, if there is no negation,
parts of what the condition is read for, and what a negation makes of it. -/
inductive Rule.Searches (r : Rule) : List Triple → Prop where
  | condition {F : Formula} (hF : r.condition = .formula F) (h : r.isNegative = false) : r.Searches F
  | part {F : Formula} {clauses : List Triple} (hF : r.condition = .formula F)
    (h : ∀ c ∈ clauses, c ∈ F.readClauses) : r.Searches (Formula.ofList clauses)
  | plain {F : Formula} (hF : r.condition = .formula F) :
    r.Searches (Formula.ofList (Rule.plainClauses F))
  | held {F : Formula} (hF : r.condition = .formula F) : r.Searches (Formula.ofList (Rule.heldClauses F))

/-- What both runs need of a rule. -/
structure Rule.Comparable (total clean : Prop) (config config' : Config) (r : Rule) : Prop where
  searched : ∀ clauses, r.Searches clauses → SearchedAlike total config config' clauses
  sides : clean → r.condition.isFormula = true ∧ r.conclusion.isFormula = true

namespace Rule

variable {r : Rule} (hr : r.Comparable total clean config config')
include hr

theorem Comparable.derive_alike (pos : r.isNegative = false) {store store' : Store}
    (h : store.Same store') : EndAlike (FaultsAlike total clean) (DerivedAlike clean)
      (r.derive config store) (r.derive config' store') :=
  Rule.derive_alike (fun _ hF => hr.searched _ (.condition hF pos)) hr.sides h

theorem Comparable.deriveNegated_alike {store store' : Store} (h : store.Same store') :
    Run.Alike (FaultsAlike total clean) (DerivedAlike clean) (r.deriveNegated config store)
      (r.deriveNegated config' store') := by
  unfold Run.Alike
  cases hF : r.conditionFormula with
  | error e =>
    have fails : ∀ config store, (r.deriveNegated config store).result = .error e := by
      intro config store
      rw [deriveNegated, held, hF]
      rfl
    rw [fails, fails]
    refine .error ⟨.inl rfl, fun hc => ?_⟩
    obtain ⟨F, hF'⟩ := Term.isFormula_iff.1 (hr.sides hc).1
    rw [conditionFormula_eq_ok.2 hF'] at hF
    cases hF
  | ok F =>
    rw [conditionFormula_eq_ok] at hF
    rw [result_deriveNegated hF, result_deriveNegated hF]
    have plain := hr.searched _ (.plain hF)
    have held := hr.searched _ (.held hF)
    have candidates := Rule.derive_alike (r := r.withCondition (plainClauses F))
      (fun F' hF' => by cases hF'; exact plain) (fun hc => ⟨rfl, (hr.sides hc).2⟩) h
    refine candidates.bind fun D D' hD => ?_
    have blocked := fireAnswers_alike (r := r.withCondition (heldClauses F))
      ((held.same _ _ h).map fun m => m.restrict fun k => (Term.quoting (plainClauses F)).slots.contains k)
      (fun ht => held.complete ht store) (fun hc => (hr.sides hc).2) fun s hs => ?_
    · exact blocked.bind fun B B' hB => .ok (hD.without hB)
    · obtain ⟨m, hm, rfl⟩ := List.mem_map.1 hs
      exact (Store.varFree_answers _ _ _ m hm).restrict _

end Rule

/-! ## Guards -/

namespace Guard

variable {producer consumer : Rule} {store store' : Store}

theorem kind_of_split {e : Fault} (h : split producer consumer = .error e)
    (hF : consumer.condition.isFormula = true) : e.kind = .unsupported := by
  obtain ⟨F, hF⟩ := Term.isFormula_iff.1 hF
  unfold split at h
  split at h
  · rw [Rule.conditionFormula_eq_ok.2 hF] at h
    dsimp only [bind, ok_bind] at h
    split at h
    · cases h
    · cases h
      rfl
  · cases h
    rfl

theorem searches_of_split {g : Guard} (h : split producer consumer = .ok g) :
    consumer.Searches (Formula.ofList g.guard) ∧ consumer.Searches (Formula.ofList g.rest) := by
  obtain ⟨G, hG⟩ : ∃ G, producer.conclusion = .formula G := by
    unfold split at h
    split at h
    · next G hG => exact ⟨G, hG⟩
    · cases h
  obtain ⟨F, hF⟩ : ∃ F, consumer.condition = .formula F := by
    rw [split, hG] at h
    obtain ⟨F, hF, -⟩ := bind_eq_ok.1 h
    exact ⟨F, Rule.conditionFormula_eq_ok.1 hF⟩
  have sub := subset_of_split hG hF h
  exact ⟨.part hF sub.1, .part hF sub.2⟩

theorem split_alike (sides : clean → consumer.condition.isFormula = true) :
    EndAlike (FaultsAlike total clean) (fun g g' => split producer consumer = .ok g ∧ g = g')
      (split producer consumer) (split producer consumer) :=
  endAlike_self _ fun hc _ he => .inl (kind_of_split he (sides hc))

theorem instances_alike {clauses : Formula}
    (searched : SearchedAlike total config config' (Formula.ofList clauses)) (h : store.Same store') :
    EndAlike (FaultsAlike total clean) Graph.Same (instances config store clauses)
      (instances config' store' clauses) := by
  unfold instances
  split
  · exact .ok fun _ => Iff.rfl
  · have found : EndAlike (FaultsAlike total clean) (DerivedAlike clean)
        ((Rule.ofLists clauses clauses).derive config store)
        ((Rule.ofLists clauses clauses).derive config' store') :=
      Rule.derive_alike (fun F hF => by cases hF; exact searched) (fun _ => ⟨rfl, rfl⟩) h
    exact found.bind fun D D' hD => hD.addAll fun _ => Iff.rfl

theorem bound_eq (g : Guard) {guarding guarding' resting resting' : Graph} (hg : guarding.Same guarding')
    (hr : resting.Same resting') : g.bound guarding resting = g.bound guarding' resting' := by
  rw [bound, bound, hg.size_eq, hr.size_eq]

end Guard

/-! ## Rules that feed themselves -/

namespace Rule

variable {r : Rule} (hr : ∀ store store' : Store, store.Same store' → EndAlike
  (FaultsAlike total clean) (DerivedAlike clean) (r.derive config store) (r.derive config' store'))

include hr

theorem rounds_alike {facts facts' : Store} (hf : facts.Same facts') (bound left : Nat)
    {store store' : Graph} (hs : store.Same store') {derived derived' : OrderedSet Triple}
    (hd : DerivedAlike clean derived derived') : Run.Alike (FaultsAlike total clean) (DerivedAlike clean)
      (r.rounds config facts bound left store derived)
      (r.rounds config' facts' bound left store' derived') := by
  induction left generalizing store store' derived derived' with
  | zero =>
    unfold rounds
    by_cases hb : bound ≠ 0
    · rw [if_pos hb, if_pos hb]
      exact (Run.alike_report ..).bind fun _ _ _ => Run.alike_pure hd
    · rw [if_neg hb, if_neg hb]
      exact Run.alike_pure hd
  | succ left ih =>
    unfold rounds
    refine (Run.alike_lift (hr (.graph store) (.graph store') hs)).bind fun found found' hfound => ?_
    refine (Run.alike_lift (hfound.addAll hs)).bind fun grown grown' hgrown => ?_
    refine (Run.alike_report ..).bind fun _ _ _ => ?_
    have hadded : found.toList.countP (fun t => !store.contains t && !facts.contains t) =
        found'.toList.countP (fun t => !store'.contains t && !facts'.contains t) :=
      hfound.countP_eq fun t => by rw [hs.contains_eq, hf.contains_eq]
    rw [hadded]
    split
    · exact Run.alike_pure (hd.insertAll hfound)
    · exact ih hgrown (hd.insertAll hfound)

theorem saturate_alike (limit : config.roundLimit = config'.roundLimit) (patience number : Nat)
    {store store' : Graph} (hs : store.Same store') {derived derived' : OrderedSet Triple}
    (hd : DerivedAlike clean derived derived') : Run.Alike (FaultsAlike total clean) (DerivedAlike clean)
      (r.saturate config patience number store derived)
      (r.saturate config' patience number store' derived') := by
  induction patience generalizing number store store' derived derived' with
  | zero =>
    unfold saturate
    rw [limit]
    split
    · exact (Run.alike_report ..).bind fun _ _ _ => Run.alike_pure hd
    · exact Run.alike_fail ⟨.inl rfl, fun _ => .inr rfl⟩
  | succ patience ih =>
    unfold saturate
    rw [limit]
    split
    · exact (Run.alike_report ..).bind fun _ _ _ => Run.alike_pure hd
    · refine (Run.alike_lift (hr (.graph store) (.graph store') hs)).bind fun found found' hfound => ?_
      refine (Run.alike_lift (hfound.addAll hs)).bind fun grown grown' hgrown => ?_
      refine (Run.alike_report ..).bind fun _ _ _ => ?_
      have hadded : found.toList.countP (fun t => !store.contains t) =
          found'.toList.countP (fun t => !store'.contains t) :=
        hfound.countP_eq fun t => by rw [hs.contains_eq]
      rw [hadded]
      split
      · exact Run.alike_pure (hd.insertAll hfound)
      · exact ih (number + 1) hgrown (hd.insertAll hfound)

end Rule

theorem Config.rounds_congr (limit : config.roundLimit = config'.roundLimit) (bound : Nat) :
    config.rounds bound = config'.rounds bound := by
  rw [rounds, rounds, limit]

/-- What both runs need of their configurations and of the rules. -/
structure ComparableRuns (total clean : Prop) (config config' : Config) (rules : List Rule) : Prop where
  roundLimit : config.roundLimit = config'.roundLimit
  patience : config.patience = config'.patience
  rule : ∀ r ∈ rules, r.Comparable total clean config config'

section
variable {rules : List Rule} (h : ComparableRuns total clean config config' rules)
include h

theorem Rule.deriveRecursive_alike {r : Rule} (hr : r ∈ rules) {facts facts' : Graph}
    (hf : facts.Same facts') : Run.Alike (FaultsAlike total clean) (DerivedAlike clean)
      (r.deriveRecursive config (.graph facts)) (r.deriveRecursive config' (.graph facts')) := by
  have comparable := h.rule r hr
  have hstores : (Store.graph facts).Same (.graph facts') := hf
  unfold deriveRecursive
  by_cases hneg : r.isNegative = true
  · rw [if_pos hneg, if_pos hneg]
    exact Run.alike_fail (unsupported_alike rfl)
  rw [if_neg hneg, if_neg hneg]
  have pass : ∀ store store' : Store, store.Same store' → EndAlike (FaultsAlike total clean)
      (DerivedAlike clean) (r.derive config store) (r.derive config' store') :=
    fun _ _ hs => comparable.derive_alike (by simpa using hneg) hs
  split
  · have start : EndAlike (FaultsAlike total clean) Graph.Same
        (Graph.ofList (Store.graph facts).toList) (Graph.ofList (Store.graph facts').toList) :=
      Graph.addAll_alike (fun _ => Iff.rfl) hf fun _ => facts.noVar
    refine (Run.alike_lift start).bind fun store store' hstore => ?_
    rw [← h.patience]
    exact saturate_alike pass h.roundLimit _ 0 hstore .empty
  · have sides := fun hc => (comparable.sides hc).1
    refine (Run.alike_lift (Guard.split_alike sides)).bind fun split split' hsplit => ?_
    obtain ⟨hsplit, rfl⟩ := hsplit
    obtain ⟨hguard, hrest⟩ := Guard.searches_of_split hsplit
    refine (Run.alike_lift (Guard.instances_alike (comparable.searched _ hguard) hstores)).bind
      fun guarding guarding' hguarding => ?_
    refine (Run.alike_lift (Guard.instances_alike (comparable.searched _ hrest) hstores)).bind
      fun resting resting' hresting => ?_
    have hbound : config.rounds (split.bound guarding resting) =
        config'.rounds (split.bound guarding' resting') := by
      rw [split.bound_eq hguarding hresting, Config.rounds_congr h.roundLimit]
    dsimp only
    rw [hbound]
    refine (Run.alike_report ..).bind fun _ _ _ => ?_
    have start : EndAlike (FaultsAlike total clean) Graph.Same (guarding.addAll resting.toList)
        (guarding'.addAll resting'.toList) :=
      Graph.addAll_alike hguarding hresting fun _ => resting.noVar
    refine (Run.alike_lift start).bind fun store store' hstore => ?_
    exact rounds_alike pass hstores _ _ hstore .empty

/-! ## Cycles -/

namespace Cycle

theorem passBound_alike {store store' : Store} (hs : store.Same store') : (walk : List Nat) →
    EndAlike (FaultsAlike total clean) Eq (passBound config store rules walk)
      (passBound config' store' rules walk)
  | [] | [_] => .ok rfl
  | i :: j :: walk => by
    have others := passBound_alike hs (j :: walk)
    cases hi : rules[i]? with
    | none =>
      rw [passBound, passBound, hi]
      exact others
    | some producer =>
      cases hj : rules[j]? with
      | none =>
        rw [passBound, passBound, hi, hj]
        exact others
      | some consumer =>
        have comparable := h.rule consumer (List.mem_of_getElem? hj)
        rw [passBound, passBound, hi, hj]
        refine (Guard.split_alike fun hc => (comparable.sides hc).1).bind fun split split' hsplit => ?_
        obtain ⟨hsplit, rfl⟩ := hsplit
        obtain ⟨hguard, hrest⟩ := Guard.searches_of_split hsplit
        refine (Guard.instances_alike (comparable.searched _ hguard) hs).bind
          fun guarding guarding' hguarding => ?_
        refine (Guard.instances_alike (comparable.searched _ hrest) hs).bind
          fun resting resting' hresting => ?_
        refine others.bind fun n m hnm => .ok ?_
        rw [split.bound_eq hguarding hresting, hnm]

/-- The states hold the same triples, and the same rules are to be fired next. -/
structure State.Alike (clean : Prop) (s s' : State) : Prop where
  store : s.store.Same s'.store
  derived : DerivedAlike clean s.derived s'.derived
  triggered : s.triggered = s'.triggered

variable {g : DependencyGraph}

theorem fireRule_alike (pass : Nat) {i : Nat} (pos : ∀ r, rules[i]? = some r → r.isNegative = false)
    {s s' : State} (hs : State.Alike clean s s') :
    Run.Alike (FaultsAlike total clean) (State.Alike clean) (fireRule config rules g pass i s)
      (fireRule config' rules g pass i s') := by
  unfold fireRule
  cases hi : rules[i]? with
  | none => exact Run.alike_pure hs
  | some r =>
    have comparable := h.rule r (List.mem_of_getElem? hi)
    have stores : (Store.graph s.store).Same (.graph s'.store) := hs.store
    refine (Run.alike_lift (comparable.derive_alike (pos r hi) stores)).bind fun found found' hfound => ?_
    refine (Run.alike_lift (hfound.addAll hs.store)).bind fun grown grown' hgrown => ?_
    have hadded : found.toList.countP (fun t => !s.store.contains t) =
        found'.toList.countP (fun t => !s'.store.contains t) :=
      hfound.countP_eq fun t => by rw [hs.store.contains_eq]
    have hderived := hs.derived.insertAll hfound
    dsimp only
    rw [hadded]
    split
    · exact Run.alike_pure ⟨hgrown, hderived, hs.triggered⟩
    · refine (Run.alike_report ..).bind fun _ _ _ => Run.alike_pure ⟨hgrown, hderived, ?_⟩
      rw [hs.triggered]

theorem firePending_alike (pass : Nat) (pending : List Nat)
    (pos : ∀ i ∈ pending, ∀ r, rules[i]? = some r → r.isNegative = false) {s s' : State}
    (hs : State.Alike clean s s') : Run.Alike (FaultsAlike total clean) (State.Alike clean)
      (firePending config rules g pass pending s) (firePending config' rules g pass pending s') := by
  induction pending generalizing s s' with
  | nil => exact Run.alike_pure hs
  | cons i pending ih =>
    unfold firePending
    refine (fireRule_alike h pass (pos i (List.mem_cons_self ..)) hs).bind fun m m' hm => ?_
    exact ih (fun j hj => pos j (List.mem_cons_of_mem _ hj)) hm

theorem passes_alike (order : List Nat)
    (pos : ∀ i ∈ order, ∀ r, rules[i]? = some r → r.isNegative = false) (bound left : Nat)
    (pending : List Nat) (hp : ∀ i ∈ pending, i ∈ order) {s s' : State} (hs : State.Alike clean s s') :
    Run.Alike (FaultsAlike total clean) (DerivedAlike clean)
      (passes config rules g order bound left pending s)
      (passes config' rules g order bound left pending s') := by
  induction left generalizing pending s s' with
  | zero =>
    cases pending with
    | nil => exact Run.alike_pure hs.derived
    | cons i pending =>
      unfold passes
      exact (Run.alike_report ..).bind fun _ _ _ => Run.alike_pure hs.derived
  | succ left ih =>
    cases pending with
    | nil => exact Run.alike_pure hs.derived
    | cons i pending =>
      unfold passes
      have start : State.Alike clean { s with triggered := [] } { s' with triggered := [] } :=
        ⟨hs.store, hs.derived, rfl⟩
      refine (firePending_alike h _ (i :: pending) (fun j hj => pos j (hp j hj)) start).bind
        fun m m' hm => ?_
      rw [hm.triggered]
      exact ih _ (fun j hj => (List.mem_filter.1 hj).1) hm

theorem derive_alike (members : List Nat) {facts facts' : Graph} (hf : facts.Same facts') :
    Run.Alike (FaultsAlike total clean) (DerivedAlike clean) (derive config facts rules g members)
      (derive config' facts' rules g members) := by
  unfold derive
  cases hrules : members.filterMap (fun i => rules[i]?) with
  | nil => exact Run.alike_pure .empty
  | cons lead others =>
    dsimp only
    cases hfind : (lead :: others).find? Rule.isNegative with
    | some negative => exact Run.alike_fail (unsupported_alike rfl)
    | none =>
      cases hwalk : g.walk members with
      | none => exact Run.alike_fail (unsupported_alike rfl)
      | some walk =>
        have pos : ∀ i ∈ (OrderedSet.ofList walk).toList, ∀ r, rules[i]? = some r →
            r.isNegative = false := by
          intro i hi r hr
          rw [← OrderedSet.mem_def, OrderedSet.mem_ofList, DependencyGraph.mem_walk hwalk] at hi
          have hmem : r ∈ lead :: others := hrules ▸ List.mem_filterMap.2 ⟨i, hi, hr⟩
          simpa using List.find?_eq_none.1 hfind r hmem
        have hstores : (Store.graph facts).Same (.graph facts') := hf
        refine (Run.alike_lift (passBound_alike h hstores walk)).bind fun n m hnm => ?_
        rw [hnm, Config.rounds_congr h.roundLimit]
        refine (Run.alike_report ..).bind fun _ _ _ => ?_
        exact passes_alike h _ pos _ _ _ (fun _ hi => hi) ⟨hf, .empty, rfl⟩

end Cycle

/-! ## All strata -/

theorem Stratum.derive_alike {s : Stratum} {g : DependencyGraph}
    (pos : s.kind = .simple → ∀ r ∈ s.rulesOf rules, r.isNegative = false) {facts facts' : Graph}
    (hf : facts.Same facts') : Run.Alike (FaultsAlike total clean) (DerivedAlike clean)
      (s.derive config facts rules g) (s.derive config' facts' rules g) := by
  have one : ∀ {r}, s.members.filterMap (fun i => rules[i]?) = [r] → r ∈ s.rulesOf rules := by
    intro r e
    rw [rulesOf, e]
    exact List.mem_singleton_self r
  have comparable : ∀ {r}, r ∈ s.rulesOf rules → r.Comparable total clean config config' :=
    fun hr => h.rule _ (mem_of_mem_rulesOf hr)
  have hstores : (Store.graph facts).Same (.graph facts') := hf
  unfold derive
  split
  · next r hkind hr =>
    exact Run.alike_lift ((comparable (one hr)).derive_alike (pos hkind r (one hr)) hstores)
  · next r hkind hr => exact (comparable (one hr)).deriveNegated_alike hstores
  · next r hkind hr => exact Rule.deriveRecursive_alike h (mem_of_mem_rulesOf (one hr)) hf
  · exact Cycle.derive_alike h s.members hf

theorem inferStrata_alike {g : DependencyGraph} (strata : List Stratum)
    (pos : ∀ s ∈ strata, s.kind = .simple → ∀ r ∈ s.rulesOf rules, r.isNegative = false) (level : Nat)
    {closure closure' : Graph} (hc : closure.Same closure') {derived derived' : OrderedSet Triple}
    (hd : DerivedAlike clean derived derived') : Run.Alike (FaultsAlike total clean) (DerivedAlike clean)
      (inferStrata config rules g level strata closure derived)
      (inferStrata config' rules g level strata closure' derived') := by
  induction strata generalizing level closure closure' derived derived' with
  | nil => exact Run.alike_pure hd
  | cons s strata ih =>
    unfold inferStrata
    refine (Run.alike_report ..).bind fun _ _ _ => ?_
    refine (Stratum.derive_alike h (pos s (List.mem_cons_self ..)) hc).bind fun found found' hfound => ?_
    refine (Run.alike_lift (hfound.addAll hc)).bind fun grown grown' hgrown => ?_
    exact ih (fun q hq => pos q (List.mem_cons_of_mem _ hq)) _ hgrown (hd.insertAll hfound)

/-- Where searches of the same triples find the same, two runs derive the same from facts in any order,
or both fail. -/
theorem infer_alike {facts facts' : List Triple} (same : ∀ t, t ∈ facts ↔ t ∈ facts')
    (noVar : clean → ∀ t ∈ facts, t.hasVar = false) :
    Run.Alike (FaultsAlike total clean) (DerivedAlike clean) (infer facts rules config)
      (infer facts' rules config') := by
  unfold infer
  have start : EndAlike (FaultsAlike total clean) Graph.Same (Graph.ofList facts)
      (Graph.ofList facts') := Graph.addAll_alike (fun _ => Iff.rfl) same noVar
  refine (Run.alike_lift start).bind fun closure closure' hclosure => ?_
  exact inferStrata_alike h _ (fun s hs => Stratum.not_negative_of_simple hs) 0 hclosure .empty

end

end

end TripleChain
