import TripleChain.Proofs.Passes

/-!
# Queries after any history of a graph

Facts come into a graph one at a time or with the facts of another store, and a graph is built anew from a
list. Whatever is put in, and whatever is refused, the graph holds the triples taken so far, each once and
in the order in which it first came, and every column holds those of them that have the term, in the same
order, or nothing for a quoted formula (`Graph.Holds.step`). So a query answers as a scan of what is held
(`Graph.query_after`).
-/

namespace TripleChain

/-- Nothing is looked up or put in under a formula. -/
theorem Column.getD_add_formula (c : Column) (v : Term) (t : Triple) {w : Term} (h : w.isFormula = true) :
    (c.add v t).getD w #[] = c.getD w #[] := by
  unfold add
  split
  · rfl
  · next hv =>
    rw [Std.TreeMap.getD_alter, if_neg]
    intro e
    rw [Std.LawfulEqOrd.eq_of_compare e] at hv
    exact hv h

theorem Triple.hasVar_iff {t : Triple} : t.hasVar = true ↔ ∃ p x, t.get p = .var x := by
  have isVar : ∀ a : Term, a.isVar = true ↔ ∃ x, a = .var x := fun a => by cases a <;> simp [Term.isVar]
  simp only [hasVar, terms, List.any_cons, List.any_nil, Bool.or_false, Bool.or_eq_true, isVar]
  refine ⟨?_, ?_⟩
  · rintro (⟨x, h⟩ | ⟨x, h⟩ | ⟨x, h⟩)
    · exact ⟨.subject, x, h⟩
    · exact ⟨.predicate, x, h⟩
    · exact ⟨.object, x, h⟩
  · rintro ⟨p, x, h⟩
    cases p with
    | subject => exact .inl ⟨x, h⟩
    | predicate => exact .inr (.inl ⟨x, h⟩)
    | object => exact .inr (.inr ⟨x, h⟩)

def Store.graph? : Store → Option Graph
  | graph g => some g
  | formula _ => none

namespace Graph

/-! ## Calls -/

inductive Call where
  | insert (t : Triple)
  /-- A new graph takes the place of the old one, if it can be built. -/
  | build (ts : List Triple)
  /-- Puts in the triples of a store up to the first that is refused. -/
  | union (other : Store)

/-- The graph that a call leaves, also where the call is refused. -/
def step (g : Graph) : Call → Graph
  | .insert t => (g.add t).toOption.getD g
  | .build ts => (ofList ts).toOption.getD g
  | .union other => ((Store.graph g).absorb other.toList).1.graph?.getD g

def after (calls : List Call) : Graph := calls.foldl step ∅

/-- What is held after a call, by order of arrival alone. -/
def Call.record (held : OrderedSet Triple) : Call → OrderedSet Triple
  | .insert t => if t.hasVar then held else held.insert t
  | .build ts => if ts.any Triple.hasVar then held else .ofList ts
  | .union other => held.insertAll (other.toList.takeWhile fun t => !t.hasVar)

def recorded (calls : List Call) : OrderedSet Triple := calls.foldl Call.record ∅

/-- The graph holds the triples, and no column has anything under a formula. -/
structure Holds (g : Graph) (held : OrderedSet Triple) : Prop where
  toList : g.toList = held.toList
  unindexed : ∀ p v, v.isFormula = true → (g.columns.get p).getD v #[] = #[]

section
variable {g g' : Graph} {held : OrderedSet Triple}

theorem add_eq_ok {t : Triple} : g.add t = .ok g' ↔ ∃ h : t.hasVar = false, g.insert t h = g' := by
  unfold add
  split
  · next h =>
    refine ⟨fun e => ⟨h, Except.ok.inj e⟩, ?_⟩
    rintro ⟨_, e⟩
    rw [e]
  · next h =>
    refine ⟨fun e => ?_, ?_⟩
    · cases e
    · rintro ⟨h', _⟩
      exact absurd h' h

theorem add_eq_error {t : Triple} {e : Fault} :
    g.add t = .error e ↔ t.hasVar = true ∧ e = .variableInFact t := by
  unfold add
  split
  · next h =>
    rw [h]
    refine ⟨fun he => ?_, ?_⟩
    · cases he
    · rintro ⟨hvar, _⟩
      cases hvar
  · next h =>
    refine ⟨fun he => ⟨by simpa using h, (Except.error.inj he).symm⟩, ?_⟩
    rintro ⟨_, rfl⟩
    rfl

theorem holds_empty : (∅ : Graph).Holds ∅ := by
  refine ⟨rfl, fun p v _ => ?_⟩
  cases p <;> rfl

theorem Holds.insert (h : g.Holds held) {t : Triple} (ht : t.hasVar = false) :
    (g.insert t ht).Holds (held.insert t) := by
  refine ⟨by rw [toList_insert, OrderedSet.toList_insert, h.toList], fun p v hv => ?_⟩
  unfold Graph.insert
  split
  · exact h.unindexed p v hv
  · rw [Columns.get_add, Column.getD_add_formula _ _ _ hv, h.unindexed p v hv]

theorem Holds.addAll (h : g.Holds held) {ts : List Triple} (hg : g.addAll ts = .ok g') :
    g'.Holds (held.insertAll ts) := by
  induction ts generalizing g held with
  | nil =>
    obtain rfl := Except.ok.inj hg
    exact h
  | cons t ts ih =>
    rw [Graph.addAll, List.foldlM_cons] at hg
    obtain ⟨g₁, hadd, hg⟩ := bind_eq_ok.1 hg
    obtain ⟨ht, rfl⟩ := add_eq_ok.1 hadd
    exact ih (h.insert ht) hg

theorem Holds.build (h : g.Holds held) (ts : List Triple) :
    (g.step (.build ts)).Holds ((Call.build ts).record held) := by
  rw [step, Call.record]
  cases hg : ofList ts with
  | ok g' =>
    have none : ts.any Triple.hasVar = false := by
      rw [List.any_eq_false]
      exact fun t ht => by rw [noVar_of_addAll hg t ht]; exact Bool.false_ne_true
    rw [none]
    exact holds_empty.addAll hg
  | error e =>
    obtain ⟨t, ht, hvar, -⟩ := addAll_eq_error hg
    rw [if_pos (List.any_eq_true.2 ⟨t, ht, hvar⟩)]
    exact h

theorem Holds.absorb (h : g.Holds held) (ts : List Triple) :
    ∃ g', ((Store.graph g).absorb ts).1 = .graph g' ∧
      g'.Holds (held.insertAll (ts.takeWhile fun t => !t.hasVar)) := by
  induction ts generalizing g held with
  | nil => exact ⟨g, rfl, h⟩
  | cons t ts ih =>
    rw [Store.absorb, Store.add]
    cases hadd : g.add t with
    | error e =>
      rw [List.takeWhile_cons_of_neg (by simp [(add_eq_error.1 hadd).1])]
      exact ⟨g, rfl, h⟩
    | ok g₁ =>
      obtain ⟨ht, rfl⟩ := add_eq_ok.1 hadd
      rw [List.takeWhile_cons_of_pos (by simp [ht]), OrderedSet.insertAll_cons]
      exact ih (h.insert ht)

theorem Holds.step (h : g.Holds held) (c : Call) : (g.step c).Holds (c.record held) := by
  cases c with
  | insert t =>
    rw [Graph.step, Call.record]
    cases hadd : g.add t with
    | ok g' =>
      obtain ⟨ht, rfl⟩ := add_eq_ok.1 hadd
      rw [ht]
      exact h.insert ht
    | error e =>
      rw [if_pos (add_eq_error.1 hadd).1]
      exact h
  | build ts => exact h.build ts
  | union other =>
    obtain ⟨g', hg', holds⟩ := h.absorb other.toList
    rw [Graph.step, hg']
    exact holds

theorem Holds.foldl (h : g.Holds held) (calls : List Call) :
    (calls.foldl Graph.step g).Holds (calls.foldl Call.record held) := by
  induction calls generalizing g held with
  | nil => exact h
  | cons c calls ih => exact ih (h.step c)

end

/-- After any calls, refused ones among them, a query gives the triples taken so far that the mask admits,
each once and in the order in which it first came; what is held and each column agree with them. A triple
is refused if a variable stands in a position, and then nothing changes. -/
theorem query_after (calls : List Call) (m : Mask) (t : Triple) :
    let g := after calls
    let held := recorded calls
    (g.query m = held.toList.filter m.admits ∧ (g.query m).Nodup) ∧
      (g.toList = held.toList ∧ g.size = held.size ∧ (g.contains t = true ↔ t ∈ held)) ∧
      (∀ p v, ((g.columns.get p).getD v #[]).toList =
        if v.isFormula then [] else held.toList.filter fun t => t.get p = v) ∧
      ((∃ e, g.add t = .error e) ↔ ∃ p x, t.get p = .var x) ∧
      ((∃ e, g.add t = .error e) → g.step (.insert t) = g) := by
  intro g held
  have h : g.Holds held := holds_empty.foldl calls
  refine ⟨⟨?_, ?_⟩, ⟨h.toList, ?_, ?_⟩, fun p v => ?_, ?_, ?_⟩
  · rw [query_eq_filter, h.toList]
  · rw [query_eq_filter]
    exact g.nodup.filter _
  · rw [OrderedSet.size, ← h.toList]
    rfl
  · rw [contains_iff, h.toList]
    rfl
  · split
    · next hv => rw [h.unindexed p v hv]
    · next hv => rw [g.indexed p v (by simpa using hv), ← h.toList]; rfl
  · rw [← Triple.hasVar_iff]
    exact ⟨fun ⟨_, he⟩ => (add_eq_error.1 he).1, fun hvar => ⟨_, add_eq_error.2 ⟨hvar, rfl⟩⟩⟩
  · rintro ⟨e, he⟩
    rw [step, he]
    rfl

/-- A repeat, a triple with a variable in a position and a union that stops at one. -/
example :
    let t (s : String) : Triple := ⟨.iri s, .iri "p", .quoting [⟨.var "x", .iri "q", .iri s⟩]⟩
    let open' : Triple := ⟨.iri "cc", .iri "p", .var "x"⟩
    let g := after [.build [t "b", t "a", t "b"], .insert open', .union (.formula [t "c", open', t "d"]), .insert (t "a")]
    g.query ⟨none, some (.iri "p"), none⟩ = [t "b", t "a", t "c"] ∧
      g.query ⟨some (.iri "a"), none, some (t "a").object⟩ = [t "a"] ∧ g.query ⟨none, some (.iri "q"), none⟩ = [] := by
  decide +kernel

end Graph

end TripleChain
