import TripleChain.Proofs.IndexedQueries
import TripleChain.Reasoner

/-!
# Loading a document

Loading puts the rules of a document before its facts, while adding its triples in turn takes them as they
come. Rules and facts do not get in each other's way, so both end in the same state if every triple is taken
(`foldlM_addTriple`). A malformed rule leaves the reasoner as it was, wherever it stands; a fact that is
refused ends the loading when all rules and the facts before it are there (`load_document`).
-/

namespace TripleChain

/-- The rules that the implications of a document state, in their order. -/
def documentRules (ts : List Triple) : Except Fault (List Rule) := (ts.filter Triple.isImplication).mapM Rule.ofTriple

/-- The triples of a document that are no implications. -/
def documentFacts (ts : List Triple) : List Triple := ts.filter fun t => !t.isImplication

section
variable {α : Type} [DecidableEq α]

/-! ## Insertion twice over -/

theorem OrderedSet.insert_of_mem {s : OrderedSet α} {a : α} (h : a ∈ s) : s.insert a = s := by
  ext1
  rw [toList_insert, if_pos (mem_def.1 h)]

theorem OrderedSet.insertAll_toList_insert (s t : OrderedSet α) (a : α) :
    s.insertAll (t.insert a).toList = (s.insertAll t.toList).insert a := by
  rw [toList_insert]
  split
  · next h => rw [insert_of_mem (mem_insertAll.2 (.inr h))]
  · rw [insertAll_append]
    rfl

/-- What is gathered in a set first is inserted as it would be from the list. -/
theorem OrderedSet.insertAll_toList_insertAll (s t : OrderedSet α) (l : List α) :
    s.insertAll (t.insertAll l).toList = (s.insertAll t.toList).insertAll l := by
  induction l generalizing t with
  | nil => rfl
  | cons a l ih => rw [insertAll_cons, ih, insertAll_toList_insert, insertAll_cons]

end

/-! ## Rules and facts apart -/

section
variable {α β : Type} {f : α → Except Fault β} {as : List α}

theorem exists_of_mapM_eq_error {e : Fault} (h : as.mapM f = .error e) : ∃ a ∈ as, f a = .error e := by
  induction as with
  | nil => cases h
  | cons a as ih =>
    rw [List.mapM_cons] at h
    cases ha : f a with
    | error e' =>
      rw [ha] at h
      cases h
      exact ⟨a, List.mem_cons_self .., ha⟩
    | ok b =>
      rw [ha] at h
      cases has : as.mapM f with
      | error e' =>
        rw [has] at h
        cases h
        obtain ⟨c, hc, refused⟩ := ih has
        exact ⟨c, List.mem_cons_of_mem _ hc, refused⟩
      | ok bs =>
        rw [has] at h
        cases h

theorem exists_of_mapM_eq_ok {a : α} {bs : List β} (h : as.mapM f = .ok bs) (ha : a ∈ as) :
    ∃ b ∈ bs, f a = .ok b := by
  induction as generalizing bs with
  | nil => exact absurd ha List.not_mem_nil
  | cons c as ih =>
    rw [List.mapM_cons] at h
    obtain ⟨b, hb, h⟩ := bind_eq_ok.1 h
    obtain ⟨bs', hbs', h⟩ := bind_eq_ok.1 h
    obtain rfl := Except.ok.inj h
    rcases List.mem_cons.1 ha with rfl | ha
    · exact ⟨b, List.mem_cons_self .., hb⟩
    · obtain ⟨b', hb', same⟩ := ih hbs' ha
      exact ⟨b', List.mem_cons_of_mem _ hb', same⟩

end

section
variable {r : Reasoner} {t : Triple} {ts front rest : List Triple} {rule : Rule} {rs : List Rule} {e : Fault}

theorem documentRules_cons_fact (h : t.isImplication = false) : documentRules (t :: ts) = documentRules ts := by
  rw [documentRules, List.filter_cons_of_neg (by simpa using h), ← documentRules]

theorem documentRules_cons_rule (h : t.isImplication = true) :
    documentRules (t :: ts) =
      (Rule.ofTriple t).bind fun rule => (documentRules ts).bind fun rs => .ok (rule :: rs) := by
  rw [documentRules, List.filter_cons_of_pos h, List.mapM_cons, ← documentRules]
  rfl

theorem documentFacts_cons_fact (h : t.isImplication = false) : documentFacts (t :: ts) = t :: documentFacts ts :=
  List.filter_cons_of_pos (by simpa using h)

theorem documentFacts_cons_rule (h : t.isImplication = true) : documentFacts (t :: ts) = documentFacts ts :=
  List.filter_cons_of_neg (by simpa using h)

theorem separateAfter_eq (ts : List Triple) (rules : OrderedSet Rule) :
    separateAfter rules ts = (documentRules ts).map fun rs => (rules.insertAll rs, documentFacts ts) := by
  induction ts generalizing rules with
  | nil => rfl
  | cons t ts ih =>
    rw [separateAfter]
    by_cases h : t.isImplication = true
    · rw [if_pos h, documentRules_cons_rule h, documentFacts_cons_rule h]
      cases Rule.ofTriple t with
      | error e => rfl
      | ok rule =>
        rw [ok_bind, ok_bind, ih]
        cases documentRules ts <;> rfl
    · rw [if_neg h, ih, documentRules_cons_fact (by simpa using h), documentFacts_cons_fact (by simpa using h)]
      cases documentRules ts <;> rfl

theorem Rule.kind_of_ofTriple (h : ofTriple t = .error e) : e.kind = .malformedRule := by
  have sides {condition conclusion : Term} {direction : Direction}
      (h : ofSides condition direction conclusion = .error e) : e.kind = .malformedRule := by
    unfold ofSides at h
    dsimp only at h
    split at h
    · cases h
      rfl
    · split at h
      · cases h
        rfl
      · cases h
  unfold ofTriple at h
  split at h
  · exact sides h
  · split at h
    · exact sides h
    · cases h
      rfl

/-- The rules are refused for one of the implications. -/
theorem exists_of_documentRules_eq_error (h : documentRules ts = .error e) :
    ∃ t ∈ ts, t.isImplication = true ∧ Rule.ofTriple t = .error e := by
  obtain ⟨t, ht, refused⟩ := exists_of_mapM_eq_error h
  obtain ⟨ht, himp⟩ := List.mem_filter.1 ht
  exact ⟨t, ht, himp, refused⟩

/-- Where the rules are taken, every implication states one of them. -/
theorem exists_of_documentRules_eq_ok (h : documentRules ts = .ok rs) (ht : t ∈ ts) (himp : t.isImplication = true) :
    ∃ rule ∈ rs, Rule.ofTriple t = .ok rule := exists_of_mapM_eq_ok h (List.mem_filter.2 ⟨ht, himp⟩)

namespace Reasoner

variable {g : Graph}

theorem foldl_addRule (rules : List Rule) : rules.foldl addRule r = { r with rules := r.rules.insertAll rules } := by
  induction rules generalizing r with
  | nil => rfl
  | cons rule rules ih => rw [List.foldl_cons, ih, addRule, OrderedSet.insertAll_cons]

theorem load_of_error (h : documentRules ts = .error e) : r.load ts = (r, .error e) := by
  rw [load, separate, separateAfter_eq, h]
  rfl

theorem load_of_ok (h : documentRules ts = .ok rs) :
    r.load ts = ({ r with rules := r.rules.insertAll rs } : Reasoner).addFacts (documentFacts ts) := by
  have once : r.rules.insertAll ((∅ : OrderedSet Rule).insertAll rs).toList = r.rules.insertAll rs :=
    OrderedSet.insertAll_toList_insertAll r.rules ∅ rs
  rw [load, separate, separateAfter_eq, h]
  show ((((∅ : OrderedSet Rule).insertAll rs).toList.foldl addRule r).addFacts (documentFacts ts)) = _
  rw [foldl_addRule, once]

theorem addFacts_append (h : r.facts.addAll front = .ok g) :
    r.addFacts (front ++ rest) = ({ r with facts := g } : Reasoner).addFacts rest := by
  induction front generalizing r with
  | nil =>
    cases h
    rfl
  | cons t front ih =>
    rw [Graph.addAll, List.foldlM_cons] at h
    obtain ⟨g', hg', h⟩ := bind_eq_ok.1 h
    rw [List.cons_append, addFacts, addFact, hg']
    exact ih h

/-- Triples that are all taken in turn leave their rules and their facts, each in order. -/
theorem foldlM_addTriple (hrules : documentRules ts = .ok rs) (hfacts : r.facts.addAll (documentFacts ts) = .ok g) :
    ts.foldlM addTriple r = .ok { r with facts := g, rules := r.rules.insertAll rs } := by
  -- A rule leaves the facts alone and a fact the rules, so the two lists are used up side by side.
  induction ts generalizing r rs with
  | nil =>
    cases hrules
    cases hfacts
    rfl
  | cons t ts ih =>
    rw [List.foldlM_cons, addTriple]
    by_cases h : t.isImplication = true
    · rw [documentRules_cons_rule h] at hrules
      obtain ⟨rule, hrule, hrules⟩ := bind_eq_ok.1 hrules
      obtain ⟨rs', hrs', hrules⟩ := bind_eq_ok.1 hrules
      obtain rfl := Except.ok.inj hrules
      rw [documentFacts_cons_rule h] at hfacts
      rw [if_pos h, hrule]
      exact ih (r := r.addRule rule) hrs' hfacts
    · have fact : t.isImplication = false := by simpa using h
      rw [documentRules_cons_fact fact] at hrules
      rw [documentFacts_cons_fact fact, Graph.addAll, List.foldlM_cons] at hfacts
      obtain ⟨g', hg', hfacts⟩ := bind_eq_ok.1 hfacts
      rw [if_neg h, addFact, hg']
      exact ih (r := { r with facts := g' }) hrules hfacts

/-- The facts before the first one with a variable are added, and then that one is refused. -/
theorem addFacts_of_hasVar (hfront : r.facts.addAll front = .ok g) (ht : t.hasVar = true) (rest : List Triple) :
    r.addFacts (front ++ t :: rest) = ({ r with facts := g }, .error (.variableInFact t)) := by
  have refused : g.add t = .error (.variableInFact t) := Graph.add_eq_error.2 ⟨ht, rfl⟩
  rw [addFacts_append hfront, addFacts, addFact, refused]
  rfl

theorem load_malformed (ht : t ∈ ts) (himp : t.isImplication = true) (he : Rule.ofTriple t = .error e) :
    ∃ f, f.kind = .malformedRule ∧ r.load ts = (r, .error f) := by
  cases hrules : documentRules ts with
  | error f =>
    obtain ⟨u, -, -, hu⟩ := exists_of_documentRules_eq_error hrules
    exact ⟨f, Rule.kind_of_ofTriple hu, load_of_error hrules⟩
  | ok rules =>
    obtain ⟨rule, -, hrule⟩ := exists_of_documentRules_eq_ok hrules ht himp
    rw [he] at hrule
    cases hrule

theorem exists_documentRules (h : ∀ t ∈ ts, t.isImplication = true → ∃ rule, Rule.ofTriple t = .ok rule) :
    ∃ rules, documentRules ts = .ok rules := by
  cases hrules : documentRules ts with
  | ok rules => exact ⟨rules, rfl⟩
  | error f =>
    obtain ⟨t, ht, himp, hf⟩ := exists_of_documentRules_eq_error hrules
    obtain ⟨rule, hrule⟩ := h t ht himp
    rw [hf] at hrule
    cases hrule

theorem load_facts (hrules : documentRules ts = .ok rs) (noVar : ∀ t ∈ documentFacts ts, t.hasVar = false) :
    ∃ r', r.load ts = (r', .ok ()) ∧ ts.foldlM addTriple r = .ok r' := by
  obtain ⟨g, hg⟩ := Graph.exists_addAll noVar r.facts
  refine ⟨_, ?_, foldlM_addTriple hrules hg⟩
  rw [load_of_ok hrules, ← List.append_nil (documentFacts ts)]
  exact addFacts_append hg

theorem load_refused (hrules : documentRules ts = .ok rs) (ht : t ∈ documentFacts ts) (hvar : t.hasVar = true) :
    ∃ front first back g, documentFacts ts = front ++ first :: back ∧ (∀ u ∈ front, u.hasVar = false) ∧
      first.hasVar = true ∧ r.facts.addAll front = .ok g ∧
      r.load ts = ({ r with facts := g, rules := r.rules.insertAll rs }, .error (.variableInFact first)) := by
  obtain ⟨first, hfirst⟩ := Option.isSome_iff_exists.1 (List.find?_isSome.2 ⟨t, ht, hvar⟩)
  obtain ⟨hvar, front, back, split, before⟩ := List.find?_eq_some_iff_append.1 hfirst
  have noVar : ∀ u ∈ front, u.hasVar = false := fun u hu => by simpa using before u hu
  obtain ⟨g, hg⟩ := Graph.exists_addAll noVar r.facts
  refine ⟨front, first, back, g, split, noVar, hvar, hg, ?_⟩
  rw [load_of_ok hrules, split]
  exact addFacts_of_hasVar (r := { r with rules := r.rules.insertAll rs }) hg hvar back

/-- Loading a document with a malformed rule changes nothing, wherever the rule stands. If all rules are well
formed and every other triple is a fact, loading leaves what adding the triples in turn leaves. If some other
triple has a variable in a position, all rules are added and exactly the facts before the first such triple,
which is a type mismatch. -/
theorem load_document (r : Reasoner) (ts : List Triple) :
    ((∃ t ∈ ts, t.isImplication = true ∧ ∃ e, Rule.ofTriple t = .error e) →
        ∃ e, e.kind = .malformedRule ∧ r.load ts = (r, .error e)) ∧
      ((∀ t ∈ ts, t.isImplication = true → ∃ rule, Rule.ofTriple t = .ok rule) →
        ((∀ t ∈ documentFacts ts, t.hasVar = false) →
          ∃ r', r.load ts = (r', .ok ()) ∧ ts.foldlM addTriple r = .ok r') ∧
        ((∃ t ∈ documentFacts ts, t.hasVar = true) → ∃ rules front first back g,
          documentRules ts = .ok rules ∧ documentFacts ts = front ++ first :: back ∧
          (∀ u ∈ front, u.hasVar = false) ∧ first.hasVar = true ∧ r.facts.addAll front = .ok g ∧
          r.load ts = ({ r with facts := g, rules := r.rules.insertAll rules },
            .error (.variableInFact first)))) := by
  constructor
  · rintro ⟨t, ht, himp, e, he⟩
    exact load_malformed ht himp he
  · intro taken
    obtain ⟨rules, hrules⟩ := exists_documentRules taken
    refine ⟨load_facts hrules, ?_⟩
    rintro ⟨t, ht, hvar⟩
    obtain ⟨front, first, back, g, refused⟩ := load_refused (r := r) hrules ht hvar
    exact ⟨rules, front, first, back, g, hrules, refused⟩

/-- A document with each rule and fact twice, one with a malformed rule at its end, and one with a fact that is
refused before its rule. -/
theorem load_document_mixed :
    let knows (x y : Term) : Triple := ⟨x, .iri "knows", y⟩
    let fact := knows (.iri "ann") (.iri "ben")
    let loose := knows (.var "x") (.iri "ben")
    let rule : Triple := ⟨.quoting [knows (.var "x") (.var "y")], .iri Vocabulary.implies,
      .quoting [knows (.var "y") (.var "x")]⟩
    let malformed : Triple := ⟨.var "x", .iri Vocabulary.impliedBy, .var "y"⟩
    let r := Reasoner.new
    (∃ e, e.kind = .malformedRule ∧ r.load [loose, rule, fact, malformed] = (r, .error e)) ∧
      (∃ r', r.load [fact, rule, fact, rule] = (r', .ok ()) ∧ [fact, rule, fact, rule].foldlM addTriple r = .ok r') ∧
      ∃ r' first, r.load [fact, loose, rule] = (r', .error (.variableInFact first)) ∧
        r'.facts.toList = [fact] ∧ r'.rules.toList.map Rule.toTriple = [rule] := by
  intro knows fact loose rule malformed r
  have taken : ∃ read, Rule.ofTriple rule = .ok read := ⟨_, rfl⟩
  have refused : ∃ e, Rule.ofTriple malformed = .error e := ⟨_, rfl⟩
  have whole : ∀ t ∈ [fact, rule, fact, rule], t.isImplication = true → ∃ read, Rule.ofTriple t = .ok read := by
    intro t ht himp
    simp only [List.mem_cons, List.not_mem_nil, or_false] at ht
    rcases ht with rfl | rfl | rfl | rfl <;> first | exact taken | cases himp
  have late : ∀ t ∈ [fact, loose, rule], t.isImplication = true → ∃ read, Rule.ofTriple t = .ok read := by
    intro t ht himp
    simp only [List.mem_cons, List.not_mem_nil, or_false] at ht
    rcases ht with rfl | rfl | rfl <;> first | exact taken | cases himp
  have facts : ∀ t ∈ documentFacts [fact, rule, fact, rule], t.hasVar = false := by decide +kernel
  have some : ∃ t ∈ documentFacts [fact, loose, rule], t.hasVar = true := ⟨loose, by decide +kernel, rfl⟩
  refine ⟨(load_document r _).1 ⟨malformed, by decide +kernel, rfl, refused⟩,
    ((load_document r _).2 whole).1 facts, ?_⟩
  obtain ⟨rules, front, first, back, g, -, -, -, -, -, loaded⟩ := ((load_document r _).2 late).2 some
  have left : (r.load [fact, loose, rule]).1.facts.toList = [fact] := by decide +kernel
  have left' : (r.load [fact, loose, rule]).1.rules.toList.map Rule.toTriple = [rule] := by decide +kernel
  rw [loaded] at left left'
  exact ⟨_, first, loaded, left, left'⟩

end Reasoner

end

end TripleChain
