import TripleChain.Proofs.Pairing

/-!
# Comparisons that share a correspondence

Terms and triples are compared one after the other, and the correspondence of blank nodes is handed on, also where a
comparison fails. It only grows, by blank nodes that meet in a position, and stays one to one
(`Comparison.grown_askAll`). All of the comparisons succeed, in whatever order they are made, if each one does by
itself and the blank nodes that meet correspond one to one (`askAll_injective`).
-/

namespace TripleChain

namespace Correspondence

/-- Blank nodes correspond to blank nodes, one to one. -/
structure Injective (m : Correspondence) : Prop where
  blank : ∀ e ∈ m.entries, e.1.isBlank = true ∧ e.2.isBlank = true
  oneToOne : OneToOne m.entries

/-- What corresponds still does, and what was added is among `bs`. -/
structure Grown (m : Correspondence) (bs : List (Term × Term)) (m' : Correspondence) : Prop where
  kept : ∀ e ∈ m.entries, e ∈ m'.entries
  added : ∀ e ∈ m'.entries, e ∈ m.entries ∨ e ∈ bs
  oneToOne : OneToOne m'.entries

section
variable {m m' m'' : Correspondence} {bs cs : List (Term × Term)}

theorem grown_self (h : OneToOne m.entries) : Grown m bs m := ⟨fun _ he => he, fun _ he => .inl he, h⟩

theorem Grown.trans (h : Grown m bs m') (h' : Grown m' cs m'') : Grown m (bs ++ cs) m'' where
  kept e he := h'.kept e (h.kept e he)
  added e he := by
    rw [List.mem_append, ← or_assoc]
    exact (h'.added e he).imp_left (h.added e)
  oneToOne := h'.oneToOne

theorem Grown.injective (h : Grown m bs m') (hm : m.Injective)
    (hbs : ∀ e ∈ bs, e.1.isBlank = true ∧ e.2.isBlank = true) : m'.Injective where
  blank e he := (h.added e he).elim (hm.blank e) (hbs e)
  oneToOne := h.oneToOne

theorem snd_pair_of_false {a c : Term} (h : (m.pair a c).1 = false) : (m.pair a c).2 = m := by
  unfold pair at h ⊢
  cases ha : m.get? a with
  | some c' => rfl
  | none =>
    rw [ha] at h
    dsimp only at h ⊢
    split
    · rfl
    · next hany =>
      rw [if_neg hany] at h
      cases h

theorem grown_pair (hm : OneToOne m.entries) (a c : Term) : Grown m [(a, c)] (m.pair a c).2 := by
  have decided := pair_decided hm a c
  cases answer : (m.pair a c).1 with
  | false =>
    rw [snd_pair_of_false answer]
    exact grown_self hm
  | true =>
    have entries := decided.entries answer
    exact ⟨fun e he => (entries e).2 (.inl he), fun e he => (entries e).1 he, decided.oneToOne answer⟩

theorem Grown.next {r : Bool × Correspondence} {g : Correspondence → Bool × Correspondence}
    (h : Grown m bs r.2) (h' : Grown r.2 cs (g r.2).2) : Grown m (bs ++ cs) (next r g).2 := by
  obtain ⟨answer, m'⟩ := r
  cases answer with
  | false => exact h.trans (grown_self h.oneToOne)
  | true => exact h.trans h'

end

end Correspondence

open Correspondence

section
variable {m : Correspondence}

theorem Term.blank_of_mem_blankPairs {a c : Term} {e : Term × Term} (h : e ∈ a.blankPairs c) :
    e.1.isBlank = true ∧ e.2.isBlank = true := by
  cases a <;> cases c <;> simp_all [blankPairs, isBlank]

/-- Only two blank nodes are compared by means of the correspondence. -/
theorem Term.feeds_of_not_blank {a c : Term} (h : ¬ (a.isBlank = true ∧ c.isBlank = true)) (m : Correspondence) :
    a.feeds c m = ((a.feeds c ∅).1, m) := by
  cases a with
  | blank a =>
    cases c with
    | blank c => exact absurd ⟨rfl, rfl⟩ h
    | _ => rfl
  | formula ts => cases c <;> simp [feeds]
  | _ => rfl

theorem Term.grown_feeds (hm : OneToOne m.entries) (a c : Term) : Grown m (a.blankPairs c) (a.feeds c m).2 := by
  by_cases h : a.isBlank = true ∧ c.isBlank = true
  · obtain ⟨ha, hc⟩ := h
    cases a with
    | blank a =>
      cases c with
      | blank c => exact grown_pair hm _ _
      | _ => cases hc
    | _ => cases ha
  · rw [feeds_of_not_blank h]
    exact grown_self hm

theorem Triple.grown_feeds (hm : OneToOne m.entries) (t c : Triple) : Grown m (t.blankPairs c) (t.feeds c m).2 := by
  have hs := Term.grown_feeds hm t.subject c.subject
  have hp := Term.grown_feeds hs.oneToOne t.predicate c.predicate
  have ho := Term.grown_feeds hp.oneToOne t.object c.object
  rw [feeds_eq_next, blankPairs, List.append_assoc]
  exact hs.next (hp.next ho)

end

/-! ## One comparison after the other -/

/-- Two terms, or two triples position by position; the first one is of a conclusion, the second one of a condition. -/
inductive Comparison where
  | terms (a c : Term)
  | triples (t c : Triple)

namespace Comparison

/-- The answer, and the correspondence after asking. -/
def ask : Comparison → Correspondence → Bool × Correspondence
  | terms a c, m => a.feeds c m
  | triples t c, m => t.feeds c m

/-- The answers one after the other, whatever they are, and the correspondence at the end. -/
def askAll : List Comparison → Correspondence → List Bool × Correspondence
  | [], m => ([], m)
  | q :: qs, m => ((q.ask m).1 :: (askAll qs (q.ask m).2).1, (askAll qs (q.ask m).2).2)

/-- Every answer is that the two sides match. -/
def Succeed (qs : List Comparison) (m : Correspondence) : Prop := ∀ answer ∈ (askAll qs m).1, answer = true

def Fits : Comparison → Prop
  | terms a c => a.Fits c
  | triples t c => t.Fits c

/-- The blank nodes that meet in a position, those in quoted formulas aside. -/
def blankPairs : Comparison → List (Term × Term)
  | terms a c => a.blankPairs c
  | triples t c => t.blankPairs c

section
variable {m : Correspondence} {qs qs' : List Comparison}

theorem blank_of_mem_blankPairs {q : Comparison} {e : Term × Term} (h : e ∈ q.blankPairs) :
    e.1.isBlank = true ∧ e.2.isBlank = true := by
  cases q with
  | terms a c => exact Term.blank_of_mem_blankPairs h
  | triples t c =>
    simp only [blankPairs, Triple.blankPairs, List.mem_append] at h
    rcases h with (h | h) | h <;> exact Term.blank_of_mem_blankPairs h

theorem grown_ask (hm : OneToOne m.entries) (q : Comparison) : Grown m q.blankPairs (q.ask m).2 := by
  cases q with
  | terms a c => exact Term.grown_feeds hm a c
  | triples t c => exact Triple.grown_feeds hm t c

theorem decided_ask (hm : OneToOne m.entries) (q : Comparison) : Decided m q.Fits q.blankPairs (q.ask m) := by
  cases q with
  | terms a c => exact Term.feeds_decided a c m hm
  | triples t c => exact t.decides c m hm

theorem ask_empty_iff (q : Comparison) : (q.ask ∅).1 = true ↔ q.Fits ∧ OneToOne q.blankPairs :=
  (decided_ask (fun _ hp => absurd hp List.not_mem_nil) q).iff

theorem grown_askAll (hm : OneToOne m.entries) (qs : List Comparison) :
    Grown m (qs.flatMap blankPairs) (askAll qs m).2 := by
  induction qs generalizing m with
  | nil => exact grown_self hm
  | cons q qs ih =>
    have first := grown_ask hm q
    rw [List.flatMap_cons]
    exact first.trans (ih first.oneToOne)

theorem succeed_cons (q : Comparison) : Succeed (q :: qs) m ↔ (q.ask m).1 = true ∧ Succeed qs (q.ask m).2 :=
  List.forall_mem_cons

/-- The comparisons ask for each one to fit and for the blank nodes that meet to correspond, all at once. -/
theorem decided_askAll (hm : OneToOne m.entries) (qs : List Comparison) :
    (Succeed qs m ↔ (∀ q ∈ qs, q.Fits) ∧ OneToOne (m.entries ++ qs.flatMap blankPairs)) ∧
      (Succeed qs m → ∀ e, e ∈ (askAll qs m).2.entries ↔ e ∈ m.entries ∨ e ∈ qs.flatMap blankPairs) := by
  induction qs generalizing m with
  | nil => simp [Succeed, askAll, hm]
  | cons q qs ih =>
    have first := decided_ask hm q
    rw [succeed_cons, List.forall_mem_cons, List.flatMap_cons]
    cases answer : (q.ask m).1 with
    | false =>
      refine ⟨⟨fun h => absurd h.1 Bool.false_ne_true, fun h => ?_⟩, fun h => absurd h.1 Bool.false_ne_true⟩
      obtain ⟨⟨hq, -⟩, ho⟩ := h
      have fits : q.Fits ∧ OneToOne (m.entries ++ q.blankPairs) := by
        refine ⟨hq, ho.subset fun e he => ?_⟩
        rw [← List.append_assoc]
        exact List.mem_append_left _ he
      rw [first.iff.2 fits] at answer
      cases answer
    | true =>
      have entries := first.entries answer
      obtain ⟨rest, after⟩ := ih (first.oneToOne answer)
      have same : OneToOne ((q.ask m).2.entries ++ qs.flatMap blankPairs) ↔
          OneToOne (m.entries ++ (q.blankPairs ++ qs.flatMap blankPairs)) :=
        OneToOne.congr fun e => by simp only [List.mem_append, entries, or_assoc]
      refine ⟨?_, fun h e => ?_⟩
      · rw [rest, same]
        have hq := (first.iff.1 answer).1
        tauto
      · show e ∈ (askAll qs (q.ask m).2).2.entries ↔ _
        rw [after h.2, entries, List.mem_append, or_assoc]

theorem succeed_iff (hm : OneToOne m.entries) : Succeed qs m ↔
    (∀ q ∈ qs, (q.ask ∅).1 = true) ∧ OneToOne (m.entries ++ qs.flatMap blankPairs) := by
  rw [(decided_askAll hm qs).1]
  refine and_congr_left fun ho => forall₂_congr fun q hq => ?_
  rw [ask_empty_iff]
  refine (and_iff_left (ho.subset fun e he => ?_)).symm
  exact List.mem_append_right _ (List.mem_flatMap.2 ⟨q, hq, he⟩)

theorem succeed_perm (hm : OneToOne m.entries) (perm : qs.Perm qs') : Succeed qs m ↔ Succeed qs' m := by
  rw [succeed_iff hm, succeed_iff hm]
  refine and_congr (forall_congr' fun q => by rw [perm.mem_iff]) (OneToOne.congr fun e => ?_)
  rw [List.mem_append, List.mem_append, (perm.flatMap_right blankPairs).mem_iff]

theorem askAll_perm (hm : OneToOne m.entries) (perm : qs.Perm qs') (h : Succeed qs m) :
    (askAll qs' m).2 = (askAll qs m).2 := by
  have left := (decided_askAll hm qs).2 h
  have right := (decided_askAll hm qs').2 ((succeed_perm hm perm).1 h)
  refine Bindings.ext_get? fun k => Option.ext fun v => ?_
  rw [Bindings.get?_eq_some, Bindings.get?_eq_some, left, right, (perm.flatMap_right _).mem_iff]

end

end Comparison

open Comparison

/-- A one to one correspondence between blank nodes stays one in any sequence of comparisons, successful or not.
Entries neither change nor vanish, and quoted formulas are compared without it. The comparisons succeed alike in every
order, and then with the same correspondence: each one has to by itself, that is its sides have to fit, and all the
blank nodes that meet have to correspond one to one, to each other and as they did before. -/
theorem askAll_injective (m : Correspondence) (hm : m.Injective) (qs : List Comparison) :
    (askAll qs m).2.Injective ∧
    (∀ a c, m.get? a = some c → (askAll qs m).2.get? a = some c) ∧
    (∀ e ∈ (askAll qs m).2.entries, e ∈ m.entries ∨ ∃ q ∈ qs, e ∈ q.blankPairs) ∧
    (∀ ts cs, (Term.formula ts).feeds (.formula cs) m = (((Term.formula ts).feeds (.formula cs) ∅).1, m)) ∧
    (Succeed qs m ↔ (∀ q ∈ qs, (q.ask ∅).1 = true) ∧ OneToOne (m.entries ++ qs.flatMap blankPairs)) ∧
    (∀ q : Comparison, (q.ask ∅).1 = true ↔ q.Fits ∧ OneToOne q.blankPairs) ∧
    ∀ qs', qs.Perm qs' → (Succeed qs' m ↔ Succeed qs m) ∧ (Succeed qs m → (askAll qs' m).2 = (askAll qs m).2) := by
  have grown := grown_askAll hm.oneToOne qs
  refine ⟨grown.injective hm fun e he => ?_, fun a c h => ?_, fun e he => ?_, fun ts cs => ?_,
    succeed_iff hm.oneToOne, ask_empty_iff, fun qs' perm => ⟨(succeed_perm hm.oneToOne perm).symm, askAll_perm hm.oneToOne perm⟩⟩
  · obtain ⟨q, -, hq⟩ := List.mem_flatMap.1 he
    exact blank_of_mem_blankPairs hq
  · rw [Bindings.get?_eq_some] at h ⊢
    exact grown.kept _ h
  · exact (grown.added e he).imp_right List.mem_flatMap.1
  · exact Term.feeds_of_not_blank (by simp [Term.isBlank]) m

/-- The second comparison fails in its last position and leaves an entry behind, with which the third one then is at
odds. -/
theorem askAll_injective_left_behind :
    let m : Correspondence := .ofList [(.blank "a", .blank "x")]
    let qs := [.terms (.blank "a") (.blank "x"),
      .triples ⟨.blank "b", .iri "p", .iri "o"⟩ ⟨.blank "y", .iri "p", .iri "u"⟩, .terms (.blank "b") (.blank "z")]
    m.Injective ∧ (askAll qs m).1 = [true, false, false] ∧ (askAll qs m).2.Injective ∧
      (askAll qs m).2.get? (.blank "b") = some (.blank "y") ∧ ¬ Succeed qs.reverse m := by
  intro m qs
  have hm : m.Injective := ⟨by decide +kernel, by unfold OneToOne; decide +kernel⟩
  obtain ⟨injective, -, -, -, -, -, perm⟩ := askAll_injective m hm qs
  have answers : (askAll qs m).1 = [true, false, false] := by decide +kernel
  refine ⟨hm, answers, injective, by decide +kernel, fun h => ?_⟩
  have all := (perm qs.reverse (List.reverse_perm qs).symm).1.1 h
  rw [Succeed, answers] at all
  exact absurd (all false (by simp)) Bool.false_ne_true

end TripleChain
