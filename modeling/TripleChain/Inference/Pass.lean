import TripleChain.Config
import TripleChain.Firing
import TripleChain.Rule.Reading
import TripleChain.Search

/-!
# One pass of a rule

All matches of the condition of a rule in a store, and the triples that firing the rule for them
gives. Main statement: a pass succeeds exactly if the search came to its end and every match
fires, and gives what these matches give.
-/

namespace TripleChain

/-- The clauses in the order in which they are matched. -/
def Config.order (config : Config) (clauses : List Triple) : List Triple :=
  if config.reorderClauses then orderClauses clauses [] else clauses

/-- The matches of the clauses in the store. -/
def Store.answers (store : Store) (config : Config) (clauses : List Triple) : Answers :=
  Search.solve config.patience store (config.order clauses) ∅

namespace Rule

/-- Fires the rule for some bindings one after the other. -/
def fireAll (r : Rule) (derived : OrderedSet Triple) (bs : List Bindings) :
    Except Fault (OrderedSet Triple) :=
  bs.foldlM (fun derived b => (r.fire b).map derived.insertAll) derived

/-- What firing the rule for all answers gives, and nothing if the search was left. -/
def fireAnswers (r : Rule) (a : Answers) : Except Fault (OrderedSet Triple) :=
  (r.fireAll ∅ a.found).bind fun derived =>
    if a.complete then .ok derived else .error .outOfPatience

/-- The triples that the rule derives from a store in one pass. -/
def derive (r : Rule) (config : Config) (store : Store) : Except Fault (OrderedSet Triple) :=
  r.conditionFormula.bind fun F => r.fireAnswers (store.answers config F)

theorem mem_fireAll {r : Rule} {bs : List Bindings} {derived last : OrderedSet Triple}
    (h : r.fireAll derived bs = .ok last) {t : Triple} :
    t ∈ last ↔ t ∈ derived ∨ ∃ b ∈ bs, ∃ ts, r.fire b = .ok ts ∧ t ∈ ts := by
  induction bs generalizing derived with
  | nil => cases h; simp
  | cons b bs ih =>
    unfold fireAll at h
    rw [List.foldlM_cons] at h
    cases hf : r.fire b with
    | error e => rw [hf] at h; cases h
    | ok ts =>
      rw [hf] at h
      have rest : t ∈ last ↔ _ := @ih (derived.insertAll ts) h
      rw [rest]
      simp [hf, or_assoc]

theorem fireAnswers_eq_ok {r : Rule} {a : Answers} {derived : OrderedSet Triple} :
    r.fireAnswers a = .ok derived ↔ r.fireAll ∅ a.found = .ok derived ∧ a.complete = true := by
  unfold fireAnswers
  cases r.fireAll ∅ a.found with
  | error e => simp [Except.bind]
  | ok d => cases h : a.complete <;> simp [Except.bind]

end Rule

end TripleChain
