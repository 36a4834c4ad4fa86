import TripleChain.Proofs.Passes

/-!
# Ready clauses

A builtin that is ready stays so when more terms have values and fewer clauses remain. So the clause
that is placed next can be taken out of any order in which every builtin is ready at its turn, and
what is left is such an order of the other clauses. The order that clauses are put into has every
builtin ready at its turn if any order has (`orderClauses_ready_iff`).
-/

namespace TripleChain

/-- Every builtin is ready at its turn, where the terms of `bound` have values before the first clause
and the slots of a clause have values after it. The clause and the ones after it remain. -/
def Schedule.Ready (bound : List Term) : List Triple → Prop
  | [] => True
  | c :: cs => (c.isComputed = true → c.isReady bound (c :: cs) = true) ∧ Ready (bound ++ c.slots) cs

instance Schedule.decidableReady : (bound : List Term) → (cs : List Triple) → Decidable (Ready bound cs)
  | _, [] => inferInstanceAs (Decidable True)
  | bound, c :: cs =>
    have := decidableReady (bound ++ c.slots) cs
    inferInstanceAs (Decidable (_ ∧ _))

section
variable {bound bound' : List Term} {c d : Triple} {cs remaining remaining' : List Triple}

/-! ## More values, fewer clauses -/

theorem Term.isKnown_mono {a : Term} (hb : bound ⊆ bound') (h : a.isKnown bound = true) :
    a.isKnown bound' = true := by
  rw [isKnown, Bool.or_eq_true] at h ⊢
  exact h.imp_right fun h => List.contains_iff_mem.2 (hb (List.contains_iff_mem.1 h))

theorem mentionedElsewhere_mono {a : Term} (hr : remaining' ⊆ remaining)
    (h : mentionedElsewhere a c remaining = false) : mentionedElsewhere a c remaining' = false := by
  rw [mentionedElsewhere, List.any_eq_false] at h ⊢
  exact fun d hd => h d (hr hd)

section
variable (hb : bound ⊆ bound') (hr : remaining' ⊆ remaining)
include hb hr

theorem scopeReady_mono (h : scopeReady c bound remaining = true) :
    scopeReady c bound' remaining' = true := by
  rw [scopeReady, Bool.or_eq_true, Bool.not_eq_true'] at h ⊢
  exact h.imp (Term.isKnown_mono hb) (mentionedElsewhere_mono hr)

theorem Builtin.inputsReady_mono {f : Builtin} (h : f.inputsReady c bound remaining = true) :
    f.inputsReady c bound' remaining' = true := by
  unfold inputsReady at h ⊢
  generalize f.inputs = inputs at h ⊢
  cases inputs with
  | both =>
    simp only [Bool.and_eq_true] at h ⊢
    exact h.imp (Term.isKnown_mono hb) (Term.isKnown_mono hb)
  | either =>
    simp only [Bool.or_eq_true] at h ⊢
    exact h.imp (Term.isKnown_mono hb) (Term.isKnown_mono hb)
  | scope => exact scopeReady_mono hb hr h
  | negatedScope =>
    simp only [Bool.and_eq_true, List.all_eq_true] at h ⊢
    refine h.imp (scopeReady_mono hb hr) fun hslots a ha => ?_
    have hslot := hslots a ha
    rw [Bool.or_eq_true, Bool.not_eq_true'] at hslot ⊢
    refine hslot.imp (fun known => ?_) (mentionedElsewhere_mono hr)
    exact List.contains_iff_mem.2 (hb (List.contains_iff_mem.1 known))

theorem Triple.isReady_mono (h : c.isReady bound remaining = true) : c.isReady bound' remaining' = true := by
  obtain ⟨f, hf, ready⟩ := (Option.any_eq_true _ _).1 h
  exact (Option.any_eq_true _ _).2 ⟨f, hf, Builtin.inputsReady_mono hb hr ready⟩

end

namespace Schedule

theorem Ready.mono (h : Ready bound cs) (hb : bound ⊆ bound') : Ready bound' cs := by
  induction cs generalizing bound bound' with
  | nil => trivial
  | cons c cs ih =>
    refine ⟨fun hc => Triple.isReady_mono hb (List.Subset.refl _) (h.1 hc), ih h.2 fun a ha => ?_⟩
    rcases List.mem_append.1 ha with ha | ha
    · exact List.mem_append_left _ (hb ha)
    · exact List.mem_append_right _ ha

/-- A clause taken out of the order and placed before it leaves the others ready. -/
theorem Ready.erase (h : Ready bound cs) (d : Triple) : Ready (bound ++ d.slots) (cs.erase d) := by
  induction cs generalizing bound with
  | nil => trivial
  | cons c cs ih =>
    by_cases hcd : c = d
    · subst hcd
      rw [List.erase_cons_head]
      exact h.2
    · rw [List.erase_cons_tail (by simpa using hcd)]
      have fewer : c :: cs.erase d ⊆ c :: cs := List.cons_subset_cons _ List.erase_subset
      refine ⟨fun hc => Triple.isReady_mono (List.subset_append_left ..) fewer (h.1 hc), ?_⟩
      refine (ih h.2).mono fun a ha => ?_
      simp only [List.mem_append] at ha ⊢
      exact or_right_comm.1 ha

/-! ## The clause placed next -/

theorem stored_of_bestStored {i : Nat} (h : bestStored bound remaining = some i)
    (hc : remaining[i]? = some c) : c.isComputed = false := by
  obtain ⟨most, -, hi⟩ := Option.bind_eq_some_iff.1 h
  obtain ⟨hlt, hbest, -⟩ := List.findIdx?_eq_some_iff_getElem.1 hi
  rw [List.getElem?_eq_getElem hlt] at hc
  rw [Option.some.inj hc, Bool.and_eq_true, Bool.not_eq_true'] at hbest
  exact hbest.1

theorem isReady_of_firstReady {i : Nat} (h : firstReady bound remaining = some i)
    (hc : remaining[i]? = some c) : c.isReady bound remaining = true := by
  obtain ⟨hlt, hready, -⟩ := List.findIdx?_eq_some_iff_getElem.1 h
  rw [List.getElem?_eq_getElem hlt] at hc
  rwa [Option.some.inj hc] at hready

/-- Where no clause is found, no clause is stored. -/
theorem computed_of_bestStored (h : bestStored bound remaining = none) (hc : c ∈ remaining) :
    c.isComputed = true := by
  by_contra stored
  have mem : c ∈ remaining.filter fun c => !c.isComputed := List.mem_filter.2 ⟨hc, by simpa using stored⟩
  have known : c.knownCount bound ∈ (remaining.filter fun c => !c.isComputed).map fun c => c.knownCount bound :=
    List.mem_map_of_mem mem
  rw [bestStored, Option.bind_eq_none_iff] at h
  cases hmost : ((remaining.filter fun c => !c.isComputed).map fun c => c.knownCount bound).max? with
  | none =>
    rw [List.max?_eq_none_iff.1 hmost] at known
    exact List.not_mem_nil known
  | some most =>
    obtain ⟨d, hd, hmax⟩ := List.mem_map.1 (List.max?_mem hmost)
    obtain ⟨hd, hstored⟩ := List.mem_filter.1 hd
    have best := List.findIdx?_eq_none_iff.1 (h most hmost) d hd
    rw [hstored, Bool.true_and, decide_eq_false_iff_not] at best
    exact best hmax

/-- If some order of the clauses has every builtin ready at its turn, a builtin is not placed next before it
is ready. -/
theorem isReady_choose (hperm : cs.Perm remaining) (hcs : Ready bound cs)
    (hget : remaining[choose bound remaining]? = some c) (hc : c.isComputed = true) :
    c.isReady bound remaining = true := by
  unfold choose at hget
  cases hs : bestStored bound remaining with
  | some i =>
    rw [hs] at hget
    rw [stored_of_bestStored hs hget] at hc
    cases hc
  | none =>
    cases hr : firstReady bound remaining with
    | some i =>
      rw [hs, hr] at hget
      exact isReady_of_firstReady hr hget
    | none =>
      -- The first clause of the given order is a builtin and ready, so one is found.
      exfalso
      cases cs with
      | nil =>
        rw [List.nil_perm.1 hperm, List.getElem?_nil] at hget
        cases hget
      | cons d ds =>
        have mem : d ∈ remaining := hperm.mem_iff.1 (List.mem_cons_self ..)
        have ready := hcs.1 (computed_of_bestStored hs mem)
        have unready := List.findIdx?_eq_none_iff.1 hr d mem
        rw [Triple.isReady_mono (List.Subset.refl _) hperm.symm.subset ready] at unready
        cases unready

/-! ## The whole order -/

theorem place_ready (count : Nat) (hlen : remaining.length = count) (hperm : cs.Perm remaining)
    (hcs : Ready bound cs) : Ready bound (place count bound remaining) := by
  induction count generalizing bound remaining cs with
  | zero => trivial
  | succ count ih =>
    have hlt : choose bound remaining < remaining.length := choose_lt (List.ne_nil_of_length_eq_add_one hlen)
    have hget := List.getElem?_eq_getElem hlt
    generalize remaining[choose bound remaining] = c at hget
    have rest : (c :: remaining.eraseIdx (choose bound remaining)).Perm remaining := by
      obtain ⟨_, rfl⟩ := List.getElem?_eq_some_iff.1 hget
      exact List.getElem_cons_eraseIdx_perm hlt
    have hlen' : (remaining.eraseIdx (choose bound remaining)).length = count := by
      rw [List.length_eraseIdx_of_lt hlt, hlen, Nat.add_sub_cancel]
    have placed := (place_perm count (bound ++ c.slots) _ hlen').cons c
    rw [place]
    simp only [hget]
    refine ⟨fun hc => ?_, ih hlen' ?_ (hcs.erase c)⟩
    · have ready := isReady_choose hperm hcs hget hc
      exact Triple.isReady_mono (List.Subset.refl _) (placed.trans rest).subset ready
    · have others := (hperm.trans rest.symm).erase c
      rwa [List.erase_cons_head] at others

end Schedule

end

/-- The clauses are put into an order of theirs, repeats kept, and every builtin is ready at its turn in it
if that is so in any order of them. -/
theorem orderClauses_ready_iff (clauses : List Triple) (bound : List Term) :
    (orderClauses clauses bound).Perm clauses ∧
      (Schedule.Ready bound (orderClauses clauses bound) ↔
        ∃ cs : List Triple, cs.Perm clauses ∧ Schedule.Ready bound cs) := by
  have perm := orderClauses_perm clauses bound
  refine ⟨perm, fun ready => ⟨_, perm, ready⟩, ?_⟩
  rintro ⟨cs, hperm, hcs⟩
  exact Schedule.place_ready clauses.length rfl hperm hcs

/-- Comparisons of a code with a number, one of them twice, a character and its code, and a negation that
shares the character, all written before the stored clause that gives the character. -/
def comparedFirst : List Triple :=
  [⟨.var "code", .iri Vocabulary.greaterThan, .integer 60⟩,
    ⟨.var "facts", .iri Vocabulary.notIncludes, .quoting [⟨.var "other", .iri "bars", .var "char"⟩]⟩,
    ⟨.var "code", .iri Vocabulary.ord, .var "char"⟩, ⟨.var "code", .iri Vocabulary.greaterThan, .integer 60⟩,
    ⟨.iri "a", .iri "has", .var "char"⟩]

theorem orderClauses_ready_comparedFirst :
    (orderClauses comparedFirst []).Perm comparedFirst ∧ Schedule.Ready [] (orderClauses comparedFirst []) ∧
      ¬ Schedule.Ready [] comparedFirst := by
  obtain ⟨perm, iff⟩ := orderClauses_ready_iff comparedFirst []
  -- The stored clause, the character, the comparisons, the negation.
  let cs := [4, 2, 0, 3, 1].filterMap fun i => comparedFirst[i]?
  have ready : cs.Perm comparedFirst ∧ Schedule.Ready [] cs := by decide +kernel
  exact ⟨perm, iff.2 ⟨cs, ready⟩, by decide +kernel⟩

end TripleChain
