import Mathlib.Data.List.Basic
import TripleChain.Dependency.Pairing

/-!
# What a search for pairings finds

A triple of a conclusion fits a clause if it does in each position; blank nodes that meet in a
position have to correspond one to one. A pairing takes triples and clauses that fit, each at most
once. The search finds what the pairings leave over that use up all triples, and nothing where a
pairing uses up all clauses and no two blank nodes meet (`mem_residuals`).
-/

namespace TripleChain

/-- Every blank node is paired with one other, and no two with the same. -/
def OneToOne (ps : List (Term × Term)) : Prop := ∀ p ∈ ps, ∀ q ∈ ps, p.1 = q.1 ↔ p.2 = q.2

theorem OneToOne.subset {ps qs : List (Term × Term)} (h : OneToOne qs) (hsub : ∀ p ∈ ps, p ∈ qs) :
    OneToOne ps := fun p hp q hq => h p (hsub p hp) q (hsub q hq)

theorem OneToOne.congr {ps qs : List (Term × Term)} (h : ∀ p, p ∈ ps ↔ p ∈ qs) : OneToOne ps ↔ OneToOne qs :=
  ⟨fun ho => ho.subset fun p => (h p).2, fun ho => ho.subset fun p => (h p).1⟩

/-! ## Triples that fit clauses -/

/-- The blank nodes that meet if a term of a conclusion is put against one of a condition. -/
def Term.blankPairs : Term → Term → List (Term × Term)
  | .blank a, .blank c => [(.blank a, .blank c)]
  | _, _ => []

def Triple.blankPairs (t c : Triple) : List (Term × Term) :=
  t.subject.blankPairs c.subject ++ t.predicate.blankPairs c.predicate ++
    t.object.blankPairs c.object

def blankPairsOf (ps : List (Triple × Triple)) : List (Term × Term) :=
  ps.flatMap fun p => p.1.blankPairs p.2

@[simp] theorem blankPairsOf_nil : blankPairsOf [] = [] := rfl

@[simp] theorem blankPairsOf_cons (t c : Triple) (ps : List (Triple × Triple)) :
    blankPairsOf ((t, c) :: ps) = t.blankPairs c ++ blankPairsOf ps := List.flatMap_cons

/-- A term of a conclusion could stand where a condition has the other term. A formula could
where its triples meet all clauses of the other formula. -/
inductive Term.Fits : Term → Term → Prop
  | slot {a c : Term} (h : a.isSlot = true ∨ c.isSlot = true) : Term.Fits a c
  | literal (l : Literal) : Term.Fits (.literal l) (.literal l)
  | iri (i : String) : Term.Fits (.iri i) (.iri i)
  | formula {ts cs : List Triple} (ps : List (Triple × Triple)) (left : List Triple)
      (triples : ts.Perm (ps.map Prod.fst ++ left)) (clauses : cs.Perm (ps.map Prod.snd))
      (subjects : ∀ p ∈ ps, Term.Fits p.1.subject p.2.subject)
      (predicates : ∀ p ∈ ps, Term.Fits p.1.predicate p.2.predicate)
      (objects : ∀ p ∈ ps, Term.Fits p.1.object p.2.object)
      (oneToOne : OneToOne (blankPairsOf ps)) (ends : left = [] ∨ blankPairsOf ps = []) :
      Term.Fits (.formula ts) (.formula cs)

structure Triple.Fits (t c : Triple) : Prop where
  subject : t.subject.Fits c.subject
  predicate : t.predicate.Fits c.predicate
  object : t.object.Fits c.object

theorem Triple.fits_iff {t c : Triple} : t.Fits c ↔ t.subject.Fits c.subject ∧
    t.predicate.Fits c.predicate ∧ t.object.Fits c.object :=
  ⟨fun h => ⟨h.subject, h.predicate, h.object⟩, fun h => ⟨h.1, h.2.1, h.2.2⟩⟩

/-! ## Pairings -/

/-- The pairs `ps` use up `ts` but for `left` and `cs` but for `rest`, where the blank nodes of
`known` correspond already. -/
structure IsPairing (known : List (Term × Term)) (ts cs : List Triple) (ps : List (Triple × Triple))
    (left rest : List Triple) : Prop where
  triples : ts.Perm (ps.map Prod.fst ++ left)
  clauses : cs.Perm (ps.map Prod.snd ++ rest)
  fits : ∀ p ∈ ps, p.1.Fits p.2
  oneToOne : OneToOne (known ++ blankPairsOf ps)

theorem Term.fits_formula {ts cs : List Triple} : (Term.formula ts).Fits (.formula cs) ↔
    ∃ ps left, IsPairing [] ts cs ps left [] ∧ (left = [] ∨ blankPairsOf ps = []) := by
  constructor
  · intro h
    cases h with
    | slot h => simp [Term.isSlot] at h
    | formula ps left triples clauses subjects predicates objects oneToOne ends =>
      refine ⟨ps, left, ⟨triples, by rwa [List.append_nil], ?_, oneToOne⟩, ends⟩
      exact fun p hp => ⟨subjects p hp, predicates p hp, objects p hp⟩
  · rintro ⟨ps, left, h, ends⟩
    have clauses := h.clauses
    rw [List.append_nil] at clauses
    exact .formula ps left h.triples clauses (fun p hp => (h.fits p hp).subject)
      (fun p hp => (h.fits p hp).predicate) (fun p hp => (h.fits p hp).object) h.oneToOne ends

section
variable {known known' : List (Term × Term)} {ts ts' cs cs' left rest : List Triple}
  {ps : List (Triple × Triple)} {t c : Triple}

theorem isPairing_nil (h : OneToOne known) : IsPairing known ts cs [] ts cs :=
  ⟨.refl _, .refl _, by simp, by simpa using h⟩

theorem IsPairing.cons (ht : ts.Perm (t :: ts')) (hc : cs.Perm (c :: cs')) (fits : t.Fits c)
    (hknown : ∀ e, e ∈ known' ↔ e ∈ known ∨ e ∈ t.blankPairs c)
    (h : IsPairing known' ts' cs' ps left rest) : IsPairing known ts cs ((t, c) :: ps) left rest where
  triples := ht.trans (h.triples.cons t)
  clauses := hc.trans (h.clauses.cons c)
  fits := List.forall_mem_cons.2 ⟨fits, h.fits⟩
  oneToOne := by
    refine h.oneToOne.subset fun e he => ?_
    simp only [blankPairsOf_cons, List.mem_append, hknown] at he ⊢
    tauto

theorem IsPairing.tail (ht : ts.Perm (t :: ts')) (hc : cs.Perm (c :: cs'))
    (hknown : ∀ e, e ∈ known' ↔ e ∈ known ∨ e ∈ t.blankPairs c)
    (h : IsPairing known ts cs ((t, c) :: ps) left rest) : IsPairing known' ts' cs' ps left rest where
  triples := List.perm_cons t |>.1 (ht.symm.trans h.triples)
  clauses := List.perm_cons c |>.1 (hc.symm.trans h.clauses)
  fits := (List.forall_mem_cons.1 h.fits).2
  oneToOne := by
    refine h.oneToOne.subset fun e he => ?_
    simp only [blankPairsOf_cons, List.mem_append, hknown] at he ⊢
    tauto

end

/-! ## Correspondences -/

def Correspondence.next (r : Bool × Correspondence) (g : Correspondence → Bool × Correspondence) :
    Bool × Correspondence :=
  match r with
  | (false, m) => (false, m)
  | (true, m) => g m

theorem Triple.feeds_eq_next (t c : Triple) (m : Correspondence) : t.feeds c m =
    Correspondence.next (t.subject.feeds c.subject m) fun m =>
      Correspondence.next (t.predicate.feeds c.predicate m) (t.object.feeds c.object) := by
  obtain ⟨s, p, o⟩ := t
  rw [Triple.feeds]
  rfl

/-- An answer that asks for blank nodes `bs` to correspond, besides those that do in `m`. -/
structure Decided (m : Correspondence) (fits : Prop) (bs : List (Term × Term))
    (r : Bool × Correspondence) : Prop where
  iff : r.1 = true ↔ fits ∧ OneToOne (m.entries ++ bs)
  entries : r.1 = true → ∀ e, e ∈ r.2.entries ↔ e ∈ m.entries ∨ e ∈ bs

section
variable {m : Correspondence} {P Q : Prop} {bs cs : List (Term × Term)} {r : Bool × Correspondence}

theorem Decided.oneToOne (h : Decided m P bs r) (hr : r.1 = true) : OneToOne r.2.entries :=
  (h.iff.1 hr).2.subset fun e he => List.mem_append.2 ((h.entries hr e).1 he)

theorem Decided.seq (h : Decided m P bs r) (g : Correspondence → Bool × Correspondence)
    (h' : r.1 = true → Decided r.2 Q cs (g r.2)) :
    Decided m (P ∧ Q) (bs ++ cs) (Correspondence.next r g) := by
  obtain ⟨b, m'⟩ := r
  have mono : OneToOne (m.entries ++ (bs ++ cs)) → OneToOne (m.entries ++ bs) := by
    refine fun ho => ho.subset fun e he => ?_
    rw [← List.append_assoc]
    exact List.mem_append_left _ he
  cases b with
  | false =>
    refine ⟨⟨nofun, fun ⟨⟨hP, _⟩, ho⟩ => ?_⟩, nofun⟩
    exact absurd (h.iff.2 ⟨hP, mono ho⟩) Bool.false_ne_true
  | true =>
    have hm := h.entries rfl
    have hQ : Decided m' Q cs (g m') := h' rfl
    have same : OneToOne (m'.entries ++ cs) ↔ OneToOne (m.entries ++ (bs ++ cs)) :=
      OneToOne.congr fun e => by simp only [List.mem_append, hm, or_assoc]
    rw [Correspondence.next]
    constructor
    · rw [hQ.iff, same]
      exact ⟨fun ⟨hQ, ho⟩ => ⟨⟨(h.iff.1 rfl).1, hQ⟩, ho⟩, fun ⟨⟨_, hQ⟩, ho⟩ => ⟨hQ, ho⟩⟩
    · intro hr e
      rw [hQ.entries hr, hm, List.mem_append, or_assoc]

/-- The triple answers for each clause whether they fit. -/
def Triple.Decides (t : Triple) : Prop :=
  ∀ c m, OneToOne m.entries → Decided m (t.Fits c) (t.blankPairs c) (t.feeds c m)

/-- An answer that no correspondence of blank nodes bears on. -/
theorem decided_of_iff (hm : OneToOne m.entries) {b : Bool} (h : b = true ↔ P) :
    Decided m P [] (b, m) :=
  ⟨by simp [h, hm], by simp⟩

theorem Correspondence.pair_decided (hm : OneToOne m.entries) (a c : Term) :
    Decided m True [(a, c)] (m.pair a c) := by
  unfold pair
  cases ha : m.get? a with
  | some c' =>
    have hmem : (a, c') ∈ m.entries := Bindings.get?_eq_some.1 ha
    constructor
    · simp only [decide_eq_true_eq, true_and]
      constructor
      · rintro rfl
        refine hm.subset fun e he => ?_
        rcases List.mem_append.1 he with he | he
        · exact he
        · exact List.mem_singleton.1 he ▸ hmem
      · intro ho
        exact (ho (a, c') (by simp [hmem]) (a, c) (by simp)).1 rfl
    · intro hr e
      obtain rfl : c' = c := by simpa using hr
      simp only [List.mem_singleton, iff_self_or]
      rintro rfl
      exact hmem
  | none =>
    have hfree : ∀ e ∈ m.entries, e.1 ≠ a := by
      rintro e he rfl
      have hget := Bindings.get?_eq_some.2 he
      rw [ha] at hget
      cases hget
    dsimp only
    split
    · next hany =>
      obtain ⟨e, he, hec⟩ := List.any_eq_true.1 hany
      refine ⟨⟨nofun, fun ⟨_, ho⟩ => ?_⟩, nofun⟩
      have := (ho e (by simp [he]) (a, c) (by simp)).2 (by simpa using hec)
      exact absurd this (hfree e he)
    · next hany =>
      have hother : ∀ e ∈ m.entries, e.2 ≠ c :=
        fun e he hec => hany (List.any_eq_true.2 ⟨e, he, by simpa using hec⟩)
      constructor
      · simp only [true_and, true_iff]
        intro p hp q hq
        simp only [List.mem_append, List.mem_singleton] at hp hq
        rcases hp with hp | rfl <;> rcases hq with hq | rfl
        · exact hm p hp q hq
        · exact iff_of_false (hfree p hp) (hother p hp)
        · exact iff_of_false (fun h => hfree q hq h.symm) (fun h => hother q hq h.symm)
        · simp
      · intro _ e
        obtain ⟨k, v⟩ := e
        rw [← Bindings.get?_eq_some, Bindings.get?_insert, ← Bindings.get?_eq_some]
        by_cases hk : k = a
        · simp [hk, ha, eq_comm]
        · simp [hk]

end

/-! ## The search -/

namespace Pairing

section
variable {α β : Type}

theorem picks_perm {l xs : List α} {x : α} (h : (x, xs) ∈ picks l) : l.Perm (x :: xs) := by
  induction l generalizing x xs with
  | nil => exact absurd h List.not_mem_nil
  | cons a l ih =>
    rw [picks, List.mem_cons, List.mem_map] at h
    rcases h with h | ⟨⟨y, ys⟩, hy, h⟩
    · cases h
      exact .refl _
    · cases h
      exact ((ih hy).cons a).trans (.swap _ _ _)

theorem exists_mem_picks {l : List α} {x : α} (h : x ∈ l) : ∃ xs, (x, xs) ∈ picks l := by
  induction l with
  | nil => exact absurd h List.not_mem_nil
  | cons a l ih =>
    rcases List.mem_cons.1 h with rfl | h
    · exact ⟨l, List.mem_cons_self ..⟩
    · obtain ⟨xs, hxs⟩ := ih h
      exact ⟨a :: xs, List.mem_cons_of_mem _ (List.mem_map.2 ⟨(x, xs), hxs, rfl⟩)⟩

theorem picks_map (f : α → β) (l : List α) :
    picks (l.map f) = (picks l).map fun p => (f p.1, p.2.map f) := by
  induction l with
  | nil => rfl
  | cons a l ih => simp [picks, ih]

end

theorem mem_endings {ts cs : List Triple} {m : Correspondence} {F : Formula} :
    F ∈ endings (ts.map Triple.feeds) cs m ↔
      ts = [] ∧ F = Formula.ofList cs ∨ cs = [] ∧ m.entries = [] ∧ F = [] := by
  simp only [endings, List.mem_append, List.isEmpty_map, Bool.and_eq_true, List.isEmpty_iff]
  by_cases ht : ts = [] <;> by_cases hc : cs = [] ∧ m.entries = [] <;> simp [ht, hc]
  · tauto
  · tauto

/-- What the pairing `ps` leaves over, if it may end. -/
def Leaves (known : List (Term × Term)) (left rest : List Triple) (ps : List (Triple × Triple))
    (F : Formula) : Prop :=
  left = [] ∧ F = Formula.ofList rest ∨ rest = [] ∧ known ++ blankPairsOf ps = [] ∧ F = []

theorem mem_endings_iff {ts cs : List Triple} {m : Correspondence} (hm : OneToOne m.entries)
    {F : Formula} : F ∈ endings (ts.map Triple.feeds) cs m ↔
      ∃ left rest, IsPairing m.entries ts cs [] left rest ∧ Leaves m.entries left rest [] F := by
  rw [mem_endings]
  constructor
  · intro h
    refine ⟨ts, cs, isPairing_nil hm, ?_⟩
    simpa [Leaves] using h
  · rintro ⟨left, rest, h, hF⟩
    have ht : ts.Perm left := h.triples
    have hc : cs.Perm rest := h.clauses
    rcases hF with ⟨rfl, rfl⟩ | ⟨rfl, hk, rfl⟩
    · exact .inl ⟨ht.eq_nil, Formula.ofList_eq_iff.2 fun t => hc.symm.mem_iff⟩
    · exact .inr ⟨hc.eq_nil, (List.append_eq_nil_iff.1 hk).1, rfl⟩

theorem leaves_cons {known known' : List (Term × Term)} {left rest : List Triple}
    {ps : List (Triple × Triple)} {t c : Triple} {F : Formula}
    (hknown : ∀ e, e ∈ known' ↔ e ∈ known ∨ e ∈ t.blankPairs c) :
    Leaves known left rest ((t, c) :: ps) F ↔ Leaves known' left rest ps F := by
  have same : known ++ blankPairsOf ((t, c) :: ps) = [] ↔ known' ++ blankPairsOf ps = [] := by
    simp only [List.eq_nil_iff_forall_not_mem, blankPairsOf_cons, List.mem_append,
      hknown, or_assoc]
  rw [Leaves, Leaves, same]

theorem mem_residualsOf_succ {F : Formula} {count : Nat} {ts cs : List Triple} {m : Correspondence} :
    F ∈ residualsOf (count + 1) (ts.map Triple.feeds) cs m ↔
      F ∈ endings (ts.map Triple.feeds) cs m ∨
        ∃ t ts' c cs', (t, ts') ∈ picks ts ∧ (c, cs') ∈ picks cs ∧ (t.feeds c m).1 = true ∧
          F ∈ residualsOf count (ts'.map Triple.feeds) cs' (t.feeds c m).2 := by
  rw [residualsOf, List.mem_append, picks_map, List.flatMap_map]
  apply or_congr_right
  simp only [List.mem_flatMap, Prod.exists]
  refine exists_congr fun t => exists_congr fun ts' => ?_
  constructor
  · rintro ⟨ht, c, cs', hc, h⟩
    refine ⟨c, cs', ht, hc, ?_⟩
    split at h
    · next e => rw [e]; exact ⟨rfl, h⟩
    · exact absurd h List.not_mem_nil
  · rintro ⟨c, cs', ht, hc, hfeeds, h⟩
    refine ⟨ht, c, cs', hc, ?_⟩
    split
    · next e => rwa [e] at h
    · next e => rw [e] at hfeeds; cases hfeeds

theorem mem_residualsOf {F : Formula} (count : Nat) (ts cs : List Triple) (m : Correspondence)
    (hcount : ts.length = count) (hm : OneToOne m.entries) (hts : ∀ t ∈ ts, t.Decides) :
    F ∈ residualsOf count (ts.map Triple.feeds) cs m ↔
      ∃ ps left rest, IsPairing m.entries ts cs ps left rest ∧ Leaves m.entries left rest ps F := by
  induction count generalizing ts cs m with
  | zero =>
    obtain rfl := List.length_eq_zero_iff.1 hcount
    rw [residualsOf, mem_endings_iff hm]
    constructor
    · rintro ⟨left, rest, h⟩
      exact ⟨[], left, rest, h⟩
    · rintro ⟨ps, left, rest, h, hF⟩
      have hps : ps = [] ∧ left = [] := by simpa using h.triples.symm.eq_nil
      obtain ⟨rfl, -⟩ := hps
      exact ⟨left, rest, h, hF⟩
  | succ count ih =>
    have step : ∀ {t ts' c cs'}, ts.Perm (t :: ts') → (t.feeds c m).1 = true →
        (F ∈ residualsOf count (ts'.map Triple.feeds) cs' (t.feeds c m).2 ↔
          ∃ ps left rest, IsPairing (t.feeds c m).2.entries ts' cs' ps left rest ∧
            Leaves (t.feeds c m).2.entries left rest ps F) := by
      intro t ts' c cs' ht hfeeds
      have hlen := ht.length_eq
      rw [List.length_cons] at hlen
      refine ih ts' cs' _ (by omega) ?_ fun u hu => hts u (ht.mem_iff.2 (List.mem_cons_of_mem _ hu))
      exact (hts t (ht.mem_iff.2 (List.mem_cons_self ..)) c m hm).oneToOne hfeeds
    rw [mem_residualsOf_succ, mem_endings_iff hm]
    constructor
    · rintro (⟨left, rest, h⟩ | ⟨t, ts', c, cs', ht, hc, hfeeds, h⟩)
      · exact ⟨[], left, rest, h⟩
      · have ht' := picks_perm ht
        have D := hts t (ht'.mem_iff.2 (List.mem_cons_self ..)) c m hm
        obtain ⟨ps, left, rest, h, hF⟩ := (step ht' hfeeds).1 h
        exact ⟨(t, c) :: ps, left, rest,
          .cons ht' (picks_perm hc) (D.iff.1 hfeeds).1 (D.entries hfeeds) h,
          (leaves_cons (D.entries hfeeds)).2 hF⟩
    · rintro ⟨_ | ⟨⟨t, c⟩, ps⟩, left, rest, h, hF⟩
      · exact .inl ⟨left, rest, h, hF⟩
      -- The pairs come in any order, so the first one is as good as any to start with.
      · have htmem : t ∈ ts := h.triples.mem_iff.2 (by simp)
        obtain ⟨ts', ht⟩ := exists_mem_picks htmem
        obtain ⟨cs', hc⟩ := exists_mem_picks (h.clauses.mem_iff.2 (by simp) : c ∈ cs)
        have D := hts t htmem c m hm
        have hfeeds : (t.feeds c m).1 = true := by
          refine D.iff.2 ⟨(List.forall_mem_cons.1 h.fits).1, h.oneToOne.subset fun e he => ?_⟩
          simp only [blankPairsOf_cons, List.mem_append] at he ⊢
          tauto
        refine .inr ⟨t, ts', c, cs', ht, hc, hfeeds, (step (picks_perm ht) hfeeds).2 ?_⟩
        exact ⟨ps, left, rest, h.tail (picks_perm ht) (picks_perm hc) (D.entries hfeeds),
          (leaves_cons (D.entries hfeeds)).1 hF⟩

end Pairing

theorem Triple.feeders_eq_map (ts : List Triple) : feeders ts = ts.map feeds := by
  induction ts with
  | nil => rfl
  | cons t ts ih => simp [feeders, ih]

theorem Pairing.mem_residuals_of {ts cs : List Triple} {F : Formula}
    (hts : ∀ t ∈ ts, t.Decides) : F ∈ residuals (Triple.feeders ts) cs ↔
      ∃ ps left rest, IsPairing [] ts cs ps left rest ∧ Leaves [] left rest ps F := by
  rw [residuals, Triple.feeders_eq_map, List.length_map]
  exact mem_residualsOf _ ts cs ∅ rfl (fun p hp => absurd hp List.not_mem_nil) hts

theorem Formula.eq_nil_of_ofList {ts : List Triple} (h : Formula.ofList ts = []) : ts = [] := by
  rw [List.eq_nil_iff_forall_not_mem]
  intro t ht
  rw [← Formula.mem_ofList, h] at ht
  exact absurd ht List.not_mem_nil

/-! ## Every triple decides -/

theorem Term.fits_literal {l : Literal} {c : Term} :
    (Term.literal l).Fits c ↔ c.isSlot = true ∨ c = .literal l := by
  constructor
  · intro h
    cases h with
    | slot h => exact .inl (h.resolve_left (by simp [isSlot]))
    | literal l => exact .inr rfl
  · rintro (h | rfl)
    · exact .slot (.inr h)
    · exact .literal l

theorem Term.fits_iri {i : String} {c : Term} :
    (Term.iri i).Fits c ↔ c.isSlot = true ∨ c = .iri i := by
  constructor
  · intro h
    cases h with
    | slot h => exact .inl (h.resolve_left (by simp [isSlot]))
    | iri i => exact .inr rfl
  · rintro (h | rfl)
    · exact .slot (.inr h)
    · exact .iri i

theorem Term.fits_formula_of_not {ts : List Triple} {c : Term} (hc : c.isFormula = false) :
    (Term.formula ts).Fits c ↔ c.isSlot = true := by
  constructor
  · intro h
    cases h with
    | slot h => exact h.resolve_left (by simp [isSlot])
    | formula => cases hc
  · exact fun h => .slot (.inr h)

mutual

theorem Term.feeds_decided : (a c : Term) → (m : Correspondence) → OneToOne m.entries →
    Decided m (a.Fits c) (a.blankPairs c) (a.feeds c m)
  | .blank a, .blank c, m, hm => by
    have h := m.pair_decided hm (.blank a) (.blank c)
    rwa [← eq_true (Term.Fits.slot (.inl rfl) : (Term.blank a).Fits (.blank c))] at h
  | .blank _, .literal _, m, hm | .blank _, .iri _, m, hm | .blank _, .var _, m, hm
  | .blank _, .formula _, m, hm => decided_of_iff hm (iff_of_true rfl (.slot (.inl rfl)))
  | .var _, _, m, hm => decided_of_iff hm (iff_of_true rfl (.slot (.inl rfl)))
  | .literal l, c, m, hm => decided_of_iff hm (by simp [Term.fits_literal])
  | .iri s, c, m, hm => decided_of_iff hm (by simp [Term.fits_iri])
  | .formula ts, .formula cs, m, hm => by
    have hts : ∀ t ∈ ts, t.Decides := Triple.all_decide ts
    rw [Term.feeds]
    apply decided_of_iff hm
    rw [Pairing.anyResidual_eq, List.any_eq_true, Term.fits_formula]
    simp only [Pairing.mem_residuals_of hts, List.isEmpty_iff]
    constructor
    · rintro ⟨F, ⟨ps, left, rest, h, hF⟩, rfl⟩
      rcases hF with ⟨rfl, e⟩ | ⟨rfl, e, -⟩
      · obtain rfl := Formula.eq_nil_of_ofList e.symm
        exact ⟨ps, [], h, .inl rfl⟩
      · exact ⟨ps, left, h, .inr e⟩
    · rintro ⟨ps, left, h, rfl | e⟩
      · exact ⟨[], ⟨ps, [], [], h, .inl ⟨rfl, rfl⟩⟩, rfl⟩
      · exact ⟨[], ⟨ps, left, [], h, .inr ⟨rfl, e, rfl⟩⟩, rfl⟩
  | .formula ts, .literal _, m, hm | .formula ts, .iri _, m, hm | .formula ts, .var _, m, hm
  | .formula ts, .blank _, m, hm => by
    rw [Term.feeds]
    · exact decided_of_iff hm (Term.fits_formula_of_not rfl).symm
    · exact nofun

theorem Triple.decides : (t : Triple) → t.Decides
  | ⟨s, p, o⟩ => by
    intro c m hm
    have hs := Term.feeds_decided s c.subject m hm
    have h := hs.seq (fun m => Correspondence.next (p.feeds c.predicate m) (o.feeds c.object)) fun hr =>
      have hp := Term.feeds_decided p c.predicate _ (hs.oneToOne hr)
      hp.seq _ fun hr => Term.feeds_decided o c.object _ (hp.oneToOne hr)
    rw [Triple.feeds_eq_next, Triple.blankPairs, List.append_assoc]
    rwa [← propext (Triple.fits_iff (t := ⟨s, p, o⟩) (c := c))] at h

theorem Triple.all_decide : (ts : List Triple) → ∀ t ∈ ts, t.Decides
  | [], _, h => absurd h List.not_mem_nil
  | t :: ts, u, h => (List.mem_cons.1 h).elim (fun e => e ▸ Triple.decides t)
    fun h => Triple.all_decide ts u h

end

/-! ## All pairings -/

namespace Pairing

variable {ts cs : List Triple} {F : Formula}

theorem mem_residuals : F ∈ residuals (Triple.feeders ts) cs ↔
    ∃ ps left rest, IsPairing [] ts cs ps left rest ∧ Leaves [] left rest ps F :=
  mem_residuals_of (Triple.all_decide ts)

theorem subset_of_mem_residuals (h : F ∈ residuals (Triple.feeders ts) cs) {c : Triple} (hc : c ∈ F) :
    c ∈ cs := by
  obtain ⟨ps, left, rest, pairing, hF⟩ := mem_residuals.1 h
  rcases hF with ⟨-, rfl⟩ | ⟨-, -, rfl⟩
  · exact pairing.clauses.mem_iff.2 (List.mem_append_right _ (Formula.mem_ofList.1 hc))
  · exact absurd hc List.not_mem_nil

theorem anyResidual_true_iff : anyResidual (fun _ => true) (Triple.feeders ts) cs = true ↔
    ∃ ps left rest, IsPairing [] ts cs ps left rest ∧
      (left = [] ∨ rest = [] ∧ blankPairsOf ps = []) := by
  rw [anyResidual_eq, List.any_eq_true]
  simp only [mem_residuals, and_true]
  constructor
  · rintro ⟨F, ps, left, rest, h, hF⟩
    exact ⟨ps, left, rest, h, hF.imp And.left fun hF => ⟨hF.1, hF.2.1⟩⟩
  · rintro ⟨ps, left, rest, h, e | ⟨e, hb⟩⟩
    · exact ⟨_, ps, left, rest, h, .inl ⟨e, rfl⟩⟩
    · exact ⟨_, ps, left, rest, h, .inr ⟨e, hb, rfl⟩⟩

end Pairing

end TripleChain
