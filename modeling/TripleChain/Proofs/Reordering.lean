import TripleChain.Proofs.Codes
import TripleChain.Proofs.Draws
import TripleChain.Proofs.Instances
import TripleChain.Proofs.Scheduling
import TripleChain.Proofs.Scopes

/-!
# Reordered clauses

Where a search finds bindings, each builtin has its inputs at its turn, and the values that are not matched
with a triple are written out for a character or a code. In the order that clauses are put into, the stored
ones come first, and the builtins write out the same values. So no solution is lost
(`Search.solve_orderClauses`).
-/

namespace TripleChain

section
variable {ts cs : List Triple} {c : Triple} {f : Builtin} {a o : Term} {b m s : Bindings}

/-! ## Values of operands -/

theorem Term.slots_of_isSlot {a : Term} (h : a.isSlot = true) : a.slots = [a] := by
  cases a with
  | var | blank => rfl
  | literal | iri | formula => cases h

theorem Term.resolve_congr {a : Term} (h : ∀ k ∈ a.slots, b.get? k = s.get? k) : a.resolve b = a.resolve s := by
  unfold resolve
  split
  · next his => exact h a (mem_slots_self his)
  · rfl

theorem Term.resolve_extends {a v : Term} {xs : List Term} (h : b.Extends xs s) (hv : a.resolve b = some v) :
    a.resolve s = some v := by
  unfold resolve at hv ⊢
  split at hv
  · next his =>
    rw [if_pos his]
    exact h.keeps a v hv
  · next his => rwa [if_neg his]

theorem Term.isKnown_keys : a.isKnown b.keys = (a.resolve b).isSome := by
  rw [Bool.eq_iff_iff, isKnown, resolve, Bool.or_eq_true, Bool.not_eq_true', List.contains_iff_mem,
    Bindings.mem_keys]
  cases a.isSlot <;> simp

theorem Term.slots_subset_keys {l : Literal} (h : a.resolve b = some (.literal l)) : ∀ k ∈ a.slots, k ∈ b.keys := by
  intro k hk
  unfold resolve at h
  split at h
  · next his =>
    rw [slots_of_isSlot his, List.mem_singleton] at hk
    rw [hk, Bindings.mem_keys, h]
    rfl
  · cases h
    exact absurd hk List.not_mem_nil

namespace Bindings

theorem extends_of_subset {xs : List Term} (h : ∀ k ∈ xs, k ∈ b.keys) : b.Extends xs b :=
  ⟨fun _ _ hv => hv, fun k => ⟨.inl, fun hk => hk.elim id (h k)⟩⟩

theorem Extends.eq_of_subset {xs : List Term} (h : b.Extends xs m) (hb : ∀ k ∈ xs, k ∈ b.keys) : m = b :=
  h.ext (extends_of_subset hb) fun _ hk => h.get?_eq (hb _ hk)

theorem eq_insert_iff {k v : Term} (h : b.get? k = none) :
    m = b.insert k v ↔ b.Extends [k] m ∧ m.get? k = some v := by
  rw [← mem_unify, Bindings.unify, h, List.mem_singleton]

theorem Extends.eq_insert {xs : List Term} (h : b.Extends xs m) {k v : Term} (hk : k ∈ xs)
    (hb : ∀ j ∈ xs, j = k ∨ j ∈ b.keys) (absent : b.get? k = none) (hv : m.get? k = some v) :
    m = b.insert k v := by
  refine (eq_insert_iff absent).2 ⟨⟨h.keeps, fun j => ?_⟩, hv⟩
  rw [h.keys, List.mem_singleton]
  refine ⟨fun hj => hj.elim .inl fun hj => (hb j hj).symm, fun hj => hj.imp_right ?_⟩
  rintro rfl
  exact hk

end Bindings

/-! ## Builtins on literals -/

namespace Builtin

/-- The builtin holds of the two literals. -/
def Relates (f : Builtin) (x y : Literal) : Prop := ∅ ∈ f.evalPlain (.literal x) (.literal y) ∅

/-- Under the bindings both operands are literals of which the builtin holds. -/
def HoldsFor (f : Builtin) (a o : Term) (s : Bindings) : Prop :=
  ∃ x y, a.resolve s = some (.literal x) ∧ o.resolve s = some (.literal y) ∧ f.Relates x y

theorem relates_ord {x y : Literal} : ord.Relates x y ↔ Codes x y := by
  have known : ∀ l : Literal, (Term.literal l).resolve ∅ = some (.literal l) := fun _ => rfl
  rw [Relates, evalPlain, mem_evalOrd]
  simp [known]

theorem literal?_eq_some {l : Literal} : literal? a b = some l ↔ a.resolve b = some (.literal l) := by
  rw [literal?, Option.bind_eq_some_iff]
  simp

/-- A test that looks at the two literals alone, and fails where one of them is missing. -/
theorem test_iff {test : Term → Term → Bindings → Bool} (first : literal? a b = none → test a o b = false)
    (second : literal? o b = none → test a o b = false)
    (both : ∀ x y, literal? a b = some x → literal? o b = some y →
      test a o b = test (.literal x) (.literal y) ∅) :
    test a o b = true ↔ ∃ x y, a.resolve b = some (.literal x) ∧ o.resolve b = some (.literal y) ∧
      test (.literal x) (.literal y) ∅ = true := by
  simp only [← literal?_eq_some]
  cases hx : literal? a b with
  | none => simp [first hx]
  | some x =>
    cases hy : literal? o b with
    | none => simp [second hy]
    | some y => simp [both x y hx hy]

theorem numbers_iff {rel : Float → Float → Bool} : numbers rel a o b = true ↔
    ∃ x y, a.resolve b = some (.literal x) ∧ o.resolve b = some (.literal y) ∧
      numbers rel (.literal x) (.literal y) ∅ = true := by
  refine test_iff (fun h => ?_) (fun h => ?_) fun x y hx hy => ?_
  · rw [numbers, h]
    rfl
  · rw [numbers, h]
    cases (literal? a b).bind Literal.number? <;> rfl
  · rw [numbers, hx, hy]
    rfl

theorem texts_iff {rel : String → String → Bool} : texts rel a o b = true ↔
    ∃ x y, a.resolve b = some (.literal x) ∧ o.resolve b = some (.literal y) ∧
      texts rel (.literal x) (.literal y) ∅ = true := by
  refine test_iff (fun h => ?_) (fun h => ?_) fun x y hx hy => ?_
  · rw [texts, h]
  · rw [texts, h]
    cases literal? a b <;> rfl
  · rw [texts, hx, hy]
    rfl

/-- A comparison keeps the bindings if it holds of both operands. -/
theorem mem_comparison (h : f.inputs = .both) : m ∈ f.evalPlain a o b ↔ m = b ∧ f.HoldsFor a o b := by
  have kept : ∀ {test : Term → Term → Bindings → Bool}, (test a o b = true ↔
      ∃ x y, a.resolve b = some (.literal x) ∧ o.resolve b = some (.literal y) ∧
        test (.literal x) (.literal y) ∅ = true) → (∀ a o b, f.evalPlain a o b = keep (test a o b) b) →
      (m ∈ f.evalPlain a o b ↔ m = b ∧ f.HoldsFor a o b) := by
    intro test iff eval
    rw [eval, mem_keep, iff, and_comm]
    simp only [HoldsFor, Relates, eval, mem_keep, and_true]
  cases f with
  | ord | includes | notIncludes => cases h
  | greaterThan | lessThan | notLessThan | notGreaterThan => exact kept numbers_iff fun _ _ _ => rfl
  | stringNotLessThan | stringNotGreaterThan => exact kept texts_iff fun _ _ _ => rfl

theorem HoldsFor.congr (ha : ∀ k ∈ a.slots, b.get? k = s.get? k) (ho : ∀ k ∈ o.slots, b.get? k = s.get? k)
    (h : f.HoldsFor a o b) : f.HoldsFor a o s := by
  obtain ⟨x, y, hx, hy, related⟩ := h
  exact ⟨x, y, Term.resolve_congr ha ▸ hx, Term.resolve_congr ho ▸ hy, related⟩

theorem HoldsFor.slots_subset_keys (h : f.HoldsFor a o b) : ∀ k ∈ a.slots ++ o.slots, k ∈ b.keys := by
  obtain ⟨x, y, hx, hy, -⟩ := h
  intro k hk
  exact (List.mem_append.1 hk).elim (Term.slots_subset_keys hx k) (Term.slots_subset_keys hy k)

/-- A slot that gets its value. -/
theorem extends_open (h : a.resolve b = none) (v : Term) : b.Extends a.slots (b.insert a v) ∧
    a.resolve (b.insert a v) = some v := by
  have his := isSlot_of_resolve h
  rw [Term.resolve, if_pos his] at h
  rw [Term.slots_of_isSlot his, Term.resolve, if_pos his]
  exact (Bindings.eq_insert_iff h).1 rfl

theorem inputs_cases (f : Builtin) :
    f.inputs = .both ∨ f = .ord ∨ ∀ a o b, f.evalPlain a o b = [] := by
  cases f with
  | includes | notIncludes => exact .inr (.inr fun _ _ _ => rfl)
  | ord => exact .inr (.inl rfl)
  | _ => exact .inl rfl

/-- Bindings that a builtin gives have values for the slots of its operands, and it holds of these. -/
theorem holdsFor_of_mem (h : m ∈ f.evalPlain a o b) : b.Extends (a.slots ++ o.slots) m ∧ f.HoldsFor a o m := by
  have kept (holds : f.HoldsFor a o b) : b.Extends (a.slots ++ o.slots) b ∧ f.HoldsFor a o b :=
    ⟨Bindings.extends_of_subset holds.slots_subset_keys, holds⟩
  rcases f.inputs_cases with both | rfl | none
  · obtain ⟨rfl, holds⟩ := (mem_comparison both).1 h
    exact kept holds
  · rcases mem_evalOrd.1 h with ⟨x, y, hx, hy, codes, rfl⟩ | ⟨c, ha, hy, rfl⟩ | ⟨x, y, hx, ho, codes, rfl⟩
    · exact kept ⟨x, y, hx, hy, relates_ord.2 codes⟩
    · obtain ⟨ext, written⟩ := extends_open ha (.integer c.toNat)
      have known := Term.resolve_extends ext hy
      exact ⟨ext.trans (Bindings.extends_of_subset (Term.slots_subset_keys known)), _, _, written, known,
        relates_ord.2 ⟨c, Literal.code?_char c, rfl⟩⟩
    · obtain ⟨ext, written⟩ := extends_open ho (.literal y)
      exact ⟨(Bindings.extends_of_subset (Term.slots_subset_keys hx)).trans ext, _, _,
        Term.resolve_extends ext hx, written, relates_ord.2 codes⟩
  · rw [none] at h
    exact absurd h List.not_mem_nil

theorem inputsReady_of_mem (h : m ∈ f.evalPlain c.subject c.object b) (remaining : List Triple) :
    f.inputsReady c b.keys remaining = true := by
  have known {a : Term} {v : Term} (hv : a.resolve b = some v) : a.isKnown b.keys = true := by
    rw [Term.isKnown_keys, hv]
    rfl
  rcases f.inputs_cases with both | rfl | none
  · obtain ⟨-, x, y, hx, hy, -⟩ := (mem_comparison both).1 h
    rw [inputsReady, both]
    exact Bool.and_eq_true_iff.2 ⟨known hx, known hy⟩
  · refine Bool.or_eq_true_iff.2 ?_
    rcases mem_evalOrd.1 h with ⟨x, y, hx, -⟩ | ⟨c, -, hy, -⟩ | ⟨x, y, hx, -⟩
    · exact .inl (known hx)
    · exact .inr (known hy)
    · exact .inl (known hx)
  · rw [none] at h
    exact absurd h List.not_mem_nil

end Builtin

/-- What is written out for a character or for a code. -/
def Term.IsCoded (v : Term) : Prop := ∃ c : Char, v = .integer c.toNat ∨ v = .string c.toString

namespace Builtin

theorem isCoded_of_mem (h : m ∈ f.evalPlain a o b) {k v : Term} (hv : m.get? k = some v) (new : k ∉ b.keys) :
    v.IsCoded := by
  have absent : b.get? k = none := Bindings.get?_eq_none.2 new
  have inserted {slot w : Term} (hw : (b.insert slot w).get? k = some v) : v = w := by
    rw [Bindings.get?_insert] at hw
    split at hw
    · exact (Option.some.inj hw).symm
    · rw [absent] at hw
      cases hw
  have unchanged (hm : m = b) : v.IsCoded := by
    rw [hm, absent] at hv
    cases hv
  rcases f.inputs_cases with both | rfl | none
  · exact unchanged ((mem_comparison both).1 h).1
  · rcases mem_evalOrd.1 h with ⟨-, -, -, -, -, hm⟩ | ⟨c, -, -, rfl⟩ | ⟨x, y, -, -, ⟨c, -, rfl⟩, rfl⟩
    · exact unchanged hm
    · exact ⟨c, .inl (inserted hv)⟩
    · exact ⟨c, .inr (inserted hv)⟩
  · rw [none] at h
    exact absurd h List.not_mem_nil

/-- Where all other slots have values, the bindings differ by the value of the operand that has none. -/
theorem eq_insert_of_open {xs : List Term} {v : Term} (ext : b.Extends xs m) (ha : a.resolve b = none)
    (hv : a.resolve m = some v) (mem : ∀ k ∈ a.slots, k ∈ xs) (others : ∀ k ∈ xs, k ∈ a.slots ∨ k ∈ b.keys) :
    m = b.insert a v := by
  have his := isSlot_of_resolve ha
  rw [Term.resolve, if_pos his] at ha hv
  simp only [Term.slots_of_isSlot his, List.mem_singleton, forall_eq] at mem others
  exact ext.eq_insert mem others ha hv

/-- A number that is written out is the one of its code. -/
theorem eq_integer_of_coded {x : Literal} {d : Char} (coded : (Term.literal x).IsCoded)
    (code : x.code? = some d.toNat) : x = .integer d.toNat := by
  obtain ⟨c, h | h⟩ := coded
  · obtain rfl := Term.literal.inj h
    rw [Literal.code?_char] at code
    rw [Option.some.inj code]
  · obtain rfl := Term.literal.inj h
    rw [Literal.code?_string] at code
    cases code

/-- A builtin that is ready gives the bindings under which it holds, if it would write out the values that are
new in them. -/
theorem mem_of_holdsFor {remaining : List Triple} (ext : b.Extends (c.subject.slots ++ c.object.slots) m)
    (holds : f.HoldsFor c.subject c.object m) (ready : f.inputsReady c b.keys remaining = true)
    (coded : ∀ k v, m.get? k = some v → k ∉ b.keys → v.IsCoded) : m ∈ f.evalPlain c.subject c.object b := by
  obtain ⟨x, y, hx, hy, related⟩ := holds
  have value {a v w : Term} (hv : a.resolve b = some v) (hw : a.resolve m = some w) : a.resolve b = some w := by
    rw [hv, ← hw, Term.resolve_extends ext hv]
  have settled (ha : c.subject.resolve b = some (.literal x)) (ho : c.object.resolve b = some (.literal y)) :
      m = b := by
    refine ext.eq_of_subset fun k hk => ?_
    exact (List.mem_append.1 hk).elim (Term.slots_subset_keys ha k) (Term.slots_subset_keys ho k)
  rcases f.inputs_cases with both | rfl | none
  · rw [inputsReady, both] at ready
    simp only [Bool.and_eq_true, Term.isKnown_keys, Option.isSome_iff_exists] at ready
    obtain ⟨⟨v, hv⟩, w, hw⟩ := ready
    have ha := value hv hx
    have ho := value hw hy
    exact (mem_comparison both).2 ⟨settled ha ho, x, y, ha, ho, related⟩
  · obtain ⟨d, code, rfl⟩ := relates_ord.1 related
    cases hs : c.subject.resolve b with
    | some v =>
      have ha := value hs hx
      cases ho : c.object.resolve b with
      | some w =>
        have ho := value ho hy
        exact mem_evalOrd.2 (.inl ⟨x, _, ha, ho, ⟨d, code, rfl⟩, settled ha ho⟩)
      | none =>
        refine mem_evalOrd.2 (.inr (.inr ⟨x, _, ha, ho, ⟨d, code, rfl⟩, ?_⟩))
        refine eq_insert_of_open ext ho hy (fun k hk => List.mem_append_right _ hk) fun k hk => ?_
        exact (List.mem_append.1 hk).elim (fun hk => .inr (Term.slots_subset_keys ha k hk)) .inl
    | none =>
      have ready : c.object.isKnown b.keys = true := by
        refine (Bool.or_eq_true_iff.1 ready).resolve_left ?_
        rw [Term.isKnown_keys, hs]
        exact Bool.false_ne_true
      rw [Term.isKnown_keys, Option.isSome_iff_exists] at ready
      obtain ⟨w, ho⟩ := ready
      have ho := value ho hy
      have his := isSlot_of_resolve hs
      have absent : c.subject ∉ b.keys := by
        rw [Term.resolve, if_pos his] at hs
        exact Bindings.get?_eq_none.1 hs
      have hv : m.get? c.subject = some (.literal x) := by rw [← hx, Term.resolve, if_pos his]
      obtain rfl := eq_integer_of_coded (coded _ _ hv absent) code
      refine mem_evalOrd.2 (.inr (.inl ⟨d, hs, ho, ?_⟩))
      refine eq_insert_of_open ext hs hx (fun k hk => List.mem_append_left _ hk) fun k hk => ?_
      exact (List.mem_append.1 hk).imp_right (Term.slots_subset_keys ho k)
  · rw [Relates, none] at related
    exact absurd related List.not_mem_nil

end Builtin

/-! ## Clauses -/

namespace Triple

/-- The clause holds under the bindings: its builtin holds of its operands, or it matches one of the triples. -/
def HoldsIn (ts : List Triple) (c : Triple) (s : Bindings) : Prop :=
  match c.predicate.builtin? with
  | some f => f.HoldsFor c.subject c.object s
  | none => ∃ t ∈ ts, c.Matches t s

theorem slots_of_builtin (h : c.predicate.builtin? = some f) : c.slots = c.subject.slots ++ c.object.slots := by
  obtain ⟨a, p, o⟩ := c
  obtain rfl : p = .iri f.iri := Builtin.eq_of_builtin? h
  simp [slots, Term.slots]

theorem HoldsIn.congr (same : ∀ k ∈ c.slots, b.get? k = s.get? k) (h : c.HoldsIn ts b) : c.HoldsIn ts s := by
  unfold HoldsIn at h ⊢
  cases hf : c.predicate.builtin? with
  | some f =>
    rw [hf] at h
    rw [slots_of_builtin hf] at same
    exact h.congr (fun k hk => same k (List.mem_append_left _ hk)) fun k hk => same k (List.mem_append_right _ hk)
  | none =>
    rw [hf] at h
    obtain ⟨t, ht, hm⟩ := h
    exact ⟨t, ht, (matches_congr c t same).1 hm⟩

theorem holdsIn_of_mem (h : m ∈ c.extensions ts b) : b.Extends c.slots m ∧ c.HoldsIn ts m := by
  unfold extensions at h
  unfold HoldsIn
  cases hf : c.predicate.builtin? with
  | some f =>
    rw [hf] at h
    rw [slots_of_builtin hf]
    exact Builtin.holdsFor_of_mem h
  | none =>
    rw [hf] at h
    obtain ⟨t, ht, hm⟩ := List.mem_flatMap.1 h
    obtain ⟨ext, matched⟩ := (mem_bind c t b).1 hm
    exact ⟨ext, t, ht, matched⟩

theorem isReady_of_mem (h : m ∈ c.extensions ts b) (computed : c.isComputed = true) (remaining : List Triple) :
    c.isReady b.keys remaining = true := by
  obtain ⟨f, hf⟩ := Option.isSome_iff_exists.1 computed
  rw [extensions, hf] at h
  exact (Option.any_eq_true _ _).2 ⟨f, hf, Builtin.inputsReady_of_mem h remaining⟩

theorem isCoded_of_mem (h : m ∈ c.extensions ts b) (computed : c.isComputed = true) {k v : Term}
    (hv : m.get? k = some v) (new : k ∉ b.keys) : v.IsCoded := by
  obtain ⟨f, hf⟩ := Option.isSome_iff_exists.1 computed
  rw [extensions, hf] at h
  exact Builtin.isCoded_of_mem h hv new

theorem mem_of_holdsIn {remaining : List Triple} (ext : b.Extends c.slots m) (holds : c.HoldsIn ts m)
    (ready : c.isComputed = true → c.isReady b.keys remaining = true)
    (coded : c.isComputed = true → ∀ k v, m.get? k = some v → k ∉ b.keys → v.IsCoded) :
    m ∈ c.extensions ts b := by
  unfold HoldsIn at holds
  unfold extensions
  cases hf : c.predicate.builtin? with
  | some f =>
    have computed : c.isComputed = true := by rw [isComputed, Term.isBuiltin, hf]; rfl
    rw [hf] at holds
    rw [slots_of_builtin hf] at ext
    obtain ⟨g, hg, inputs⟩ := (Option.any_eq_true _ _).1 (ready computed)
    obtain rfl : g = f := Option.some.inj (hg.symm.trans hf)
    exact Builtin.mem_of_holdsFor ext holds inputs (coded computed)
  | none =>
    rw [hf] at holds
    obtain ⟨t, ht, matched⟩ := holds
    exact List.mem_flatMap.2 ⟨t, ht, (mem_bind c t b).2 ⟨ext, matched⟩⟩

/-! ## Lists of clauses -/

/-- What holds of the bindings that a search finds: the clauses hold under them, the builtins are ready at their
turns, and new values that no stored clause gives are written out for characters and codes. -/
structure Solved (ts cs : List Triple) (b s : Bindings) : Prop where
  extends' : b.Extends (allSlots cs) s
  holds : ∀ c ∈ cs, c.HoldsIn ts s
  ready : Schedule.Ready b.keys cs
  coded : ∀ k v, s.get? k = some v → k ∉ b.keys → (∃ c ∈ cs, c.isComputed = false ∧ k ∈ c.slots) ∨ v.IsCoded

theorem solved_of_mem (h : s ∈ solutions cs ts b) : Solved ts cs b s := by
  induction cs generalizing b with
  | nil =>
    obtain rfl := List.mem_singleton.1 h
    refine ⟨Bindings.extends_nil.2 rfl, fun c hc => absurd hc List.not_mem_nil, trivial, fun k v hv new => ?_⟩
    rw [Bindings.get?_eq_none.2 new] at hv
    cases hv
  | cons c cs ih =>
    obtain ⟨m, hm, hs⟩ := List.mem_flatMap.1 h
    obtain ⟨ext, holds⟩ := holdsIn_of_mem hm
    have rest := ih hs
    refine ⟨ext.trans rest.extends', ?_, ⟨fun hc => isReady_of_mem hm hc _, rest.ready.mono fun k hk => ?_⟩, ?_⟩
    · exact List.forall_mem_cons.2 ⟨holds.congr (ext.values_eq rest.extends'), rest.holds⟩
    · exact List.mem_append.2 ((ext.keys k).1 hk)
    · intro k v hv new
      by_cases hk : k ∈ m.keys
      · rw [rest.extends'.get?_eq hk] at hv
        cases hc : c.isComputed with
        | true => exact .inr (isCoded_of_mem hm hc hv new)
        | false => exact .inl ⟨c, List.mem_cons_self .., hc, ((ext.keys k).1 hk).resolve_left new⟩
      · refine (rest.coded k v hv hk).imp_left ?_
        rintro ⟨d, hd, stored, hkd⟩
        exact ⟨d, List.mem_cons_of_mem _ hd, stored, hkd⟩

/-- Where the stored clauses come first, nothing else is asked of bindings that the search finds. -/
theorem mem_of_solved (first : cs.Pairwise fun c d => c.isComputed = true → d.isComputed = true)
    (h : Solved ts cs b s) : s ∈ solutions cs ts b := by
  induction cs generalizing b with
  | nil => exact List.mem_singleton.2 (Bindings.extends_nil.1 h.extends')
  | cons c cs ih =>
    rw [List.pairwise_cons] at first
    obtain ⟨m, ext, ext'⟩ := Bindings.extends_append.1 h.extends'
    obtain ⟨holds, others⟩ := List.forall_mem_cons.1 h.holds
    have here := holds.congr fun k hk => (ext.values_eq ext' k hk).symm
    refine List.mem_flatMap.2 ⟨m, mem_of_holdsIn ext here h.ready.1 fun hc k v hv new => ?_, ih first.2 ?_⟩
    · -- A builtin is placed, so no stored clause is left that could give the value.
      refine (h.coded k v (ext'.keeps k v hv) new).resolve_left ?_
      rintro ⟨d, hd, stored, -⟩
      rcases List.mem_cons.1 hd with rfl | hd
      · exact Bool.false_ne_true (stored.symm.trans hc)
      · exact Bool.false_ne_true (stored.symm.trans (first.1 d hd hc))
    · refine ⟨ext', others, h.ready.2.mono fun k hk => ?_, fun k v hv new => ?_⟩
      · exact (ext.keys k).2 (List.mem_append.1 hk)
      · have fresh : k ∉ b.keys ∧ k ∉ c.slots := not_or.1 fun hk => new ((ext.keys k).2 hk)
        refine (h.coded k v hv fresh.1).imp_left ?_
        rintro ⟨d, hd, stored, hkd⟩
        rcases List.mem_cons.1 hd with rfl | hd
        · exact absurd hkd fresh.2
        · exact ⟨d, hd, stored, hkd⟩

end Triple

end

namespace Schedule

/-- Stored clauses are placed first. -/
theorem place_storedFirst (count : Nat) (bound : List Term) (remaining : List Triple)
    (hlen : remaining.length = count) :
    (place count bound remaining).Pairwise fun c d => c.isComputed = true → d.isComputed = true := by
  induction count generalizing bound remaining with
  | zero => exact List.Pairwise.nil
  | succ count ih =>
    have hlt : choose bound remaining < remaining.length := choose_lt (List.ne_nil_of_length_eq_add_one hlen)
    have hget := List.getElem?_eq_getElem hlt
    generalize remaining[choose bound remaining] = c at hget
    have hlen' : (remaining.eraseIdx (choose bound remaining)).length = count := by
      rw [List.length_eraseIdx_of_lt hlt, hlen, Nat.add_sub_cancel]
    rw [place]
    simp only [hget]
    refine List.pairwise_cons.2 ⟨fun d hd hc => ?_, ih _ _ hlen'⟩
    have mem : d ∈ remaining := List.eraseIdx_subset ((place_perm count _ _ hlen').mem_iff.1 hd)
    cases hs : bestStored bound remaining with
    | none => exact computed_of_bestStored hs mem
    | some i =>
      have stored := stored_of_bestStored hs (c := c) (by rwa [choose, hs] at hget)
      exact absurd (stored.symm.trans hc) Bool.false_ne_true

end Schedule

theorem orderClauses_storedFirst (clauses : List Triple) (bound : List Term) :
    (orderClauses clauses bound).Pairwise fun c d => c.isComputed = true → d.isComputed = true :=
  Schedule.place_storedFirst _ _ _ rfl

theorem Triple.Solved.orderClauses {ts cs : List Triple} {b s : Bindings} (h : Solved ts cs b s) :
    Solved ts (orderClauses cs b.keys) b s := by
  have perm := orderClauses_perm cs b.keys
  have mem : ∀ c, c ∈ TripleChain.orderClauses cs b.keys ↔ c ∈ cs := fun c => perm.mem_iff
  refine ⟨⟨h.extends'.keeps, fun k => ?_⟩, fun c hc => h.holds c ((mem c).1 hc), ?_, fun k v hv new => ?_⟩
  · simp only [h.extends'.keys, mem_allSlots, mem]
  · exact Schedule.place_ready cs.length rfl (.refl cs) h.ready
  · simpa only [mem] using h.coded k v hv new

namespace Search

theorem found_orderClauses (depth : Nat) (store : Store) {clauses : List Triple} (b : Bindings)
    (scopeFree : ∀ c ∈ clauses, c.ScopeFree) : (solve depth store clauses b).complete = true ∧
      (solve depth store (orderClauses clauses b.keys) b).complete = true ∧
      ∀ s ∈ (solve depth store clauses b).found,
        s ∈ (solve depth store (orderClauses clauses b.keys) b).found := by
  have scopeFree' : ∀ c ∈ orderClauses clauses b.keys, c.ScopeFree :=
    fun c hc => scopeFree c ((orderClauses_perm clauses b.keys).mem_iff.1 hc)
  rw [solve, solveWith_scopeFree clauses scopeFree, solveWith_scopeFree _ scopeFree']
  refine ⟨rfl, rfl, fun s hs => ?_⟩
  have solved := Triple.solved_of_mem hs
  exact Triple.mem_of_solved (orderClauses_storedFirst clauses b.keys) solved.orderClauses

/-- Clauses that open no scope are searched to the end as they are written and in the order that they are put
into, and all that is found, or drawn, as they are written is so in that order too. -/
theorem solve_orderClauses (depth : Nat) (store : Store) (clauses : List Triple) (b : Bindings)
    (scopeFree : ∀ c ∈ clauses, c.ScopeFree) :
    (solve depth store clauses b).complete = true ∧
      (solve depth store (orderClauses clauses b.keys) b).complete = true ∧
      (∀ s ∈ (solve depth store clauses b).found,
        s ∈ (solve depth store (orderClauses clauses b.keys) b).found) ∧
      ∀ n s, (Cursor.start depth store clauses b).draw n = some s →
        ∃ m, (Cursor.start depth store (orderClauses clauses b.keys) b).draw m = some s := by
  obtain ⟨complete, complete', found⟩ := found_orderClauses depth store b scopeFree
  refine ⟨complete, complete', found, fun n s hs => ?_⟩
  exact (Cursor.exists_draw_iff complete').2 (found s ((Cursor.exists_draw_iff complete).1 ⟨n, hs⟩))

/-- A code and its character, written out and compared before the triples that give them. -/
def charClauses : List Triple :=
  [⟨.var "code", .iri Vocabulary.ord, .string "A"⟩, ⟨.var "code", .iri Vocabulary.ord, .var "char"⟩,
    ⟨.var "char", .iri Vocabulary.stringNotLessThan, .var "least"⟩, ⟨.var "x", .iri "code", .var "code"⟩,
    ⟨.var "x", .iri "char", .var "char"⟩]

/-- A character and two numbers for its code, one of them with a zero in front. -/
def charFacts : Graph :=
  ((Graph.empty.insert ⟨.iri "a", .iri "code", .integer 65⟩ rfl).insert
    ⟨.iri "a", .iri "code", .literal ⟨"065", Vocabulary.xsdInteger⟩⟩ rfl).insert
    ⟨.iri "a", .iri "char", .string "A"⟩ rfl

/-- As the clauses are written the code is 65, and `065` is no match; the order finds both. -/
theorem solve_orderClauses_char :
    let least := Bindings.ofList [(.var "least", .string "A")]
    let store : Store := .graph charFacts
    (∀ c ∈ charClauses, c.ScopeFree) ∧ (solve 0 store (orderClauses charClauses least.keys) least).found.length = 2 ∧
      ∃ s, (solve 0 store charClauses least).found = [s] ∧
        s ∈ (solve 0 store (orderClauses charClauses least.keys) least).found ∧
        ∃ n, (Cursor.start 0 store (orderClauses charClauses least.keys) least).draw n = some s := by
  intro least store
  have scopeFree : ∀ c ∈ charClauses, c.ScopeFree := by decide
  obtain ⟨-, -, found, drawn⟩ := solve_orderClauses 0 store charClauses least scopeFree
  let s := least.insert (.var "code") (.integer 65) |>.insert (.var "char") (.string "A")
    |>.insert (.var "x") (.iri "a")
  have written : (solve 0 store charClauses least).found = [s] := by decide +kernel
  have first : (Cursor.start 0 store charClauses least).draw 0 = some s := by decide +kernel
  refine ⟨scopeFree, by decide +kernel, s, written, found s ?_, drawn 0 s first⟩
  rw [written]
  exact List.mem_singleton_self s

end Search

end TripleChain
