import Mathlib.Data.List.Nodup
import Mathlib.Data.Set.Function
import TripleChain.Proofs.Relabelling
import TripleChain.Proofs.RenamedRules
import TripleChain.Report

/-!
# Rules of the same shape

A rule is written with short names in place of its labels, and no two labels get the same one
(`Rule.shortText_eq_text`, `Rule.shortNames_inj`). The names follow the order of appearance, and within a formula
that is the order of its triples, so of the labels. Other labels leave the text of a rule as it is if they leave
this order alone, and as far as texts tell terms apart then only (`shortText_renamed`).
-/

namespace TripleChain

/-! ## Short names -/

theorem letter_inj : ∀ i < 26, ∀ j < 26, Char.ofNat ('a'.toNat + i) = Char.ofNat ('a'.toNat + j) → i = j := by
  decide

theorem isMark_letter : ∀ i < 26, Text.isMark (Char.ofNat ('a'.toNat + i)) = false := by
  decide

theorem Text.isMark_of_isDigit {c : Char} (h : c.isDigit = true) : isMark c = false := by
  have other : ∀ d : Char, d.isDigit = false → c ≠ d := by
    rintro d hd rfl
    rw [h] at hd
    cases hd
  simp [isMark, other ' ' rfl, other '=' rfl, other '\x00' rfl]

/-- What is written after the letter of a short name: how often the alphabet is used up. -/
def roundDigits (n : Nat) : List Char := if n < 26 then [] else Nat.toDigits 10 (n / 26)

theorem toList_shortName (n : Nat) :
    (shortName n).toList = Char.ofNat ('a'.toNat + n % 26) :: roundDigits n := by
  unfold shortName roundDigits
  split
  · simp
  · simp

theorem toDigits_ten_inj {m n : Nat} (h : Nat.toDigits 10 m = Nat.toDigits 10 n) : m = n := by
  rw [← Nat.ofDigitChars_ten_toDigits (n := m), h, Nat.ofDigitChars_ten_toDigits]

theorem div_eq_of_roundDigits {m n : Nat} (h : roundDigits m = roundDigits n) : m / 26 = n / 26 := by
  unfold roundDigits at h
  split at h <;> split at h
  · omega
  · exact absurd h.symm Nat.toDigits_ne_nil
  · exact absurd h Nat.toDigits_ne_nil
  · exact toDigits_ten_inj h

theorem shortName_inj {m n : Nat} (h : shortName m = shortName n) : m = n := by
  have same := congrArg String.toList h
  rw [toList_shortName, toList_shortName] at same
  obtain ⟨letter, digits⟩ := List.cons.inj same
  have low := letter_inj (m % 26) (Nat.mod_lt _ (by decide)) (n % 26) (Nat.mod_lt _ (by decide)) letter
  have high := div_eq_of_roundDigits digits
  omega

theorem isUnmarked_shortName (n : Nat) : Text.isUnmarked (shortName n) = true := by
  rw [Text.isUnmarked_iff, toList_shortName, List.forall_mem_cons]
  refine ⟨isMark_letter _ (Nat.mod_lt _ (by decide)), fun c hc => ?_⟩
  unfold roundDigits at hc
  split at hc
  · cases hc
  · exact Text.isMark_of_isDigit (Nat.isDigit_of_mem_toDigits (by decide) (by decide) hc)

/-! ## Places in the order of appearance -/

theorem OrderedSet.toList_insertAll_map {α β : Type} [DecidableEq α] [DecidableEq β] {g : α → β} {l : List α}
    {s : OrderedSet α} {s' : OrderedSet β} (inj : Set.InjOn g {a | a ∈ s ∨ a ∈ l})
    (h : s'.toList = s.toList.map g) : (s'.insertAll (l.map g)).toList = (s.insertAll l).toList.map g := by
  induction l generalizing s s' with
  | nil => exact h
  | cons a l ih =>
    rw [List.map_cons, insertAll_cons, insertAll_cons]
    refine ih (fun b hb c hc => inj ?_ ?_) ?_
    · simpa [or_assoc] using hb
    · simpa [or_assoc] using hc
    · -- An element is new under `g` just if it is new.
      have present : g a ∈ s'.toList ↔ a ∈ s.toList := by
        rw [h]
        constructor
        · intro ha
          obtain ⟨b, hb, e⟩ := List.mem_map.1 ha
          exact inj (.inl hb) (.inr (List.mem_cons_self ..)) e ▸ hb
        · exact List.mem_map_of_mem
      rw [toList_insert, toList_insert, if_congr present rfl rfl, h]
      split
      · rfl
      · rw [List.map_append, List.map_singleton]

theorem OrderedSet.toList_ofList_map {α β : Type} [DecidableEq α] [DecidableEq β] {g : α → β} {l : List α}
    (inj : Set.InjOn g {a | a ∈ l}) : (ofList (l.map g)).toList = (ofList l).toList.map g :=
  toList_insertAll_map (inj.mono fun _ ha => ha.elim (fun h => absurd h List.not_mem_nil) id) rfl

theorem idxOf_map_of_injOn {α β : Type} [DecidableEq α] [DecidableEq β] {g : α → β} {l : List α} {a : α}
    (inj : Set.InjOn g {b | b ∈ l}) (ha : a ∈ l) : (l.map g).idxOf (g a) = l.idxOf a := by
  induction l with
  | nil => cases ha
  | cons b l ih =>
    by_cases e : b = a
    · rw [List.map_cons, List.idxOf_cons_eq _ e, List.idxOf_cons_eq _ (congrArg g e)]
    · have other : g b ≠ g a := fun e' => e (inj (List.mem_cons_self ..) ha e')
      have tail : a ∈ l := (List.mem_cons.1 ha).resolve_left (Ne.symm e)
      rw [List.map_cons, List.idxOf_cons_ne _ e, List.idxOf_cons_ne _ other,
        ih (inj.mono fun _ => List.mem_cons_of_mem _) tail]

section
variable {f : String → String} {slots : List Term}

/-- The labels of the blank nodes among slots. -/
def labelsAmong (slots : List Term) : Set String := {x | .blank x ∈ slots}

theorem mem_blanksOf {x : String} : Term.blank x ∈ blanksOf slots ↔ x ∈ labelsAmong slots := by
  simp [blanksOf, labelsAmong, Term.isBlank]

theorem nameAmong_inj {x y : String} (hx : x ∈ labelsAmong slots) :
    nameAmong (blanksOf slots) x = nameAmong (blanksOf slots) y ↔ x = y := by
  refine ⟨fun h => ?_, fun h => by rw [h]⟩
  exact Term.blank.inj ((List.idxOf_inj (mem_blanksOf.2 hx)).1 (shortName_inj h))

theorem relabel_injOn (inj : Set.InjOn f (labelsAmong slots)) :
    Set.InjOn (Term.relabel f) {a | a ∈ slots.filter Term.isBlank} := by
  intro a ha b hb e
  obtain ⟨ha, blank⟩ := List.mem_filter.1 ha
  obtain ⟨hb, blank'⟩ := List.mem_filter.1 hb
  cases a with
  | blank x =>
    cases b with
    | blank y => exact congrArg Term.blank (inj ha hb (Term.blank.inj e))
    | _ => cases blank'
  | _ => cases blank

theorem keepsApart_ofLabels (inj : Set.InjOn f (labelsAmong slots)) (hslots : ∀ k ∈ slots, k.isSlot = true) :
    (Renaming.ofLabels f).KeepsApart slots := by
  intro j hj k hk e
  cases j with
  | var x =>
    cases k with
    | var y => rwa [Term.rename, Term.rename] at e
    | blank y => rw [Term.rename, Term.rename] at e; cases e
    | _ => cases hslots _ hk
  | blank x =>
    cases k with
    | var y => rw [Term.rename, Term.rename] at e; cases e
    | blank y =>
      rw [Term.rename, Term.rename] at e
      exact congrArg Term.blank (inj hj hk (Term.blank.inj e))
    | _ => cases hslots _ hk
  | _ => cases hslots _ hj

theorem toList_blanksOf_relabel (inj : Set.InjOn f (labelsAmong slots)) :
    (blanksOf (slots.map (Term.relabel f))).toList = (blanksOf slots).toList.map (Term.relabel f) := by
  have same : Term.isBlank ∘ Term.relabel f = Term.isBlank := funext fun a => a.isBlank_relabel
  rw [blanksOf, List.filter_map, same, OrderedSet.toList_ofList_map (relabel_injOn inj), blanksOf]

/-- The name of a label does not tell which label it is, only where it appears first. -/
theorem nameAmong_relabel (inj : Set.InjOn f (labelsAmong slots)) {x : String} (hx : x ∈ labelsAmong slots) :
    nameAmong (blanksOf (slots.map (Term.relabel f))) (f x) = nameAmong (blanksOf slots) x := by
  have apart : Set.InjOn (Term.relabel f) {a | a ∈ (blanksOf slots).toList} :=
    (relabel_injOn inj).mono fun a ha => OrderedSet.mem_ofList.1 ha
  have place := idxOf_map_of_injOn apart (mem_blanksOf.2 hx)
  rw [← toList_blanksOf_relabel inj] at place
  exact congrArg shortName place

end

/-! ## Rules with short names -/

namespace Rule
variable {f g : String → String}

/-- The side that is written first. -/
def first (r : Rule) : Term :=
  match r.direction with
  | .forward => r.condition
  | .backward => r.conclusion

def second (r : Rule) : Term :=
  match r.direction with
  | .forward => r.conclusion
  | .backward => r.condition

def arrow : Direction → String
  | .forward => " => "
  | .backward => " <= "

/-- The slots in the order in which they are written. -/
def writtenSlots (r : Rule) : List Term := r.first.slots ++ r.second.slots

def labels (r : Rule) : Set String := labelsAmong r.writtenSlots

/-- The short names of the labels of a rule. -/
def shortNames (r : Rule) : String → String := nameAmong (blanksOf r.writtenSlots)

/-- Other labels for the blank nodes, where the triples of formulas stay where they are. -/
def relabel (f : String → String) (r : Rule) : Rule :=
  { r with condition := r.condition.relabel f, conclusion := r.conclusion.relabel f }

@[simp] theorem first_relabel (r : Rule) : (r.relabel f).first = r.first.relabel f := by
  cases r with | mk condition direction conclusion => cases direction <;> rfl

@[simp] theorem second_relabel (r : Rule) : (r.relabel f).second = r.second.relabel f := by
  cases r with | mk condition direction conclusion => cases direction <;> rfl

theorem text_eq (r : Rule) : r.text = r.first.text ++ arrow r.direction ++ r.second.text := by
  unfold text first second
  cases r.direction <;> rfl

theorem ext_sides {r s : Rule} (hd : r.direction = s.direction) (first : r.first = s.first)
    (second : r.second = s.second) : r = s := by
  obtain ⟨condition, direction, conclusion⟩ := r
  obtain ⟨condition', direction', conclusion'⟩ := s
  obtain rfl : direction = direction' := hd
  cases direction
  · obtain rfl : condition = condition' := first
    obtain rfl : conclusion = conclusion' := second
    rfl
  · obtain rfl : conclusion = conclusion' := first
    obtain rfl : condition = condition' := second
    rfl

theorem mem_writtenSlots {r : Rule} {k : Term} :
    k ∈ r.writtenSlots ↔ k ∈ r.condition.slots ++ r.conclusion.slots := by
  unfold writtenSlots first second
  cases r.direction <;> simp [or_comm]

theorem writtenSlots_relabel (r : Rule) : (r.relabel f).writtenSlots = r.writtenSlots.map (Term.relabel f) := by
  simp [writtenSlots, Term.slots_relabel]

theorem labels_relabel (r : Rule) : (r.relabel f).labels = f '' r.labels := by
  ext y
  show Term.blank y ∈ (r.relabel f).writtenSlots ↔ y ∈ f '' r.labels
  rw [writtenSlots_relabel, List.mem_map]
  constructor
  · rintro ⟨k, hk, e⟩
    cases k with
    | blank x => exact ⟨x, hk, Term.blank.inj e⟩
    | _ => cases e
  · rintro ⟨x, hx, rfl⟩
    exact ⟨.blank x, hx, rfl⟩

theorem relabel_relabel (r : Rule) : (r.relabel f).relabel g = r.relabel (g ∘ f) := by
  simp [relabel, Term.relabel_relabel]

@[simp] theorem relabel_id (r : Rule) : r.relabel id = r := by simp [relabel]

theorem relabel_congr {r : Rule} (h : ∀ x ∈ r.labels, f x = g x) : r.relabel f = r.relabel g := by
  have condition : r.condition.relabel f = r.condition.relabel g := Term.relabel_congr _ fun x hx =>
    h x (mem_writtenSlots.2 (List.mem_append_left _ hx))
  have conclusion : r.conclusion.relabel f = r.conclusion.relabel g := Term.relabel_congr _ fun x hx =>
    h x (mem_writtenSlots.2 (List.mem_append_right _ hx))
  rw [relabel, relabel, condition, conclusion]

/-- A rule is written as the rule that has the short names as its labels. -/
theorem shortText_eq_text (r : Rule) : r.shortText = (r.relabel r.shortNames).text := by
  rw [text_eq, first_relabel, second_relabel, Term.text_relabel, Term.text_relabel]
  unfold shortText shortNames writtenSlots first second relabel
  cases r.direction <;> rfl

theorem shortNames_inj {r : Rule} {x y : String} (hx : x ∈ r.labels) :
    r.shortNames x = r.shortNames y ↔ x = y := nameAmong_inj hx

/-- Labels that are kept apart do not show in the short text, where the triples of formulas stay in place. -/
theorem shortText_relabel {r : Rule} (inj : Set.InjOn f r.labels) : (r.relabel f).shortText = r.shortText := by
  rw [shortText_eq_text, shortText_eq_text, relabel_relabel]
  refine congrArg text (relabel_congr fun x hx => ?_)
  rw [Function.comp_apply, shortNames, writtenSlots_relabel]
  exact nameAmong_relabel inj hx

/-! ## Labels that leave formulas in order -/

/-- The rules differ in their labels alone, and so that the triples of formulas stay in place. -/
def RenamedInOrder (r s : Rule) : Prop :=
  ∃ f : String → String, Set.InjOn f r.labels ∧ (r.relabel f).Canonical ∧ s = r.rename (.ofLabels f)

theorem rename_eq_relabel {r : Rule} (h : (r.relabel f).Canonical) : r.rename (.ofLabels f) = r.relabel f := by
  rw [rename, Term.rename_eq_relabel _ h.1, Term.rename_eq_relabel _ h.2, relabel]

theorem canonical_rename {r : Rule} (ρ : Renaming) : (r.rename ρ).Canonical :=
  ⟨Term.canonical_rename _, Term.canonical_rename _⟩

theorem RenamedInOrder.isRenaming {r s : Rule} (h : r.RenamedInOrder s) : r.IsRenaming s := by
  obtain ⟨f, inj, -, rfl⟩ := h
  refine ⟨.ofLabels f, keepsApart_ofLabels (fun x hx y hy => ?_) fun k hk => ?_, rfl⟩
  · exact inj (mem_writtenSlots.2 hx) (mem_writtenSlots.2 hy)
  · exact (List.mem_append.1 hk).elim (Term.isSlot_of_mem_slots _ k) (Term.isSlot_of_mem_slots _ k)

theorem RenamedInOrder.shortText_eq {r s : Rule} (h : r.RenamedInOrder s) : s.shortText = r.shortText := by
  obtain ⟨f, inj, canonical, rfl⟩ := h
  rw [rename_eq_relabel canonical, shortText_relabel inj]

/-- Labels that keep their order leave formulas in order. -/
theorem renamedInOrder_of_labelsInOrder {r : Rule} (canonical : r.Canonical)
    (h : LabelsInOrder f r.writtenSlots) : r.RenamedInOrder (r.rename (.ofLabels f)) := by
  refine ⟨f, fun x hx y hy e => ?_, ⟨?_, ?_⟩, rfl⟩
  · have same := h.compare_eq hx hy
    rw [e, compare_eq_iff_eq.2 rfl] at same
    exact compare_eq_iff_eq.1 same.symm
  · exact Term.canonical_relabel _ (h.subset fun k hk => mem_writtenSlots.2 (List.mem_append_left _ hk)) canonical.1
  · exact Term.canonical_relabel _ (h.subset fun k hk => mem_writtenSlots.2 (List.mem_append_right _ hk)) canonical.2

/-! ## Rules from their texts -/

section
variable {kind : String → String} {r s : Rule}

def isLegible (kind : String → String) (r : Rule) : Bool := r.first.isLegible kind && r.second.isLegible kind

theorem ended_arrow (d : Direction) (rest : List Char) : Text.Ended ((arrow d).toList ++ rest) := by
  cases d <;> exact Text.ended_space _

theorem arrow_append_inj {d e : Direction} {x y : List Char} (h : (arrow d).toList ++ x = (arrow e).toList ++ y) :
    d = e ∧ x = y := by
  cases d <;> cases e <;> simp_all [arrow]

/-- A rule can be told from its text. -/
theorem text_inj (hr : r.isLegible kind = true) (hs : s.isLegible kind = true) (h : r.text = s.text) : r = s := by
  rw [isLegible, Bool.and_eq_true] at hr hs
  have chars := congrArg String.toList h
  simp only [text_eq, String.toList_append, List.append_assoc] at chars
  obtain ⟨first, rest⟩ :=
    Term.text_append_inj r.first s.first hr.1 hs.1 (ended_arrow _ _) (ended_arrow _ _) chars
  obtain ⟨direction, rest⟩ := arrow_append_inj rest
  obtain ⟨second, -⟩ := Term.text_append_inj r.second s.second hr.2 hs.2 Text.ended_nil Text.ended_nil
    (by rwa [List.append_nil, List.append_nil])
  exact ext_sides direction first second

theorem isLegible_relabel_shortNames (h : r.isLegible kind = true) :
    (r.relabel r.shortNames).isLegible kind = true := by
  have unmarked : ∀ x, Text.isUnmarked (r.shortNames x) = true := fun x => isUnmarked_shortName _
  rw [isLegible, Bool.and_eq_true] at h
  rw [isLegible, first_relabel, second_relabel, Term.isLegible_relabel unmarked _ h.1,
    Term.isLegible_relabel unmarked _ h.2]
  rfl

/-- Legible rules that are written alike differ in their labels alone, with the triples of formulas in place. -/
theorem renamedInOrder_of_shortText_eq (hr : r.isLegible kind = true) (hs : s.isLegible kind = true)
    (canonical : s.Canonical) (h : s.shortText = r.shortText) : r.RenamedInOrder s := by
  rw [shortText_eq_text, shortText_eq_text] at h
  have same : s.relabel s.shortNames = r.relabel r.shortNames :=
    text_inj (isLegible_relabel_shortNames hs) (isLegible_relabel_shortNames hr) h
  have injective : Set.InjOn s.shortNames s.labels := fun x hx y _ e => (shortNames_inj hx).1 e
  -- A label of `r` goes to the label of `s` that has its short name.
  let back := Function.invFunOn s.shortNames s.labels
  have back_eq : r.relabel (back ∘ r.shortNames) = s := by
    rw [← relabel_relabel, ← same, relabel_relabel]
    refine Eq.trans (relabel_congr fun x hx => ?_) s.relabel_id
    exact injective.leftInvOn_invFunOn hx
  have images : s.shortNames '' s.labels = r.shortNames '' r.labels := by
    rw [← labels_relabel, ← labels_relabel, same]
  have meets : ∀ x ∈ r.labels, s.shortNames (back (r.shortNames x)) = r.shortNames x := by
    intro x hx
    have named : r.shortNames x ∈ s.shortNames '' s.labels := images ▸ Set.mem_image_of_mem _ hx
    exact Function.invFunOn_eq named
  refine ⟨back ∘ r.shortNames, fun x hx y hy e => ?_, by rwa [back_eq], ?_⟩
  · have named := congrArg s.shortNames e
    rw [Function.comp_apply, Function.comp_apply, meets x hx, meets y hy] at named
    exact (shortNames_inj hx).1 named
  · rw [rename_eq_relabel (by rwa [back_eq]), back_eq]

end

end Rule

/-! ## Reports -/

section
variable {rules renamed : List Rule}

theorem Report.map_select {β : Type} (g : String → β) (members : List Nat) :
    (select rules members).map (fun r => g r.shortText) =
      members.filterMap fun i => (rules.map Rule.shortText)[i]?.map g := by
  simp only [select, List.map_filterMap, List.getElem?_map, Option.map_map, Function.comp_def]

variable (texts : renamed.map Rule.shortText = rules.map Rule.shortText)
  (strata : Report.strataOf renamed = Report.strataOf rules)
include texts strata

theorem Report.strataText_congr : strataText renamed = strataText rules := by
  unfold strataText
  rw [strata]
  simp only [map_select, texts]

theorem Report.kinds_congr : kinds renamed = kinds rules := by
  have entries : ∀ s : Stratum, (select renamed s.members).map (fun r => (r.shortText, s.kind)) =
      (select rules s.members).map fun r => (r.shortText, s.kind) := by
    intro s
    rw [map_select (·, s.kind), map_select (·, s.kind), texts]
  unfold kinds
  rw [strata]
  simp only [entries]

end

theorem Rule.shortText_map_eq {rules renamed : List Rule} (h : List.Forall₂ RenamedInOrder rules renamed) :
    renamed.map shortText = rules.map shortText := by
  induction h with
  | nil => rfl
  | cons first _ ih => rw [List.map_cons, List.map_cons, first.shortText_eq, ih]

theorem Report.strataOf_renamed {rules renamed : List Rule} (canonical : ∀ r ∈ rules, r.Canonical)
    (h : List.Forall₂ Rule.IsRenaming rules renamed) : strataOf renamed = strataOf rules := by
  rw [strataOf, strataOf, ofRules_eq_of_renamed canonical h]
  exact List.map_congr_left fun members _ => by rw [stratumKind_renamed canonical h]

/-- Rules with other labels are written as before, and so are reports and the keys of kinds, where the triples of
formulas stay in order. They do where the labels themselves stay in order, in a rule with one label always. What is
written is the rule with its short names as labels, different ones for different labels. Legible rules that are written
alike differ in this way only. -/
theorem shortText_renamed (rules renamed : List Rule) :
    ((∀ r ∈ rules, r.Canonical) → List.Forall₂ Rule.RenamedInOrder rules renamed →
      renamed.map Rule.shortText = rules.map Rule.shortText ∧
        Report.strataText renamed = Report.strataText rules ∧ Report.kinds renamed = Report.kinds rules) ∧
    (∀ (r : Rule) (f : String → String), r.Canonical → LabelsInOrder f r.writtenSlots →
      r.RenamedInOrder (r.rename (.ofLabels f))) ∧
    (∀ r : Rule, r.shortText = (r.relabel r.shortNames).text ∧
      ∀ x ∈ r.labels, ∀ y ∈ r.labels, r.shortNames x = r.shortNames y ↔ x = y) ∧
    ∀ (kind : String → String) (r s : Rule), r.isLegible kind = true → s.isLegible kind = true → s.Canonical →
      (s.shortText = r.shortText ↔ r.RenamedInOrder s) := by
  refine ⟨fun canonical h => ?_, fun r f => Rule.renamedInOrder_of_labelsInOrder,
    fun r => ⟨r.shortText_eq_text, fun x hx y _ => Rule.shortNames_inj hx⟩, fun kind r s hr hs canonical => ?_⟩
  · have texts := Rule.shortText_map_eq h
    have strata := Report.strataOf_renamed canonical (h.imp fun _ _ => Rule.RenamedInOrder.isRenaming)
    exact ⟨texts, Report.strataText_congr texts strata, Report.kinds_congr texts strata⟩
  · exact ⟨Rule.renamedInOrder_of_shortText_eq hr hs canonical, Rule.RenamedInOrder.shortText_eq⟩

/-- Two triples that only labels put in order. -/
def labelledRule : Rule :=
  .ofLists [⟨.var "x", .iri "p", .var "y"⟩] [⟨.blank "a", .iri "q", .var "x"⟩, ⟨.blank "b", .iri "r", .var "x"⟩]

/-- Blank nodes in a quoted formula and beside it, on both sides. -/
def reportingRule : Rule :=
  .ofLists
    [⟨.blank "b", .iri "says", .quoting [⟨.blank "a", .iri "p", .blank "b"⟩, ⟨.blank "c", .iri "p", .var "x"⟩]⟩]
    [⟨.var "x", .iri "q", .blank "a"⟩, ⟨.var "x", .iri "r", .blank "c"⟩]

/-- All labels get the same beginning; two labels that change places do not leave their triples in order. -/
theorem shortText_renamed_prefixed :
    let rules := [reportingRule, labelledRule]
    let renamed := rules.map (Rule.rename (.ofLabels ("sk" ++ ·)))
    renamed ≠ rules ∧ renamed.map Rule.shortText = rules.map Rule.shortText ∧
      Report.strataText renamed = Report.strataText rules ∧ Report.kinds renamed = Report.kinds rules ∧
      reportingRule.shortText =
        "\x7b _:a <says> \x7b _:b <p> _:a . _:c <p> ?x \x7d \x7d => \x7b ?x <q> _:b . ?x <r> _:c \x7d" ∧
      reportingRule.shortNames "a" ≠ reportingRule.shortNames "c" ∧
      ¬ labelledRule.RenamedInOrder (labelledRule.rename (.ofLabels Renaming.swap.blank)) := by
  intro rules renamed
  obtain ⟨same, inOrder, names, exact⟩ := shortText_renamed rules renamed
  have canonical : ∀ r ∈ rules, r.Canonical := by
    simp [rules, reportingRule, labelledRule, Rule.Canonical, Rule.ofLists, Term.canonical_quoting,
      Triple.Canonical, Term.Canonical]
  have h : List.Forall₂ Rule.RenamedInOrder rules renamed := by
    rw [List.forall₂_map_right_iff, List.forall₂_same]
    exact fun r hr => inOrder r _ (canonical r hr) (.append_left _ _)
  obtain ⟨texts, strata, kinds⟩ := same canonical h
  refine ⟨by decide +kernel, texts, strata, kinds, by decide +kernel, ?_, ?_⟩
  · have a : Term.blank "a" ∈ reportingRule.writtenSlots := by decide +kernel
    have c : Term.blank "c" ∈ reportingRule.writtenSlots := by decide +kernel
    rw [Ne, (names reportingRule).2 "a" a "c" c]
    decide
  · rw [← exact (fun _ => "") _ _ (by decide +kernel) (by decide +kernel) (Rule.canonical_rename _)]
    decide +kernel

theorem Renaming.swap_blank_injective : Function.Injective Renaming.swap.blank := by
  have back : Function.Involutive Renaming.swap.blank := by
    intro x
    unfold Renaming.swap
    by_cases ha : x = "a"
    · simp [ha]
    · by_cases hb : x = "b" <;> simp [ha, hb]
  exact back.injective

/-- Labels that change places change the order of the triples, with it the text and so the key of the kind. -/
theorem shortText_rename_false :
    let r := labelledRule
    let s := r.rename (.ofLabels Renaming.swap.blank)
    r.Canonical ∧ Function.Injective Renaming.swap.blank ∧
      r.shortText = "\x7b ?x <p> ?y \x7d => \x7b _:a <q> ?x . _:b <r> ?x \x7d" ∧
      s.shortText = "\x7b ?x <p> ?y \x7d => \x7b _:a <r> ?x . _:b <q> ?x \x7d" ∧
      Report.kinds [r, s] = [(r.shortText, .simple), (s.shortText, .simple)] := by
  intro r s
  have canonical : r.Canonical := by
    simp [r, labelledRule, Rule.Canonical, Rule.ofLists, Term.canonical_quoting, Triple.Canonical, Term.Canonical]
  exact ⟨canonical, Renaming.swap_blank_injective, by decide +kernel, by decide +kernel, by decide +kernel⟩

end TripleChain
