import TripleChain.Proofs.Reordering

/-!
# A code or its character, whichever is known

The code builtin is one relation between a numeral and a string of one character (`Literal.CodeOf`), read in several
ways: both operands are known and are tested, or one is known and the other one is written out. What it gives is at
most one solution, in which the relation holds and which it gives again when it is asked again. It gives one wherever
some value for the operand that is not known would do (`evalOrd_relation`).
-/

namespace TripleChain

/-! ## Numerals -/

namespace Decimal

/-- Digits that stand for `n`, after a plus sign or not. -/
def IsNumeral (s : List Char) (n : Nat) : Prop :=
  ∃ digits, (s = digits ∨ s = '+' :: digits) ∧ digits ≠ [] ∧ (∀ c ∈ digits, c.isDigit = true) ∧ natural digits = n

theorem readCode?_eq_some {s : List Char} {n : Nat} : readCode? s = some n ↔ IsNumeral s n ∧ n < Nat.pow 2 32 := by
  have read : ∀ digits : List Char, (readNatural? digits).filter (· < Nat.pow 2 32) = some n ↔
      (digits ≠ [] ∧ (∀ c ∈ digits, c.isDigit = true) ∧ natural digits = n) ∧ n < Nat.pow 2 32 := by
    intro digits
    rw [Option.filter_eq_some_iff, readNatural?_eq_some, decide_eq_true_eq]
  unfold readCode?
  split
  · next digits =>
    rw [read]
    refine and_congr_left' ⟨fun h => ⟨digits, .inr rfl, h⟩, ?_⟩
    rintro ⟨ds, rfl | e, ne, h⟩
    · exact absurd (h.1 '+' (List.mem_cons_self ..)) (by decide)
    · exact (List.cons.inj e).2 ▸ ⟨ne, h⟩
  · next unsigned =>
    rw [read]
    refine and_congr_left' ⟨fun h => ⟨s, .inl rfl, h⟩, ?_⟩
    rintro ⟨ds, rfl | rfl, ne, h⟩
    · exact ⟨ne, h⟩
    · exact absurd rfl (unsigned ds)

/-- A numeral is read as a number, too. -/
theorem IsNumeral.isSome_read? {s : List Char} {n : Nat} (h : IsNumeral s n) : (read? s).isSome = true := by
  obtain ⟨digits, rfl | rfl, ne, all, -⟩ := h
  · exact isSome_read?_of_digits all ne
  · simp only [read?, readSign, Option.isSome_map]
    exact isSome_readMagnitude?_of_digits all ne

end Decimal

open Vocabulary

namespace Literal

/-- A literal of a numeric datatype that is, blanks around it aside, a numeral for `n`. -/
def IsNumeral (l : Literal) (n : Nat) : Prop := l.datatype ∈ numericDatatypes ∧ Decimal.IsNumeral l.trimmed n

theorem code?_eq_some {l : Literal} {n : Nat} : l.code? = some n ↔ l.IsNumeral n ∧ n < Nat.pow 2 32 := by
  rw [code?, Option.bind_eq_some_iff]
  simp only [Decimal.readCode?_eq_some, IsNumeral, and_assoc]
  constructor
  · rintro ⟨x, hx, h⟩
    refine ⟨?_, h⟩
    unfold number? at hx
    split at hx
    · assumption
    · cases hx
  · rintro ⟨numeric, numeral, h⟩
    obtain ⟨x, hx⟩ := Option.isSome_iff_exists.1 numeral.isSome_read?
    exact ⟨x, by rw [number?, if_pos numeric, hx], numeral, h⟩

/-- The first literal is a numeral for the code of the one character that the second one, a string, has. -/
def CodeOf (x y : Literal) : Prop :=
  ∃ c : Char, x.IsNumeral c.toNat ∧ y.datatype = xsdString ∧ y.lexical.toList = [c]

theorem eq_string_iff {y : Literal} {c : Char} :
    y = .string c.toString ↔ y.datatype = xsdString ∧ y.lexical.toList = [c] := by
  constructor
  · rintro rfl
    exact ⟨rfl, by simp [string]⟩
  · rintro ⟨datatype, lexical⟩
    have whole : y.lexical = c.toString := String.toList_inj.1 (lexical.trans (by simp))
    obtain ⟨_, _⟩ := y
    rw [string, ← datatype, ← whole]

theorem codes_iff {x y : Literal} : Builtin.Codes x y ↔ x.CodeOf y := by
  refine exists_congr fun c => ?_
  have small : c.toNat < Nat.pow 2 32 := c.val.toNat_lt
  rw [code?_eq_some, and_iff_left small, eq_string_iff]

end Literal

/-! ## Operands that are not known -/

/-- A slot without a value. -/
def Term.IsOpen (a : Term) (b : Bindings) : Prop := a.isSlot = true ∧ b.get? a = none

section
variable {a s o : Term} {b m : Bindings}

theorem Term.isOpen_iff : a.IsOpen b ↔ a.resolve b = none := by
  unfold IsOpen resolve
  cases a.isSlot <;> simp

theorem Term.exists_of_not_isOpen (h : ¬ a.IsOpen b) : ∃ v, a.resolve b = some v := by
  rw [isOpen_iff] at h
  exact Option.ne_none_iff_exists'.1 h

theorem Term.not_isOpen {v : Term} (h : a.resolve b = some v) : ¬ a.IsOpen b := by
  rw [isOpen_iff, h]
  nofun

namespace Builtin

/-- The bindings, with a value for the operand that has none; one operand has a value already. -/
inductive Filled (s o : Term) (b : Bindings) : Bindings → Prop
  | known (hs : ¬ s.IsOpen b) (ho : ¬ o.IsOpen b) : Filled s o b b
  | subject (v : Term) (hs : s.IsOpen b) (ho : ¬ o.IsOpen b) : Filled s o b (b.insert s v)
  | object (v : Term) (hs : ¬ s.IsOpen b) (ho : o.IsOpen b) : Filled s o b (b.insert o v)

/-- Under the bindings the subject is a numeral for the code of the character that the object is. -/
def OrdHolds (s o : Term) (b : Bindings) : Prop :=
  ∃ x y, s.resolve b = some (.literal x) ∧ o.resolve b = some (.literal y) ∧ x.CodeOf y

theorem length_evalOrd_le (s o : Term) (b : Bindings) : (evalOrd s o b).length ≤ 1 := by
  have assigned : ∀ slot a, (assign slot a b).length ≤ 1 := by
    intro slot a
    unfold assign
    split <;> simp
  unfold evalOrd
  split
  · split
    · exact Nat.zero_le 1
    · split
      · unfold keep
        split <;> simp
      · exact assigned ..
  · split
    · exact Nat.zero_le 1
    · exact assigned ..

theorem filled_of_mem (h : m ∈ evalOrd s o b) : Filled s o b m := by
  rcases mem_evalOrd.1 h with ⟨x, y, hs, ho, -, rfl⟩ | ⟨c, hs, ho, rfl⟩ | ⟨x, y, hs, ho, -, rfl⟩
  · exact .known (Term.not_isOpen hs) (Term.not_isOpen ho)
  · exact .subject _ (Term.isOpen_iff.2 hs) (Term.not_isOpen ho)
  · exact .object _ (Term.not_isOpen hs) (Term.isOpen_iff.2 ho)

theorem ordHolds_of_mem (h : m ∈ evalOrd s o b) : OrdHolds s o m := by
  obtain ⟨x, y, hs, ho, related⟩ := (holdsFor_of_mem (f := .ord) h).2
  exact ⟨x, y, hs, ho, Literal.codes_iff.1 (relates_ord.1 related)⟩

theorem mem_self_of_ordHolds (h : OrdHolds s o b) : b ∈ evalOrd s o b := by
  obtain ⟨x, y, hs, ho, code⟩ := h
  exact mem_evalOrd.2 (.inl ⟨x, y, hs, ho, Literal.codes_iff.2 code, rfl⟩)

/-- Where some value for the operand that is not known makes the relation hold, one is found. -/
theorem exists_mem_of_filled (hm : Filled s o b m) (h : OrdHolds s o m) : ∃ m', m' ∈ evalOrd s o b := by
  cases hm with
  | known hs ho => exact ⟨_, mem_self_of_ordHolds h⟩
  | subject v hs ho =>
    obtain ⟨x, y, -, hy, c, -, datatype, lexical⟩ := h
    obtain ⟨w, hw⟩ := Term.exists_of_not_isOpen ho
    have closed := Term.isOpen_iff.1 hs
    have kept := Term.resolve_extends (extends_open closed v).1 hw
    obtain rfl : w = .literal y := Option.some.inj (kept.symm.trans hy)
    rw [Literal.eq_string_iff.2 ⟨datatype, lexical⟩] at hw
    exact ⟨_, mem_evalOrd.2 (.inr (.inl ⟨c, closed, hw, rfl⟩))⟩
  | object v hs ho =>
    obtain ⟨x, y, hx, -, code⟩ := h
    obtain ⟨w, hw⟩ := Term.exists_of_not_isOpen hs
    have closed := Term.isOpen_iff.1 ho
    have kept := Term.resolve_extends (extends_open closed v).1 hw
    obtain rfl : w = .literal x := Option.some.inj (kept.symm.trans hx)
    exact ⟨_, mem_evalOrd.2 (.inr (.inr ⟨x, y, hw, closed, Literal.codes_iff.2 code, rfl⟩))⟩

end Builtin

end

open Builtin

/-- In each of its modes the code builtin is the relation between a numeral and the character whose code it is. It
gives at most one solution, with at most one value added, for the operand that had none; the relation holds there, and
asking again gives the same. It gives one exactly if one operand at least has a value, and the relation holds or can
be made to by a value for the other one. -/
theorem evalOrd_relation (s o : Term) (b : Bindings) (inner : Solver) (store : Store) :
    let answers := Builtin.ord.eval inner store s o b
    answers.complete = true ∧ answers.found.length ≤ 1 ∧
    (∀ m ∈ answers.found, Filled s o b m ∧ OrdHolds s o m ∧
      ∀ inner store, Builtin.ord.eval inner store s o m = .all [m]) ∧
    (answers.found ≠ [] ↔ ∃ m, Filled s o b m ∧ OrdHolds s o m) := by
  intro answers
  have only : ∀ {b m : Bindings}, m ∈ evalOrd s o b → evalOrd s o b = [m] := by
    intro b m hm
    obtain ⟨m', h⟩ := List.length_eq_one_iff.1
      (Nat.le_antisymm (length_evalOrd_le s o b) (List.length_pos_of_mem hm))
    rw [h, List.mem_singleton] at hm
    rw [h, hm]
  refine ⟨rfl, length_evalOrd_le s o b, fun m hm => ⟨filled_of_mem hm, ordHolds_of_mem hm, fun inner store => ?_⟩, ?_⟩
  · show Answers.all (evalOrd s o m) = .all [m]
    rw [only (mem_self_of_ordHolds (ordHolds_of_mem hm))]
  · constructor
    · intro ne
      obtain ⟨m, hm⟩ := List.exists_mem_of_ne_nil _ ne
      exact ⟨m, filled_of_mem hm, ordHolds_of_mem hm⟩
    · rintro ⟨m, filled, holds⟩
      obtain ⟨m', hm'⟩ := exists_mem_of_filled filled holds
      exact List.ne_nil_of_mem hm'

/-- A signed decimal with zeros in front is a code like any other. -/
example : evalOrd (.literal ⟨" +0065 ", xsdDecimal⟩) (.string "A") ∅ = [∅] := by decide +kernel

end TripleChain
