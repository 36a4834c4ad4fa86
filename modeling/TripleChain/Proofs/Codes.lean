import Mathlib.Data.List.TakeWhile
import TripleChain.Builtin

/-!
# Characters and their codes

A number that is written out in digits is read back as itself, so the code that is written out for a character
is a code of that character (`Literal.code?_char`). Of a code and its character, both are there and are tested,
or the one that is not there is written out (`Builtin.mem_evalOrd`).
-/

namespace TripleChain

/-! ## Numbers that are written out -/

theorem Text.trim_eq_self {s : List Char} (h : ∀ c ∈ s, isBlank c = false) : trim s = s := by
  have keep : ∀ l : List Char, (∀ c ∈ l, isBlank c = false) → l.dropWhile isBlank = l := by
    intro l hl
    cases l with
    | nil => rfl
    | cons c l => exact List.dropWhile_cons_of_neg (by simp [hl c (List.mem_cons_self ..)])
  rw [trim, keep s h, keep s.reverse fun c hc => h c (List.mem_reverse.1 hc), List.reverse_reverse]

namespace Decimal

theorem isDigit_iff {c : Char} : c.isDigit = true ↔ 48 ≤ c.toNat ∧ c.toNat ≤ 57 := by
  simp only [Char.isDigit, ge_iff_le, Bool.and_eq_true, decide_eq_true_eq, UInt32.le_iff_toNat_le]
  exact Iff.rfl

theorem isBlank_of_isDigit {c : Char} (h : c.isDigit = true) : Text.isBlank c = false := by
  have range := isDigit_iff.1 h
  simp only [Text.isBlank]
  simp
  omega

theorem toLower_of_isDigit {c : Char} (h : c.isDigit = true) : c.toLower = c := by
  have range := isDigit_iff.1 h
  unfold Char.toLower
  rw [dif_neg]
  intro upper
  have := UInt32.le_iff_toNat_le.1 upper.1
  have : (65 : Nat) ≤ c.toNat := this
  omega

theorem readNatural?_eq_some {s : List Char} {n : Nat} :
    readNatural? s = some n ↔ s ≠ [] ∧ (∀ c ∈ s, c.isDigit = true) ∧ natural s = n := by
  unfold readNatural?
  split
  · next h =>
    rw [Bool.or_eq_true, List.isEmpty_iff, Bool.not_eq_true', List.all_eq_false] at h
    refine iff_of_false nofun fun ⟨ne, digits, _⟩ => ?_
    rcases h with rfl | ⟨c, hc, other⟩
    · exact ne rfl
    · exact other (digits c hc)
  · next h =>
    rw [Bool.or_eq_true, List.isEmpty_iff, Bool.not_eq_true', not_or, Bool.not_eq_false, List.all_eq_true] at h
    rw [Option.some.injEq]
    exact ⟨fun e => ⟨h.1, h.2, e⟩, fun e => e.2.2⟩

section
variable {digits : List Char} (h : ∀ c ∈ digits, c.isDigit = true) (ne : digits ≠ [])
include h

theorem readDigits_of_digits : readDigits digits = (digits, [], []) := by
  have whole : digits.takeWhile Char.isDigit = digits := List.takeWhile_eq_self_iff.2 h
  have rest : digits.dropWhile Char.isDigit = [] := List.dropWhile_eq_nil_iff.2 h
  simp only [readDigits, whole, rest]

/-- A text in which a letter stands is no digits. -/
theorem ne_of_letter {name : List Char} {c : Char} (hc : c ∈ name) (letter : c.isDigit = false) :
    digits.map Char.toLower ≠ name := by
  have same : digits.map Char.toLower = digits :=
    (List.map_congr_left fun c hc => toLower_of_isDigit (h c hc)).trans (List.map_id digits)
  rw [same]
  rintro rfl
  rw [h c hc] at letter
  cases letter

theorem readSign_of_digits : readSign digits = (false, digits) := by
  unfold readSign
  split
  · exact absurd (h '-' (List.mem_cons_self ..)) (by decide)
  · exact absurd (h '+' (List.mem_cons_self ..)) (by decide)
  · rfl

include ne

theorem isSome_readMagnitude?_of_digits : (readMagnitude? digits).isSome = true := by
  have inf : digits.map Char.toLower ≠ "inf".toList := ne_of_letter h (c := 'i') (by decide) rfl
  have infinity : digits.map Char.toLower ≠ "infinity".toList := ne_of_letter h (c := 'i') (by decide) rfl
  have nan : digits.map Char.toLower ≠ "nan".toList := ne_of_letter h (c := 'n') (by decide) rfl
  have notEmpty : digits.isEmpty = false := by simpa using ne
  simp only [readMagnitude?]
  rw [if_neg (not_or.2 ⟨inf, infinity⟩), if_neg nan, readDigits_of_digits h]
  simp only [notEmpty, Bool.false_and]
  rfl

theorem isSome_read?_of_digits : (read? digits).isSome = true := by
  simp only [read?, readSign_of_digits h, Option.isSome_map]
  exact isSome_readMagnitude?_of_digits h ne

theorem readCode?_of_digits : readCode? digits = (some (natural digits)).filter (· < Nat.pow 2 32) := by
  have natural : readNatural? digits = some (natural digits) := readNatural?_eq_some.2 ⟨ne, h, rfl⟩
  unfold readCode?
  split
  · exact absurd (h '+' (List.mem_cons_self ..)) (by decide)
  · exact congrArg (Option.filter _) natural

end

theorem natural_toDigits (n : Nat) : natural (Nat.toDigits 10 n) = n := by
  have h := Nat.ofDigitChars_ten_toDigits (n := n)
  rw [Nat.ofDigitChars_eq_foldl] at h
  exact h

end Decimal

/-! ## Codes and characters -/

namespace Literal

theorem trimmed_integer (n : Nat) : (integer n).trimmed = Nat.toDigits 10 n := by
  have text : (integer n).lexical.toList = Nat.toDigits 10 n := by
    show (toString n).toList = _
    rw [Nat.toString_eq_ofList_toDigits, String.toList_ofList]
  rw [trimmed, text]
  exact Text.trim_eq_self fun c hc =>
    Decimal.isBlank_of_isDigit (Nat.isDigit_of_mem_toDigits (by decide) (by decide) hc)

/-- The code of a number that is written out. -/
theorem code?_integer {n : Nat} (h : n < UInt32.size) : (integer n).code? = some n := by
  have digits : ∀ c ∈ Nat.toDigits 10 n, c.isDigit = true :=
    fun c hc => Nat.isDigit_of_mem_toDigits (by decide) (by decide) hc
  have numeric : (integer n).datatype ∈ Vocabulary.numericDatatypes := List.mem_cons_self ..
  obtain ⟨x, hx⟩ := Option.isSome_iff_exists.1 (Decimal.isSome_read?_of_digits digits Nat.toDigits_ne_nil)
  rw [code?, number?, if_pos numeric, trimmed_integer, hx, Option.bind_some,
    Decimal.readCode?_of_digits digits Nat.toDigits_ne_nil, Decimal.natural_toDigits]
  exact Option.filter_some_pos (decide_eq_true h)

theorem code?_char (c : Char) : (integer c.toNat).code? = some c.toNat :=
  code?_integer (Nat.lt_of_lt_of_le c.val.toNat_lt (by decide))

theorem code?_string (s : String) : (string s).code? = none := by
  have text : (string s).datatype ∉ Vocabulary.numericDatatypes := by
    show Vocabulary.xsdString ∉ Vocabulary.numericDatatypes
    decide
  rw [code?, number?, if_neg text, Option.bind_none]

theorem character?_eq_some {l : Literal} {c : Char} : l.character? = some c ↔ l = .string c.toString := by
  constructor
  · intro h
    unfold character? at h
    split at h
    · next datatype =>
      split at h
      · next d lexical =>
        obtain rfl := Option.some.inj h
        have : l.lexical = d.toString := by
          rw [← String.toList_inj, lexical]; simp
        cases l
        simp_all [string]
      · cases h
    · cases h
  · rintro rfl
    simp [character?, string]

end Literal

theorem Builtin.ofCode?_toNat (c : Char) : ofCode? c.toNat = some c := by
  rw [ofCode?, if_pos (show c.toNat.isValidChar from c.valid), Char.ofNat_toNat]

theorem Builtin.ofCode?_eq_some {n : Nat} {c : Char} : ofCode? n = some c ↔ n = c.toNat := by
  constructor
  · intro h
    unfold ofCode? at h
    split at h
    · next valid =>
      rw [← Option.some.inj h, Char.ofNat, dif_pos valid]
      rfl
    · cases h
  · rintro rfl
    exact ofCode?_toNat c

theorem Term.character?_eq_some {a : Term} {c : Char} :
    a.literal?.bind Literal.character? = some c ↔ a = .string c.toString := by
  rw [Option.bind_eq_some_iff]
  simp only [Term.literal?_eq_some, Literal.character?_eq_some]
  constructor
  · rintro ⟨l, rfl, rfl⟩
    rfl
  · rintro rfl
    exact ⟨_, rfl, rfl⟩

namespace Builtin

/-- The first literal is a number that stands for the code of a character, the second one the text that this
character is. -/
def Codes (x y : Literal) : Prop := ∃ c : Char, x.code? = some c.toNat ∧ y = .string c.toString

section
variable {s o : Term} {b m : Bindings}

theorem mem_keep {holds : Bool} : m ∈ keep holds b ↔ holds = true ∧ m = b := by
  unfold keep
  split <;> simp_all

theorem isSlot_of_resolve {a : Term} (h : a.resolve b = none) : a.isSlot = true := by
  unfold Term.resolve at h
  split at h
  · assumption
  · cases h

theorem mem_assign {a : Term} (h : s.resolve b = none) : m ∈ assign s a b ↔ m = b.insert s a := by
  rw [assign, if_pos (isSlot_of_resolve h), List.mem_singleton]

theorem character_eq_some {c : Char} :
    (((s.resolve b).bind Term.literal?).bind Literal.code?).bind ofCode? = some c ↔
      ∃ x, s.resolve b = some (.literal x) ∧ x.code? = some c.toNat := by
  simp only [Option.bind_eq_some_iff, Term.literal?_eq_some, ofCode?_eq_some]
  constructor
  · rintro ⟨n, ⟨x, ⟨v, hv, rfl⟩, hx⟩, rfl⟩
    exact ⟨x, hv, hx⟩
  · rintro ⟨x, hs, hx⟩
    exact ⟨_, ⟨x, ⟨_, hs, rfl⟩, hx⟩, rfl⟩

/-- Of a code and its character, both are there and fit, or the one that is not there is written out. -/
theorem mem_evalOrd : m ∈ evalOrd s o b ↔
    (∃ x y, s.resolve b = some (.literal x) ∧ o.resolve b = some (.literal y) ∧ Codes x y ∧ m = b) ∨
    (∃ c : Char, s.resolve b = none ∧ o.resolve b = some (.string c.toString) ∧
      m = b.insert s (.integer c.toNat)) ∨
    ∃ x y, s.resolve b = some (.literal x) ∧ o.resolve b = none ∧ Codes x y ∧ m = b.insert o (.literal y) := by
  unfold evalOrd
  cases ho : o.resolve b with
  | some w =>
    simp only [Option.some.injEq, reduceCtorEq, false_and, and_false, exists_false, or_false]
    cases hc : w.literal?.bind Literal.character? with
    | none =>
      have other : ∀ c : Char, w ≠ .string c.toString := by
        intro c hw
        rw [Term.character?_eq_some.2 hw] at hc
        cases hc
      simp only [List.not_mem_nil, false_iff, not_or, not_exists]
      refine ⟨?_, fun c h => other c h.2.1⟩
      rintro x y ⟨-, hw, ⟨c, -, rfl⟩, -⟩
      exact other c hw
    | some c =>
      obtain rfl := Term.character?_eq_some.1 hc
      have only : ∀ d : Char, Term.string c.toString = .string d.toString → d = c := by
        intro d hd
        exact Option.some.inj ((Term.character?_eq_some.2 hd).symm.trans hc)
      cases hs : s.resolve b with
      | some v =>
        simp only [mem_keep, decide_eq_true_eq, Option.bind_eq_some_iff, Term.literal?_eq_some, Option.some.injEq,
          reduceCtorEq, false_and, exists_false, or_false]
        constructor
        · rintro ⟨⟨x, rfl, hx⟩, rfl⟩
          exact ⟨x, _, rfl, rfl, ⟨c, hx, rfl⟩, rfl⟩
        · rintro ⟨x, y, rfl, hy, ⟨d, hx, rfl⟩, rfl⟩
          exact ⟨⟨x, rfl, only d hy ▸ hx⟩, rfl⟩
      | none =>
        simp only [mem_assign hs, reduceCtorEq, false_and, exists_false, false_or, true_and]
        constructor
        · rintro rfl
          exact ⟨c, rfl, rfl⟩
        · rintro ⟨d, hd, rfl⟩
          rw [only d hd]
  | none =>
    simp only [reduceCtorEq, false_and, and_false, exists_false, false_or, true_and]
    cases hc : (((s.resolve b).bind Term.literal?).bind Literal.code?).bind ofCode? with
    | none =>
      simp only [List.not_mem_nil, false_iff, not_exists]
      rintro x y ⟨hs, ⟨c, hx, -⟩, -⟩
      rw [character_eq_some.2 ⟨x, hs, hx⟩] at hc
      cases hc
    | some c =>
      obtain ⟨x, hs, hx⟩ := character_eq_some.1 hc
      simp only [mem_assign ho]
      constructor
      · rintro rfl
        exact ⟨x, _, hs, ⟨c, hx, rfl⟩, rfl⟩
      · rintro ⟨x', y, hs', ⟨d, hx', rfl⟩, rfl⟩
        rw [character_eq_some.2 ⟨x', hs', hx'⟩] at hc
        rw [Option.some.inj hc]
        rfl

end

end Builtin

end TripleChain
