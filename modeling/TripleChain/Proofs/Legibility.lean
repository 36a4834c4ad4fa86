import Mathlib.Data.List.Basic
import TripleChain.Formula
import TripleChain.Term.Text

/-!
# Terms from their texts

A quoted text can be told from what is written after it, whatever characters it has
(`Text.quote_append_inj`). A term can be told from what is written after it if no name in it has a mark
that is set between the parts of a text, and a number has the datatype that its digits are taken for
(`Term.text_append_inj`).
-/

namespace TripleChain

/-! ## Quoted texts -/

namespace Text

/-- Two texts that go up to the first character with a property are equal if they are followed alike. -/
theorem eq_of_append_eq {p : Char → Bool} {x y r s : List Char} (hx : ∀ c ∈ x, p c = false)
    (hy : ∀ c ∈ y, p c = false) (hr : ∀ c ∈ r.head?, p c = true) (hs : ∀ c ∈ s.head?, p c = true)
    (h : x ++ r = y ++ s) : x = y ∧ r = s := by
  have taken : ∀ {z t : List Char}, (∀ c ∈ z, p c = false) → (∀ c ∈ t.head?, p c = true) →
      (z ++ t).takeWhile (fun c => !p c) = z := by
    intro z t hz ht
    rw [List.takeWhile_append_of_pos fun c hc => by simp [hz c hc]]
    cases t with
    | nil => simp
    | cons c t => rw [List.takeWhile_cons_of_neg (by simp [ht c rfl]), List.append_nil]
  have same : x = y := by rw [← taken hx hr, h, taken hy hs]
  subst same
  exact ⟨rfl, List.append_cancel_left h⟩

theorem digitChar_inj : ∀ m < 16, ∀ n < 16, m.digitChar = n.digitChar → m = n := by decide

theorem toDigits_inj {m n : Nat} (h : Nat.toDigits 16 m = Nat.toDigits 16 n) : m = n := by
  induction m using Nat.strongRecOn generalizing n with
  | ind m ih =>
    have long : ∀ k, 16 ≤ k → ∀ c, Nat.toDigits 16 (k / 16) ++ [(k % 16).digitChar] ≠ [c] := by
      intro k _ c e
      have hlen := congrArg List.length e
      have hne := List.length_pos_iff.2 (Nat.toDigits_ne_nil (n := k / 16) (b := 16))
      rw [List.length_append, List.length_singleton, List.length_singleton] at hlen
      omega
    rcases Nat.lt_or_ge m 16 with hm | hm <;> rcases Nat.lt_or_ge n 16 with hn | hn
    · rw [Nat.toDigits_of_lt_base hm, Nat.toDigits_of_lt_base hn] at h
      exact digitChar_inj m hm n hn (List.singleton_inj.1 h)
    · rw [Nat.toDigits_of_lt_base hm, Nat.toDigits_of_base_le (by omega) hn] at h
      exact absurd h.symm (long n hn _)
    · rw [Nat.toDigits_of_base_le (by omega) hm, Nat.toDigits_of_lt_base hn] at h
      exact absurd h (long m hm _)
    · rw [Nat.toDigits_of_base_le (by omega) hm, Nat.toDigits_of_base_le (by omega) hn] at h
      obtain ⟨high, low⟩ := List.append_inj' h rfl
      have hhigh := ih (m / 16) (by omega) high
      have hlow := digitChar_inj (m % 16) (by omega) (n % 16) (by omega) (List.singleton_inj.1 low)
      omega

theorem brace_not_mem_toDigits (n : Nat) : '\x7d' ∉ Nat.toDigits 16 n := by
  have digit : ∀ d < 16, '\x7d' ≠ d.digitChar := by decide
  induction n using Nat.strongRecOn with
  | ind n ih =>
    rcases Nat.lt_or_ge n 16 with hn | hn
    · rw [Nat.toDigits_of_lt_base hn, List.mem_singleton]
      exact digit n hn
    · rw [Nat.toDigits_of_base_le (by omega) hn, List.mem_append, List.mem_singleton, not_or]
      exact ⟨ih (n / 16) (by omega), digit (n % 16) (by omega)⟩

/-- The characters with a short escape, and the letters that they are written by. -/
def shortEscapes : List (Char × Char) :=
  [('"', '"'), ('\\', '\\'), ('\t', 't'), ('\n', 'n'), ('\r', 'r'), ('\x00', '0')]

inductive Escaped (c : Char) : List Char → Prop
  | plain (quote : c ≠ '"') (backslash : c ≠ '\\') : Escaped c [c]
  | short {d : Char} (h : (c, d) ∈ shortEscapes) : Escaped c ['\\', d]
  | code : Escaped c ('\\' :: 'u' :: '\x7b' :: (Nat.toDigits 16 c.toNat ++ ['\x7d']))

theorem escaped_escape (c : Char) : Escaped c (escape c).toList := by
  unfold escape
  split
  · exact .short (by decide)
  · exact .short (by decide)
  · exact .short (by decide)
  · exact .short (by decide)
  · exact .short (by decide)
  · exact .short (by decide)
  · next quote backslash _ _ _ _ =>
    split
    · simpa [hexadecimal] using Escaped.code (c := c)
    · simpa using Escaped.plain quote backslash

theorem Escaped.append_inj {c d : Char} {x y r s : List Char} (hx : Escaped c x) (hy : Escaped d y)
    (h : x ++ r = y ++ s) : c = d ∧ r = s := by
  have letters : ∀ e ∈ shortEscapes, ∀ f ∈ shortEscapes, e.2 = f.2 → e.1 = f.1 := by decide
  have coded : ∀ e ∈ shortEscapes, e.2 ≠ 'u' := by decide
  cases hx with
  | plain _ backslash =>
    cases hy with
    | plain _ _ => exact List.cons.inj h
    | short _ => exact absurd (List.cons.inj h).1 backslash
    | code => exact absurd (List.cons.inj h).1 backslash
  | short hc =>
    cases hy with
    | plain _ backslash => exact absurd (List.cons.inj h).1.symm backslash
    | short hd =>
      obtain ⟨e, h⟩ := List.cons.inj (List.cons.inj h).2
      exact ⟨letters _ hc _ hd e, h⟩
    | code => exact absurd (List.cons.inj (List.cons.inj h).2).1 (coded _ hc)
  | code =>
    cases hy with
    | plain _ backslash => exact absurd (List.cons.inj h).1.symm backslash
    | short hd => exact absurd (List.cons.inj (List.cons.inj h).2).1.symm (coded _ hd)
    | code =>
      -- No digit is the closing brace, so the digits end alike.
      simp only [List.cons_append, List.cons.injEq, true_and, List.append_assoc, List.nil_append] at h
      have ends : ∀ t : List Char, ∀ c ∈ ('\x7d' :: t).head?, (c == '\x7d') = true := by simp
      have digits : ∀ n, ∀ c ∈ Nat.toDigits 16 n, (c == '\x7d') = false := fun n c hc =>
        beq_false_of_ne fun e => brace_not_mem_toDigits n (e ▸ hc)
      obtain ⟨same, rest⟩ := eq_of_append_eq (digits _) (digits _) (ends r) (ends s) h
      exact ⟨Char.toNat_inj.1 (toDigits_inj same), (List.cons.inj rest).2⟩

theorem Escaped.head_ne {c : Char} {x r s : List Char} (hx : Escaped c x) : x ++ r ≠ '"' :: s := by
  intro h
  cases hx with
  | plain quote _ => exact quote (List.cons.inj h).1
  | short _ => exact absurd (List.cons.inj h).1 (by decide)
  | code => exact absurd (List.cons.inj h).1 (by decide)

def escapeAll (cs : List Char) : List Char := cs.flatMap fun c => (escape c).toList

theorem escapeAll_cons (c : Char) (cs : List Char) : escapeAll (c :: cs) = (escape c).toList ++ escapeAll cs := rfl

theorem toList_foldl_escape (cs : List Char) (text : String) :
    (cs.foldl (fun text c => text ++ escape c) text).toList = text.toList ++ escapeAll cs := by
  induction cs generalizing text with
  | nil => exact (List.append_nil _).symm
  | cons c cs ih => rw [List.foldl_cons, ih, String.toList_append, escapeAll_cons, List.append_assoc]

theorem toList_quote (s : String) : (quote s).toList = '"' :: (escapeAll s.toList ++ ['"']) := by
  simp [quote, String.foldl_eq_foldl_toList, toList_foldl_escape]

theorem escapeAll_append_inj {cs ds r s : List Char} (h : escapeAll cs ++ '"' :: r = escapeAll ds ++ '"' :: s) :
    cs = ds ∧ r = s := by
  induction cs generalizing ds with
  | nil =>
    cases ds with
    | nil => exact ⟨rfl, (List.cons.inj h).2⟩
    | cons d ds =>
      rw [escapeAll_cons, List.append_assoc] at h
      exact absurd h.symm (escaped_escape d).head_ne
  | cons c cs ih =>
    rw [escapeAll_cons, List.append_assoc] at h
    cases ds with
    | nil => exact absurd h (escaped_escape c).head_ne
    | cons d ds =>
      rw [escapeAll_cons, List.append_assoc] at h
      obtain ⟨rfl, others⟩ := (escaped_escape c).append_inj (escaped_escape d) h
      obtain ⟨rfl, after⟩ := ih others
      exact ⟨rfl, after⟩

/-- A text between quotes can be told from what is written after it. -/
theorem quote_append_inj {x y : String} {r s : List Char}
    (h : (quote x).toList ++ r = (quote y).toList ++ s) : x = y ∧ r = s := by
  rw [toList_quote, toList_quote] at h
  simp only [List.cons_append, List.cons.injEq, true_and, List.append_assoc, List.nil_append] at h
  obtain ⟨same, after⟩ := escapeAll_append_inj h
  exact ⟨String.toList_inj.1 same, after⟩

/-! ## Marks -/

/-- The characters that are set between the parts of a text. -/
def isMark (c : Char) : Bool := c = ' ' || c = '=' || c = '\x00'

def isUnmarked (s : String) : Bool := s.toList.all fun c => !isMark c

/-- The text is at its end or goes on with a mark. -/
def Ended (r : List Char) : Prop := ∀ c ∈ r.head?, isMark c = true

theorem ended_nil : Ended [] := fun _ h => absurd h (Option.not_mem_none _)

theorem ended_cons {c : Char} {r : List Char} (h : isMark c = true) : Ended (c :: r) :=
  fun _ hd => Option.mem_some.1 hd ▸ h

/-- The characters that a quoted text, an IRI, a variable, a blank node and a formula begin with. -/
def openers : List Char := ['"', '<', '?', '_', '\x7b']

end Text

/-! ## Literals -/

open Vocabulary

/-- A literal that is written bare has the datatype that its lexical form is taken for, and is no beginning
of another term. -/
def Literal.isLegible (kind : String → String) (l : Literal) : Bool :=
  if l.datatype = xsdString then true
  else if l.datatype ∈ [xsdInteger, xsdDecimal, xsdDouble] then
    l.datatype = kind l.lexical && Text.isUnmarked l.lexical &&
      l.lexical.toList.head?.all fun c => c ∉ Text.openers
  else '>' ∉ l.datatype.toList

inductive Literal.Written (kind : String → String) (l : Literal) : List Char → Prop
  | string (h : l.datatype = xsdString) : Written kind l (Text.quote l.lexical).toList
  | bare (h : l.datatype = kind l.lexical) (unmarked : ∀ c ∈ l.lexical.toList, Text.isMark c = false)
      (opens : ∀ c ∈ l.lexical.toList.head?, c ∉ Text.openers) : Written kind l l.lexical.toList
  | typed (h : '>' ∉ l.datatype.toList) :
      Written kind l ((Text.quote l.lexical).toList ++ '^' :: '^' :: '<' :: (l.datatype.toList ++ ['>']))

section
variable {kind : String → String} {r s : List Char}

theorem Text.isUnmarked_iff {s : String} : isUnmarked s = true ↔ ∀ c ∈ s.toList, isMark c = false := by
  simp [isUnmarked]

theorem Literal.written_text {l : Literal} (h : l.isLegible kind = true) : l.Written kind l.text.toList := by
  unfold isLegible at h
  unfold text
  split
  · next hs => exact .string hs
  · next hs =>
    rw [if_neg hs] at h
    split
    · next hb =>
      rw [if_pos hb] at h
      simp only [Bool.and_eq_true, decide_eq_true_eq, Option.all_eq_true] at h
      exact .bare h.1.1 (Text.isUnmarked_iff.1 h.1.2) h.2
    · next hb =>
      rw [if_neg hb, decide_eq_true_eq] at h
      have typed : l.Written kind _ := .typed h
      simpa using typed

theorem Text.not_mem_openers {c : Char} (h : isMark c = true) : c ∉ openers := by
  intro hc
  have unmarked : (openers.all fun c => !isMark c) = true := by decide
  have mark := List.all_eq_true.1 unmarked c hc
  rw [h] at mark
  cases mark

/-- What is written bare does not begin as another term does, and neither does what is after it. -/
theorem Text.head_not_mem_openers {cs : List Char} (opens : ∀ c ∈ cs.head?, c ∉ openers) (hr : Ended r) :
    ∀ c ∈ (cs ++ r).head?, c ∉ openers := by
  cases cs with
  | nil => exact fun c hc => not_mem_openers (hr c hc)
  | cons d cs => exact opens

theorem Text.ne_quoted {cs : List Char} (opens : ∀ c ∈ cs.head?, c ∉ openers) (hr : Ended r) (x : String) :
    cs ++ r ≠ (quote x).toList ++ s := by
  intro h
  have head := head_not_mem_openers opens hr '"'
  rw [h, toList_quote] at head
  exact absurd (head rfl) (by decide)

theorem Text.not_ended_caret {t : List Char} : ¬ Ended ('^' :: t) := fun h => absurd (h '^' rfl) (by decide)

theorem Text.eq_of_closed_eq {x y : String} (hx : '>' ∉ x.toList) (hy : '>' ∉ y.toList)
    (h : x.toList ++ '>' :: r = y.toList ++ '>' :: s) : x = y ∧ r = s := by
  have closed : ∀ {z : String}, '>' ∉ z.toList → ∀ c ∈ z.toList, (c == '>') = false :=
    fun hz c hc => beq_false_of_ne fun e => hz (e ▸ hc)
  have ends : ∀ t : List Char, ∀ c ∈ ('>' :: t).head?, (c == '>') = true := by simp
  obtain ⟨same, after⟩ := eq_of_append_eq (closed hx) (closed hy) (ends r) (ends s) h
  exact ⟨String.toList_inj.1 same, (List.cons.inj after).2⟩

theorem Text.eq_of_unmarked_eq {x y : String} (hx : ∀ c ∈ x.toList, isMark c = false)
    (hy : ∀ c ∈ y.toList, isMark c = false) (hr : Ended r) (hs : Ended s) (h : x.toList ++ r = y.toList ++ s) :
    x = y ∧ r = s := by
  obtain ⟨same, after⟩ := eq_of_append_eq hx hy hr hs h
  exact ⟨String.toList_inj.1 same, after⟩

theorem Literal.eq_of_parts {l m : Literal} (lexical : l.lexical = m.lexical) (datatype : l.datatype = m.datatype) :
    l = m := by
  cases l
  cases m
  cases lexical
  cases datatype
  rfl

theorem Literal.Written.append_inj {l m : Literal} {x y : List Char} (hl : l.Written kind x)
    (hm : m.Written kind y) (hr : Text.Ended r) (hs : Text.Ended s) (h : x ++ r = y ++ s) : l = m ∧ r = s := by
  cases hl with
  | string hdt =>
    cases hm with
    | string hdt' =>
      obtain ⟨same, after⟩ := Text.quote_append_inj h
      exact ⟨eq_of_parts same (hdt.trans hdt'.symm), after⟩
    | bare _ _ opens => exact absurd h.symm (Text.ne_quoted opens hs _)
    | typed _ =>
      rw [List.append_assoc] at h
      exact absurd ((Text.quote_append_inj h).2 ▸ hr) Text.not_ended_caret
  | bare hdt unmarked opens =>
    cases hm with
    | string _ => exact absurd h (Text.ne_quoted opens hr _)
    | bare hdt' unmarked' _ =>
      obtain ⟨same, after⟩ := Text.eq_of_unmarked_eq unmarked unmarked' hr hs h
      exact ⟨eq_of_parts same (by rw [hdt, hdt', same]), after⟩
    | typed _ =>
      rw [List.append_assoc] at h
      exact absurd h (Text.ne_quoted opens hr _)
  | typed hdt =>
    rw [List.append_assoc] at h
    cases hm with
    | string _ => exact absurd ((Text.quote_append_inj h).2 ▸ hs) Text.not_ended_caret
    | bare _ _ opens => exact absurd h.symm (Text.ne_quoted opens hs _)
    | typed hdt' =>
      rw [List.append_assoc] at h
      obtain ⟨lexical, h⟩ := Text.quote_append_inj h
      simp only [List.cons_append, List.cons.injEq, true_and, List.append_assoc, List.nil_append] at h
      obtain ⟨datatype, after⟩ := Text.eq_of_closed_eq hdt hdt' h
      exact ⟨eq_of_parts lexical datatype, after⟩

end

/-! ## Terms -/

mutual

/-- No name in the term has a mark, no IRI has its closing bracket, and its literals can be told apart if a
lexical form written bare is taken for the datatype that `kind` gives. -/
def Term.isLegible (kind : String → String) : Term → Bool
  | .literal l => l.isLegible kind
  | .iri s => '>' ∉ s.toList
  | .var x | .blank x => Text.isUnmarked x
  | .formula ts => Triple.allLegible kind ts

def Triple.isLegible (kind : String → String) : Triple → Bool
  | ⟨s, p, o⟩ => s.isLegible kind && p.isLegible kind && o.isLegible kind

def Triple.allLegible (kind : String → String) : List Triple → Bool
  | [] => true
  | t :: ts => t.isLegible kind && Triple.allLegible kind ts

end

/-- The kind of term that begins with the first character. -/
def Text.openedRank : List Char → Nat
  | '<' :: _ => 1
  | '?' :: _ => 2
  | '_' :: _ => 3
  | '\x7b' :: _ => 4
  | _ => 0

section
variable {kind : String → String} {r s : List Char}

theorem Text.openedRank_eq_zero {cs : List Char} (h : ∀ c ∈ cs.head?, c ∉ openers) : openedRank cs = 0 := by
  unfold openedRank
  split
  · exact absurd (by decide) (h '<' rfl)
  · exact absurd (by decide) (h '?' rfl)
  · exact absurd (by decide) (h '_' rfl)
  · exact absurd (by decide) (h '\x7b' rfl)
  · rfl

theorem Text.openedRank_quote (x : String) : openedRank ((quote x).toList ++ r) = 0 := by
  rw [toList_quote]
  rfl

theorem Term.toList_text_iri (x : String) : (Term.iri x).text.toList = '<' :: (x.toList ++ ['>']) := by
  simp [text, textWith]

theorem Term.toList_text_var (x : String) : (Term.var x).text.toList = '?' :: x.toList := by
  simp [text, textWith]

theorem Term.toList_text_blank (x : String) : (Term.blank x).text.toList = '_' :: ':' :: x.toList := by
  simp [text, textWith]

theorem Term.toList_text_cons (t : Triple) (ts : List Triple) : (Term.formula (t :: ts)).text.toList =
    '\x7b' :: ' ' :: (t.text.toList ++ ((Triple.followingTextWith id ts).toList ++ [' ', '\x7d'])) := by
  simp [text, textWith, Triple.text]

theorem Term.openedRank_text {a : Term} (ha : a.isLegible kind = true) (hr : Text.Ended r) :
    Text.openedRank (a.text.toList ++ r) = a.rank := by
  cases a with
  | literal l =>
    have written : l.Written kind l.text.toList := Literal.written_text ha
    show Text.openedRank (l.text.toList ++ r) = 0
    generalize l.text.toList = x at written ⊢
    cases written with
    | string _ => exact Text.openedRank_quote _
    | bare _ _ opens => exact Text.openedRank_eq_zero (Text.head_not_mem_openers opens hr)
    | typed _ =>
      rw [List.append_assoc]
      exact Text.openedRank_quote _
  | iri x => rw [toList_text_iri]; rfl
  | var x => rw [toList_text_var]; rfl
  | blank x => rw [toList_text_blank]; rfl
  | formula ts =>
    cases ts with
    | nil => rfl
    | cons t ts => rw [toList_text_cons]; rfl

/-- Terms that are written alike up to a mark are of one kind. -/
theorem Term.rank_eq_of_text_eq {a b : Term} (ha : a.isLegible kind = true) (hb : b.isLegible kind = true)
    (hr : Text.Ended r) (hs : Text.Ended s) (h : a.text.toList ++ r = b.text.toList ++ s) : a.rank = b.rank := by
  rw [← openedRank_text ha hr, h, openedRank_text hb hs]

theorem Text.ended_space (t : List Char) : Ended (' ' :: t) := ended_cons rfl

theorem Triple.toList_text (a p o : Term) : (Triple.mk a p o).text.toList =
    a.text.toList ++ ' ' :: (p.text.toList ++ ' ' :: o.text.toList) := by
  simp [text, textWith, Term.text]

theorem Triple.toList_followingText_cons (t : Triple) (ts : List Triple) :
    (Triple.followingTextWith id (t :: ts)).toList =
      ' ' :: '.' :: ' ' :: (t.text.toList ++ (Triple.followingTextWith id ts).toList) := by
  simp [followingTextWith, text]

/-- After a triple of a formula comes the next one or the end of the formula. -/
theorem Triple.ended_followingText (ts : List Triple) :
    Text.Ended ((Triple.followingTextWith id ts).toList ++ ' ' :: '\x7d' :: r) := by
  cases ts with
  | nil => exact Text.ended_space _
  | cons t ts => rw [toList_followingText_cons]; exact Text.ended_space _

-- The recursion is on the first term: its first character gives the kind of the second one.
mutual

/-- A term can be told from what is written after it. -/
theorem Term.text_append_inj : (a b : Term) → a.isLegible kind = true → b.isLegible kind = true →
    ∀ {r s : List Char}, Text.Ended r → Text.Ended s → a.text.toList ++ r = b.text.toList ++ s → a = b ∧ r = s
  | .literal l, b, ha, hb, r, s, hr, hs, h => by
    have rank := Term.rank_eq_of_text_eq ha hb hr hs h
    cases b with
    | literal m =>
      obtain ⟨rfl, after⟩ := (Literal.written_text ha).append_inj (Literal.written_text hb) hr hs h
      exact ⟨rfl, after⟩
    | _ => cases rank
  | .iri x, b, ha, hb, r, s, hr, hs, h => by
    have rank := Term.rank_eq_of_text_eq ha hb hr hs h
    cases b with
    | iri y =>
      rw [Term.toList_text_iri, Term.toList_text_iri] at h
      simp only [List.cons_append, List.cons.injEq, true_and, List.append_assoc, List.nil_append] at h
      obtain ⟨rfl, after⟩ := Text.eq_of_closed_eq (of_decide_eq_true ha) (of_decide_eq_true hb) h
      exact ⟨rfl, after⟩
    | _ => cases rank
  | .var x, b, ha, hb, r, s, hr, hs, h => by
    have rank := Term.rank_eq_of_text_eq ha hb hr hs h
    cases b with
    | var y =>
      rw [Term.toList_text_var, Term.toList_text_var] at h
      obtain ⟨rfl, after⟩ :=
        Text.eq_of_unmarked_eq (Text.isUnmarked_iff.1 ha) (Text.isUnmarked_iff.1 hb) hr hs (List.cons.inj h).2
      exact ⟨rfl, after⟩
    | _ => cases rank
  | .blank x, b, ha, hb, r, s, hr, hs, h => by
    have rank := Term.rank_eq_of_text_eq ha hb hr hs h
    cases b with
    | blank y =>
      rw [Term.toList_text_blank, Term.toList_text_blank] at h
      obtain ⟨rfl, after⟩ := Text.eq_of_unmarked_eq (Text.isUnmarked_iff.1 ha) (Text.isUnmarked_iff.1 hb) hr hs
        (List.cons.inj (List.cons.inj h).2).2
      exact ⟨rfl, after⟩
    | _ => cases rank
  | .formula [], b, ha, hb, r, s, hr, hs, h => by
    have rank := Term.rank_eq_of_text_eq ha hb hr hs h
    cases b with
    | formula us =>
      cases us with
      | nil => exact ⟨rfl, (List.cons.inj (List.cons.inj h).2).2⟩
      | cons u us =>
        rw [Term.toList_text_cons] at h
        exact absurd (List.cons.inj (List.cons.inj h).2).1 (by decide)
    | _ => cases rank
  | .formula (t :: ts), b, ha, hb, r, s, hr, hs, h => by
    have rank := Term.rank_eq_of_text_eq ha hb hr hs h
    cases b with
    | formula us =>
      rw [Term.toList_text_cons] at h
      cases us with
      | nil => exact absurd (List.cons.inj (List.cons.inj h).2).1 (by decide)
      | cons u us =>
        rw [Term.toList_text_cons] at h
        simp only [List.cons_append, List.cons.injEq, true_and, List.append_assoc, List.nil_append] at h
        rw [Term.isLegible, Triple.allLegible, Bool.and_eq_true] at ha hb
        obtain ⟨rfl, others⟩ := Triple.text_append_inj t u ha.1 hb.1 (Triple.ended_followingText ts)
          (Triple.ended_followingText us) h
        obtain ⟨rfl, after⟩ := Triple.followingText_append_inj ts us ha.2 hb.2 others
        exact ⟨rfl, after⟩
    | _ => cases rank

theorem Triple.text_append_inj : (t u : Triple) → t.isLegible kind = true → u.isLegible kind = true →
    ∀ {r s : List Char}, Text.Ended r → Text.Ended s → t.text.toList ++ r = u.text.toList ++ s → t = u ∧ r = s
  | ⟨a, p, o⟩, ⟨a', p', o'⟩, ht, hu, r, s, hr, hs, h => by
    simp only [Triple.toList_text, List.append_assoc, List.cons_append] at h
    simp only [Triple.isLegible, Bool.and_eq_true] at ht hu
    obtain ⟨rfl, second⟩ := Term.text_append_inj a a' ht.1.1 hu.1.1 (Text.ended_space _) (Text.ended_space _) h
    obtain ⟨rfl, third⟩ := Term.text_append_inj p p' ht.1.2 hu.1.2 (Text.ended_space _) (Text.ended_space _)
      (List.cons.inj second).2
    obtain ⟨rfl, after⟩ := Term.text_append_inj o o' ht.2 hu.2 hr hs (List.cons.inj third).2
    exact ⟨rfl, after⟩

theorem Triple.followingText_append_inj : (ts us : List Triple) → Triple.allLegible kind ts = true →
    Triple.allLegible kind us = true → ∀ {r s : List Char},
      (Triple.followingTextWith id ts).toList ++ ' ' :: '\x7d' :: r =
        (Triple.followingTextWith id us).toList ++ ' ' :: '\x7d' :: s → ts = us ∧ r = s
  | [], [], _, _, r, s, h => ⟨rfl, (List.cons.inj (List.cons.inj h).2).2⟩
  | [], u :: us, _, _, r, s, h => by
    rw [Triple.toList_followingText_cons] at h
    exact absurd (List.cons.inj (List.cons.inj h).2).1 (by decide)
  | t :: ts, [], _, _, r, s, h => by
    rw [Triple.toList_followingText_cons] at h
    exact absurd (List.cons.inj (List.cons.inj h).2).1 (by decide)
  | t :: ts, u :: us, ht, hu, r, s, h => by
    rw [Triple.toList_followingText_cons, Triple.toList_followingText_cons] at h
    simp only [List.cons_append, List.cons.injEq, true_and, List.append_assoc] at h
    rw [Triple.allLegible, Bool.and_eq_true] at ht hu
    obtain ⟨rfl, others⟩ := Triple.text_append_inj t u ht.1 hu.1 (Triple.ended_followingText ts)
      (Triple.ended_followingText us) h
    obtain ⟨rfl, after⟩ := Triple.followingText_append_inj ts us ht.2 hu.2 others
    exact ⟨rfl, after⟩

end

end

end TripleChain
