import Mathlib.Data.Set.Function
import TripleChain.Firing
import TripleChain.Proofs.Legibility

/-!
# Minted labels

A minted label is the digest of a seed, in which the texts of the conclusion, of the slot and of the entries of
the bindings are set apart by marks. Legible texts are read back from the seed, so that it determines what it
was made for, and so does the label as far as the digest does (`mint_inj`). A number that is written without
its datatype is not legible beside one of another datatype, and their seeds are the same
(`mintSeed_inj_false`).
-/

namespace TripleChain

/-! ## Texts as bytes -/

namespace Text

theorem toList_loop (bytes : ByteArray) (i : Nat) (read : List UInt8) :
    ByteArray.toList.loop bytes i read = read.reverse ++ bytes.data.toList.drop i := by
  fun_induction ByteArray.toList.loop bytes i read with
  | case1 i read h ih =>
    have hi : i < bytes.data.toList.length := h
    rw [ih, List.reverse_cons, List.append_assoc, List.drop_eq_getElem_cons hi]
    simp [ByteArray.get!, getElem!_pos bytes.data i h]
  | case2 i read h =>
    have hi : bytes.data.toList.length ≤ i := Nat.not_lt.1 h
    rw [List.drop_eq_nil_of_le hi, List.append_nil]

def encode (cs : List Char) : List UInt8 := cs.flatMap String.utf8EncodeChar

theorem encode_append (cs ds : List Char) : encode (cs ++ ds) = encode cs ++ encode ds := List.flatMap_append

theorem utf8_eq_encode (s : String) : utf8 s = encode s.toList := by
  rw [utf8, ByteArray.toList, toList_loop, List.reverse_nil, List.nil_append, List.drop_zero,
    String.toUTF8_eq_toByteArray, ← String.utf8Encode_toList, List.utf8Encode, List.data_toByteArray]
  rfl

theorem encode_inj {cs ds : List Char} (h : encode cs = encode ds) : cs = ds := by
  have bytes : cs.utf8Encode = ds.utf8Encode := congrArg List.toByteArray h
  have decoded := congrArg ByteArray.utf8Decode? bytes
  rw [List.utf8Decode?_utf8Encode, List.utf8Decode?_utf8Encode] at decoded
  exact Array.toList_inj.2 (Option.some.inj decoded)

end Text

/-! ## Seeds -/

/-- The entries of bindings as they stand in a seed. -/
def entriesText (es : List (Term × Term)) : List Char :=
  es.flatMap fun (k, v) => '\x00' :: (k.text.toList ++ '=' :: v.text.toList)

/-- The characters of a seed. -/
def mintText (F : Formula) (a : Term) (b : Bindings) : List Char :=
  F.text.toList ++ '\x00' :: (a.text.toList ++ entriesText b.entries)

theorem entriesText_cons (k v : Term) (es : List (Term × Term)) :
    entriesText ((k, v) :: es) = '\x00' :: (k.text.toList ++ '=' :: (v.text.toList ++ entriesText es)) := by
  simp [entriesText]

theorem Text.encode_zero (cs : List Char) : Text.encode ('\x00' :: cs) = 0 :: Text.encode cs := by
  have zero : String.utf8EncodeChar '\x00' = [0] := by decide
  rw [encode, List.flatMap_cons, zero]
  rfl

theorem Text.encode_entriesText (es : List (Term × Term)) : Text.encode (entriesText es) =
    es.flatMap fun (k, v) => 0 :: utf8 k.text ++ utf8 "=" ++ utf8 v.text := by
  induction es with
  | nil => rfl
  | cons e es ih =>
    obtain ⟨k, v⟩ := e
    have equals : ∀ cs, Text.encode ('=' :: cs) = utf8 "=" ++ Text.encode cs := fun cs => by
      rw [Text.utf8_eq_encode, ← Text.encode_append]
      rfl
    rw [entriesText_cons, Text.encode_zero, Text.encode_append, equals, Text.encode_append, ih, List.flatMap_cons]
    simp only [Text.utf8_eq_encode, List.cons_append, List.append_assoc]

theorem mintSeed_eq_encode (F : Formula) (a : Term) (b : Bindings) : mintSeed F a b = Text.encode (mintText F a b) := by
  rw [mintText, Text.encode_append, Text.encode_zero, Text.encode_append, Text.encode_entriesText]
  simp only [mintSeed, Text.utf8_eq_encode, List.cons_append, List.append_assoc]

theorem ended_entriesText (es : List (Term × Term)) : Text.Ended (entriesText es) := by
  cases es with
  | nil => exact Text.ended_nil
  | cons e es => exact Text.ended_cons rfl

def Bindings.isLegible (kind : String → String) (b : Bindings) : Bool :=
  b.entries.all fun (k, v) => k.isLegible kind && v.isLegible kind

section
variable {kind : String → String}

theorem entriesText_inj {es fs : List (Term × Term)}
    (he : es.all (fun (k, v) => k.isLegible kind && v.isLegible kind) = true)
    (hf : fs.all (fun (k, v) => k.isLegible kind && v.isLegible kind) = true)
    (h : entriesText es = entriesText fs) : es = fs := by
  induction es generalizing fs with
  | nil =>
    cases fs with
    | nil => rfl
    | cons f fs => cases h
  | cons e es ih =>
    cases fs with
    | nil => cases h
    | cons f fs =>
      obtain ⟨k, v⟩ := e
      obtain ⟨l, w⟩ := f
      rw [List.all_cons, Bool.and_eq_true, Bool.and_eq_true] at he hf
      rw [entriesText_cons, entriesText_cons] at h
      obtain ⟨rfl, values⟩ := Term.text_append_inj k l he.1.1 hf.1.1 (Text.ended_cons rfl) (Text.ended_cons rfl)
        (List.cons.inj h).2
      obtain ⟨rfl, others⟩ := Term.text_append_inj v w he.1.2 hf.1.2 (ended_entriesText es) (ended_entriesText fs)
        (List.cons.inj values).2
      rw [ih he.2 hf.2 others]

/-- The label that a minted blank node has for a seed. -/
def mintLabel (seed : List UInt8) : String :=
  Vocabulary.mintedLabel ++ Digest.hexadecimal ((Digest.sha256 seed).take 12)

theorem mint_eq_blank (F : Formula) (a : Term) (b : Bindings) : mint F a b = .blank (mintLabel (mintSeed F a b)) := rfl

/-- What a label is minted for is legible. -/
structure MintLegible (kind : String → String) (F : Formula) (a : Term) (b : Bindings) : Prop where
  conclusion : Triple.allLegible kind F = true
  slot : a.isLegible kind = true
  bindings : b.isLegible kind = true

theorem mintSeed_inj {F G : Formula} {a c : Term} {b d : Bindings} (hl : MintLegible kind F a b)
    (hr : MintLegible kind G c d) (h : mintSeed F a b = mintSeed G c d) : F = G ∧ a = c ∧ b = d := by
  rw [mintSeed_eq_encode, mintSeed_eq_encode] at h
  have texts : mintText F a b = mintText G c d := Text.encode_inj h
  obtain ⟨conclusion, slots⟩ := Term.text_append_inj (.formula F) (.formula G) hl.conclusion hr.conclusion
    (Text.ended_cons rfl) (Text.ended_cons rfl) texts
  obtain ⟨slot, entries⟩ := Term.text_append_inj a c hl.slot hr.slot (ended_entriesText _) (ended_entriesText _)
    (List.cons.inj slots).2
  have same := entriesText_inj hl.bindings hr.bindings entries
  cases b
  cases d
  cases same
  exact ⟨Term.formula.inj conclusion, slot, rfl⟩

/-- Legible conclusions, slots and bindings are determined by their seed, and by the minted node unless the
digests of two seeds collide. -/
theorem mint_inj {F G : Formula} {a c : Term} {b d : Bindings} (hl : MintLegible kind F a b)
    (hr : MintLegible kind G c d) :
    (mintSeed F a b = mintSeed G c d → F = G ∧ a = c ∧ b = d) ∧
      (Set.InjOn mintLabel {mintSeed F a b, mintSeed G c d} → mint F a b = mint G c d →
        F = G ∧ a = c ∧ b = d) := by
  refine ⟨mintSeed_inj hl hr, ?_⟩
  intro noCollision h
  rw [mint_eq_blank, mint_eq_blank] at h
  have seeds : mintSeed F a b = mintSeed G c d :=
    noCollision (Set.mem_insert _ _) (Set.mem_insert_of_mem _ rfl) (Term.blank.inj h)
  exact mintSeed_inj hl hr seeds

end

/-! ## Numbers in bindings -/

def existential : Formula := [⟨.var "x", .iri "q", .blank "b"⟩]

/-- The bindings of `?x` to `one` and of `?y` to a number. -/
def numbered (lexical datatype : String) : Bindings :=
  .ofList [(.var "x", .iri "one"), (.var "y", .literal ⟨lexical, datatype⟩)]

theorem mint_inj_numbers :
    mint existential (.blank "b") (numbered "5" Vocabulary.xsdInteger) ≠
      mint existential (.blank "b") (numbered "5.0" Vocabulary.xsdDecimal) := by
  let kind (lexical : String) :=
    if '.' ∈ lexical.toList then Vocabulary.xsdDecimal else Vocabulary.xsdInteger
  let five := numbered "5" Vocabulary.xsdInteger
  let point := numbered "5.0" Vocabulary.xsdDecimal
  have hl : MintLegible kind existential (.blank "b") five :=
    ⟨by decide +kernel, by decide +kernel, by decide +kernel⟩
  have hr : MintLegible kind existential (.blank "b") point :=
    ⟨by decide +kernel, by decide +kernel, by decide +kernel⟩
  have labels : mintLabel (mintSeed existential (.blank "b") five) ≠
      mintLabel (mintSeed existential (.blank "b") point) := by decide +kernel
  have noCollision : Set.InjOn mintLabel
      {mintSeed existential (.blank "b") five, mintSeed existential (.blank "b") point} :=
    Set.injOn_pair.2 fun e => absurd e labels
  have other : five ≠ point := by decide +kernel
  intro h
  exact other ((mint_inj hl hr).2 noCollision h).2.2

/-- The integer 5 and the decimal 5 are written alike. -/
theorem mintSeed_inj_false : ¬ ∀ (F G : Formula) (a c : Term) (b d : Bindings), a.isSlot → c.isSlot →
    mintSeed F a b = mintSeed G c d → F = G ∧ a = c ∧ b = d := by
  intro inverse
  have same : mintSeed existential (.blank "b") (numbered "5" Vocabulary.xsdInteger) =
      mintSeed existential (.blank "b") (numbered "5" Vocabulary.xsdDecimal) := by decide +kernel
  have other : numbered "5" Vocabulary.xsdInteger ≠ numbered "5" Vocabulary.xsdDecimal := by decide +kernel
  exact other (inverse _ _ _ _ _ _ rfl rfl same).2.2

end TripleChain
