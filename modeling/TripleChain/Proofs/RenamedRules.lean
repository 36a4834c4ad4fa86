import Mathlib.Data.List.Perm.Basic
import TripleChain.Proofs.Dependency
import TripleChain.Proofs.Renaming
import TripleChain.Stratum.Basic
import TripleChain.Stratum.Walk

/-!
# Dependencies do not depend on names

Renaming changes the order of the triples in a formula and so the course of every search for a pairing,
but not which triples fit which clauses: the two sides of a test for an edge may be renamed apart, each by
a renaming that keeps its slots apart (`conclusionFeeds_rename`). So renaming each rule on its own gives
the same dependency graph, and with it the same strata and walks (`ofRules_renamed`).
-/

namespace TripleChain

open Renaming

variable {ρ σ : Renaming}

/-! ## Pairings of renamed triples -/

theorem Term.blankPairs_rename (a c : Term) : (a.rename ρ).blankPairs (c.rename σ) =
    (a.blankPairs c).map (Prod.map (rename ρ) (rename σ)) := by
  cases a <;> cases c <;> simp [rename, blankPairs]

theorem Triple.blankPairs_rename (t c : Triple) : (t.rename ρ).blankPairs (c.rename σ) =
    (t.blankPairs c).map (Prod.map (Term.rename ρ) (Term.rename σ)) := by
  simp [blankPairs, Term.blankPairs_rename]

theorem Term.mem_slots_of_blankPairs {a c : Term} {e : Term × Term} (h : e ∈ a.blankPairs c) :
    e.1 ∈ a.slots ∧ e.2 ∈ c.slots := by
  cases a <;> cases c <;> simp_all [blankPairs, slots]

theorem Triple.mem_slots_of_blankPairs {t c : Triple} {e : Term × Term} (h : e ∈ t.blankPairs c) :
    e.1 ∈ t.slots ∧ e.2 ∈ c.slots := by
  simp only [blankPairs, List.mem_append] at h
  simp only [mem_slots, terms, List.mem_cons, List.not_mem_nil, or_false, exists_eq_or_imp, exists_eq_left]
  rcases h with (h | h) | h
  · exact (Term.mem_slots_of_blankPairs h).imp .inl .inl
  · exact (Term.mem_slots_of_blankPairs h).imp (.inr ∘ .inl) (.inr ∘ .inl)
  · exact (Term.mem_slots_of_blankPairs h).imp (.inr ∘ .inr) (.inr ∘ .inr)

/-- The pairs with their two sides renamed. -/
def renamePairs (ρ σ : Renaming) (ps : List (Triple × Triple)) : List (Triple × Triple) :=
  ps.map (Prod.map (Triple.rename ρ) (Triple.rename σ))

theorem blankPairsOf_renamePairs (ps : List (Triple × Triple)) : blankPairsOf (renamePairs ρ σ ps) =
    (blankPairsOf ps).map (Prod.map (Term.rename ρ) (Term.rename σ)) := by
  simp only [blankPairsOf, renamePairs, List.flatMap_map, List.map_flatMap, Prod.map_fst, Prod.map_snd,
    Triple.blankPairs_rename]

section
variable {ts ts' cs cs' left rest : List Triple} {ps : List (Triple × Triple)}

theorem IsPairing.mem_triples {known : List (Term × Term)} (h : IsPairing known ts cs ps left rest)
    {p : Triple × Triple} (hp : p ∈ ps) : p.1 ∈ ts ∧ p.2 ∈ cs :=
  ⟨h.triples.mem_iff.2 (List.mem_append_left _ (List.mem_map_of_mem hp)),
    h.clauses.mem_iff.2 (List.mem_append_left _ (List.mem_map_of_mem hp))⟩

/-- A pairing stays one under new names, in whatever order the renamed triples are listed. -/
theorem IsPairing.rename (h : IsPairing [] ts cs ps left rest)
    (fits : ∀ p ∈ ps, (p.1.rename ρ).Fits (p.2.rename σ)) (hρ : ρ.KeepsApart (Triple.allSlots ts))
    (hσ : σ.KeepsApart (Triple.allSlots cs)) (hts : ts'.Perm (ts.map (Triple.rename ρ)))
    (hcs : cs'.Perm (cs.map (Triple.rename σ))) :
    IsPairing [] ts' cs' (renamePairs ρ σ ps) (left.map (Triple.rename ρ))
      (rest.map (Triple.rename σ)) where
  triples := by
    have renamed := hts.trans (h.triples.map (Triple.rename ρ))
    rwa [List.map_append, List.map_map, ← Prod.map_fst', ← List.map_map] at renamed
  clauses := by
    have renamed := hcs.trans (h.clauses.map (Triple.rename σ))
    rwa [List.map_append, List.map_map, ← Prod.map_snd', ← List.map_map] at renamed
  fits := by
    intro q hq
    obtain ⟨p, hp, rfl⟩ := List.mem_map.1 hq
    exact fits p hp
  oneToOne := by
    have slots : ∀ e ∈ blankPairsOf ps, e.1 ∈ Triple.allSlots ts ∧ e.2 ∈ Triple.allSlots cs := by
      intro e he
      obtain ⟨p, hp, he⟩ := List.mem_flatMap.1 he
      obtain ⟨ht, hc⟩ := h.mem_triples hp
      obtain ⟨h₁, h₂⟩ := Triple.mem_slots_of_blankPairs he
      exact ⟨Triple.mem_allSlots.2 ⟨_, ht, h₁⟩, Triple.mem_allSlots.2 ⟨_, hc, h₂⟩⟩
    rw [List.nil_append, blankPairsOf_renamePairs]
    intro d' hd' e' he'
    obtain ⟨d, hd, rfl⟩ := List.mem_map.1 hd'
    obtain ⟨e, he, rfl⟩ := List.mem_map.1 he'
    -- The new names are equal where the old ones are, on either side.
    have one : d.1 = e.1 ↔ d.2 = e.2 := h.oneToOne d hd e he
    constructor
    · intro same
      exact congrArg (Term.rename σ) (one.1 (hρ _ (slots d hd).1 _ (slots e he).1 same))
    · intro same
      exact congrArg (Term.rename ρ) (one.2 (hσ _ (slots d hd).2 _ (slots e he).2 same))

end

/-- The terms still fit each other under new names. -/
def Term.FitsRenamed (ρ σ : Renaming) (a c : Term) : Prop :=
  a.Canonical → c.Canonical → ρ.KeepsApart a.slots → σ.KeepsApart c.slots → (a.rename ρ).Fits (c.rename σ)

theorem Triple.fits_rename {t c : Triple} (hs : t.subject.FitsRenamed ρ σ c.subject)
    (hp : t.predicate.FitsRenamed ρ σ c.predicate) (ho : t.object.FitsRenamed ρ σ c.object)
    (ht : t.Canonical) (hc : c.Canonical) (hρ : ρ.KeepsApart t.slots) (hσ : σ.KeepsApart c.slots) :
    (t.rename ρ).Fits (c.rename σ) := by
  have left : ∀ a ∈ t.terms, ρ.KeepsApart a.slots :=
    fun a ha => hρ.subset fun k hk => mem_slots.2 ⟨a, ha, hk⟩
  have right : ∀ a ∈ c.terms, σ.KeepsApart a.slots :=
    fun a ha => hσ.subset fun k hk => mem_slots.2 ⟨a, ha, hk⟩
  obtain ⟨s, p, o⟩ := t
  obtain ⟨s', p', o'⟩ := c
  simp only [terms, List.forall_mem_cons] at left right
  exact ⟨hs ht.1 hc.1 left.1 right.1, hp ht.2.1 hc.2.1 left.2.1 right.2.1,
    ho ht.2.2 hc.2.2 left.2.2.1 right.2.2.1⟩

theorem Term.Fits.rename {a c : Term} (h : a.Fits c) : a.FitsRenamed ρ σ c := by
  induction h with
  | slot h => exact fun _ _ _ _ => .slot (by simpa using h)
  | literal l =>
    intro _ _ _ _
    rw [Term.rename, Term.rename]
    exact .literal l
  | iri i =>
    intro _ _ _ _
    rw [Term.rename, Term.rename]
    exact .iri i
  | @formula ts cs ps left triples clauses subjects predicates objects oneToOne ends ihs ihp iho =>
    intro ha hc hρ hσ
    have pairing : IsPairing [] ts cs ps left [] :=
      ⟨triples, by rwa [List.append_nil], fun p hp => ⟨subjects p hp, predicates p hp, objects p hp⟩, oneToOne⟩
    have fits : ∀ p ∈ ps, (p.1.rename ρ).Fits (p.2.rename σ) := by
      intro p hp
      obtain ⟨ht, hd⟩ := pairing.mem_triples hp
      refine Triple.fits_rename (ihs p hp) (ihp p hp) (iho p hp) (Triple.allCanonical_iff.1 ha.2 _ ht)
        (Triple.allCanonical_iff.1 hc.2 _ hd) (hρ.subset fun k hk => ?_) (hσ.subset fun k hk => ?_)
      · exact Triple.mem_allSlots.2 ⟨p.1, ht, hk⟩
      · exact Triple.mem_allSlots.2 ⟨p.2, hd, hk⟩
    rw [Term.rename_formula, Term.rename_formula, Term.fits_formula]
    refine ⟨_, _, pairing.rename fits hρ hσ (Formula.rename_perm ha hρ) (Formula.rename_perm hc hσ), ?_⟩
    rw [blankPairsOf_renamePairs, List.map_eq_nil_iff, List.map_eq_nil_iff]
    exact ends

/-! ## Clauses that are read -/

section
variable {F : Formula}

theorem Term.builtin?_rename (a : Term) : (a.rename ρ).builtin? = a.builtin? := by
  rw [builtin?, iri?_rename, builtin?]

theorem Triple.isComputed_rename (c : Triple) : (c.rename ρ).isComputed = c.isComputed := by
  rw [isComputed, Term.isBuiltin, predicate_rename, Term.builtin?_rename, isComputed, Term.isBuiltin]

theorem Triple.isNegation_rename (c : Triple) : (c.rename ρ).isNegation = c.isNegation := by
  simp [isNegation, Term.rename_eq_iri]

theorem Formula.any_rename (hF : (Term.formula F).Canonical) (hρ : ρ.KeepsApart (Term.formula F).slots)
    (p : Triple → Bool) : (ofList (F.map (Triple.rename ρ))).any p = F.any (p ∘ Triple.rename ρ) := by
  rw [(rename_perm hF hρ).any_eq, List.any_map]

/-- Where a slot of a clause occurs among the others does not change with the names. -/
theorem Triple.mentioned_rename (hF : (Term.formula F).Canonical) (hρ : ρ.KeepsApart (Term.formula F).slots)
    {c d : Triple} (hc : c ∈ F) (hd : d ∈ F) {a : Term} (ha : a ∈ c.slots) :
    d.rename ρ ≠ c.rename ρ ∧ a.rename ρ ∈ (d.rename ρ).slots ↔ d ≠ c ∧ a ∈ d.slots := by
  refine and_congr (not_congr ⟨?_, congrArg _⟩) ?_
  · exact rename_injOn (allCanonical_iff.1 hF.2) hρ d hd c hc
  · rw [mem_slots_rename]
    constructor
    · rintro ⟨k, hk, e⟩
      rwa [← hρ k (mem_allSlots.2 ⟨d, hd, hk⟩) a (mem_allSlots.2 ⟨c, hc, ha⟩) e]
    · exact fun h => ⟨a, h, rfl⟩

theorem Triple.includesFacts_rename (hF : (Term.formula F).Canonical)
    (hρ : ρ.KeepsApart (Term.formula F).slots) {c : Triple} (hc : c ∈ F) :
    (c.rename ρ).includesFacts (Formula.ofList (F.map (rename ρ))) = c.includesFacts F := by
  by_cases hslot : c.subject.isSlot = true
  · have hmem : c.subject ∈ c.slots := mem_slots.2 ⟨_, by simp [terms], Term.mem_slots_self hslot⟩
    have elsewhere : F.any ((fun d => d ≠ c.rename ρ && d.slots.contains (c.subject.rename ρ)) ∘ rename ρ) =
        F.any fun d => d ≠ c && d.slots.contains c.subject := by
      rw [Bool.eq_iff_iff, List.any_eq_true, List.any_eq_true]
      refine exists_congr fun d => and_congr_right fun hd => ?_
      simpa using mentioned_rename hF hρ hc hd hmem
    rw [includesFacts, Formula.any_rename hF hρ, subject_rename, elsewhere, predicate_rename,
      Term.isSlot_rename, decide_eq_decide.2 Term.rename_eq_iri, includesFacts]
  · simp [includesFacts, hslot]

/-- The clauses that a renamed condition is read for are those of the condition, renamed. -/
theorem Formula.readClauses_rename (hF : (Term.formula F).Canonical)
    (hρ : ρ.KeepsApart (Term.formula F).slots) :
    (readClauses (ofList (F.map (Triple.rename ρ)))).Perm (F.readClauses.map (Triple.rename ρ)) := by
  unfold readClauses
  refine ((rename_perm hF hρ).flatMap_right _).trans ?_
  rw [List.flatMap_map, List.map_flatMap]
  refine List.Perm.flatMap_left _ fun c hc => ?_
  rw [Triple.object_rename, Triple.isNegation_rename, Triple.includesFacts_rename hF hρ hc,
    Triple.isComputed_rename]
  cases ho : c.object with
  | formula inner =>
    have hinner : (Term.formula inner).Canonical := by
      have hc' := Triple.allCanonical_iff.1 hF.2 c hc
      obtain ⟨s, p, o⟩ := c
      exact ho ▸ hc'.2.2
    have hρ' : ρ.KeepsApart (Term.formula inner).slots := by
      refine hρ.subset fun k hk => Triple.mem_allSlots.2 ⟨c, hc, Triple.mem_slots.2 ⟨c.object, ?_, ho ▸ hk⟩⟩
      simp [Triple.terms]
    rw [Term.rename_formula]
    simp only [Term.formula?]
    split
    · refine ((rename_perm hinner hρ').filter _).trans ?_
      rw [List.filter_map]
      exact .of_eq (congrArg _ (List.filter_congr fun d _ => by simp [Triple.isComputed_rename]))
    · split <;> simp
  | _ =>
    rw [Term.rename]
    simp only [Term.formula?]
    split <;> simp

theorem Formula.mem_readClauses_cases {d : Triple} (h : d ∈ F.readClauses) :
    d ∈ F ∨ ∃ c ∈ F, ∃ inner, c.object = .formula inner ∧ d ∈ inner := by
  obtain ⟨c, hc, hd⟩ := List.mem_flatMap.1 h
  have self : ∀ {p : Bool}, d ∈ (if p then [] else [c]) → d ∈ F := by
    intro p hd
    split at hd
    · exact absurd hd List.not_mem_nil
    · exact List.mem_singleton.1 hd ▸ hc
  split at hd
  · next inner ho =>
    split at hd
    · exact .inr ⟨c, hc, inner, Term.formula?_eq_some.1 ho, (List.mem_filter.1 hd).1⟩
    · exact .inl (self hd)
  · exact .inl (self hd)

theorem Triple.canonical_of_mem_readClauses (hF : (Term.formula F).Canonical) {d : Triple}
    (h : d ∈ F.readClauses) : d.Canonical := by
  rcases Formula.mem_readClauses_cases h with hd | ⟨c, hc, inner, ho, hd⟩
  · exact allCanonical_iff.1 hF.2 d hd
  · have hc' := allCanonical_iff.1 hF.2 c hc
    obtain ⟨s, p, o⟩ := c
    obtain rfl : o = .formula inner := ho
    exact allCanonical_iff.1 hc'.2.2.2 d hd

theorem Triple.mem_slots_of_readClauses {k : Term} (h : k ∈ allSlots F.readClauses) :
    k ∈ (Term.formula F).slots := by
  obtain ⟨d, hd, hk⟩ := mem_allSlots.1 h
  rcases Formula.mem_readClauses_cases hd with hd | ⟨c, hc, inner, ho, hd⟩
  · exact mem_allSlots.2 ⟨d, hd, hk⟩
  · refine mem_allSlots.2 ⟨c, hc, mem_slots.2 ⟨c.object, by simp [terms], ?_⟩⟩
    rw [ho]
    exact mem_allSlots.2 ⟨d, hd, hk⟩

end

/-! ## Edges -/

section
variable {a c : Term} (ha : a.Canonical) (hc : c.Canonical) (hρ : ρ.KeepsApart a.slots)
  (hσ : σ.KeepsApart c.slots)
include ha hc hρ hσ

theorem conclusionFeeds_renamed (h : conclusionFeeds a c = true) :
    conclusionFeeds (a.rename ρ) (c.rename σ) = true := by
  cases c with
  | formula H =>
    have read := Formula.readClauses_rename hc hσ
    rw [Term.rename_formula]
    cases a with
    | formula B =>
      obtain ⟨hB, hH⟩ := ne_nil_of_conclusionFeeds h
      obtain ⟨ps, left, rest, pairing, ends⟩ := (conclusionFeeds_iff hB hH).1 h
      have fits : ∀ p ∈ ps, (p.1.rename ρ).Fits (p.2.rename σ) := by
        intro p hp
        obtain ⟨ht, hd⟩ := pairing.mem_triples hp
        have hpair := pairing.fits p hp
        refine Triple.fits_rename hpair.subject.rename hpair.predicate.rename hpair.object.rename
          (Triple.allCanonical_iff.1 ha.2 _ ht) (Triple.canonical_of_mem_readClauses hc hd)
          (hρ.subset fun k hk => Triple.mem_allSlots.2 ⟨_, ht, hk⟩) (hσ.subset fun k hk => ?_)
        exact Triple.mem_slots_of_readClauses (Triple.mem_allSlots.2 ⟨_, hd, hk⟩)
      have renamed := pairing.rename fits hρ (hσ.subset fun k => Triple.mem_slots_of_readClauses)
        (Formula.rename_perm ha hρ) read
      rw [Term.rename_formula]
      refine (conclusionFeeds_iff (fun e => hB ?_) fun e => hH ?_).2 ⟨_, _, _, renamed, ?_⟩
      · have empty := (Formula.rename_perm ha hρ).symm
        rw [e] at empty
        exact List.map_eq_nil_iff.1 empty.eq_nil
      · rw [e] at read
        exact List.map_eq_nil_iff.1 read.nil_eq.symm
      · rw [List.map_eq_nil_iff, List.map_eq_nil_iff, blankPairsOf_renamePairs, List.map_eq_nil_iff]
        exact ends
    | var x =>
      rw [Term.rename]
      simpa [conclusionFeeds, read.isEmpty_eq] using h
    | _ => simp [conclusionFeeds] at h
  | _ => simp [conclusionFeeds] at h

/-- The test for an edge gives the same answer for the two sides renamed, each on its own. -/
theorem conclusionFeeds_rename : conclusionFeeds (a.rename ρ) (c.rename σ) = conclusionFeeds a c := by
  rw [Bool.eq_iff_iff]
  refine ⟨fun h => ?_, conclusionFeeds_renamed ha hc hρ hσ⟩
  obtain ⟨ρ', hback, hρ'⟩ := Term.exists_rename_rename ha hρ
  obtain ⟨σ', hback', hσ'⟩ := Term.exists_rename_rename hc hσ
  have h' := conclusionFeeds_renamed a.canonical_rename c.canonical_rename hρ' hσ' h
  rwa [hback, hback'] at h'

end

/-! ## Renamed rules -/

namespace Rule

def rename (ρ : Renaming) (r : Rule) : Rule :=
  { r with condition := r.condition.rename ρ, conclusion := r.conclusion.rename ρ }

/-- The formulas of the rule, quoted ones too, are sets. -/
def Canonical (r : Rule) : Prop := r.condition.Canonical ∧ r.conclusion.Canonical

/-- The rules differ in the names of slots alone. -/
def IsRenaming (r s : Rule) : Prop :=
  ∃ ρ : Renaming, ρ.KeepsApart (r.condition.slots ++ r.conclusion.slots) ∧ s = r.rename ρ

theorem IsRenaming.conclusionFeeds_eq {producer consumer producer' consumer' : Rule}
    (h : producer.IsRenaming producer') (h' : consumer.IsRenaming consumer') (hp : producer.Canonical)
    (hc : consumer.Canonical) : conclusionFeeds producer'.conclusion consumer'.condition =
      conclusionFeeds producer.conclusion consumer.condition := by
  obtain ⟨ρ, hρ, rfl⟩ := h
  obtain ⟨σ, hσ, rfl⟩ := h'
  exact conclusionFeeds_rename hp.2 hc.1 (hρ.subset fun k => List.mem_append_right _)
    (hσ.subset fun k => List.mem_append_left _)

theorem IsRenaming.isNegative_eq {r s : Rule} (h : r.IsRenaming s) (hr : r.Canonical) :
    s.isNegative = r.isNegative := by
  obtain ⟨ρ, hρ, rfl⟩ := h
  unfold isNegative rename
  cases hF : r.condition with
  | formula F =>
    have hρF : ρ.KeepsApart (Term.formula F).slots :=
      hρ.subset fun k hk => List.mem_append_left _ (hF ▸ hk)
    rw [Term.rename_formula]
    simp only [Term.formula?, Option.any_some]
    rw [Formula.any_rename (hF ▸ hr.1) hρF]
    exact congrArg _ (funext fun c => c.isNegation_rename)
  | _ => simp [Term.rename, Term.formula?]

end Rule

section
variable {rules renamed : List Rule} (canonical : ∀ r ∈ rules, r.Canonical)
  (h : List.Forall₂ Rule.IsRenaming rules renamed)
include canonical h

theorem getElem?_renamed (i : Nat) : (rules[i]? = none ∧ renamed[i]? = none) ∨
    ∃ r s, rules[i]? = some r ∧ renamed[i]? = some s ∧ r.IsRenaming s ∧ r.Canonical := by
  by_cases hi : i < rules.length
  · have hi' : i < renamed.length := h.length_eq ▸ hi
    exact .inr ⟨_, _, List.getElem?_eq_getElem hi, List.getElem?_eq_getElem hi', h.get hi hi',
      canonical _ (List.getElem_mem hi)⟩
  · have hi' : ¬ i < renamed.length := h.length_eq ▸ hi
    exact .inl ⟨List.getElem?_eq_none (Nat.le_of_not_lt hi), List.getElem?_eq_none (Nat.le_of_not_lt hi')⟩

theorem ofRules_eq_of_renamed : DependencyGraph.ofRules renamed = DependencyGraph.ofRules rules := by
  have edges : (DependencyGraph.ofRules renamed).edges = (DependencyGraph.ofRules rules).edges := by
    refine List.ext_getElem? fun j => ?_
    simp only [DependencyGraph.ofRules, List.getElem?_map, ← h.length_eq]
    rcases getElem?_renamed canonical h j with ⟨hj, hj'⟩ | ⟨consumer, _, hj, hj', hc, canon⟩
    · rw [hj, hj', Option.map_none, Option.map_none]
    rw [hj, hj', Option.map_some, Option.map_some]
    refine congrArg some (List.filter_congr fun i _ => ?_)
    rcases getElem?_renamed canonical h i with ⟨hi, hi'⟩ | ⟨producer, _, hi, hi', hp, canon'⟩
    · rw [hi, hi', Option.any_none, Option.any_none]
    · rw [hi, hi', Option.any_some, Option.any_some, hp.conclusionFeeds_eq hc canon' canon]
  generalize DependencyGraph.ofRules renamed = g' at edges
  generalize DependencyGraph.ofRules rules = g at edges
  cases g
  cases g'
  cases edges
  rfl

theorem stratumKind_renamed (g : DependencyGraph) (members : List Nat) :
    stratumKind renamed g members = stratumKind rules g members := by
  have negative : ∀ i : Nat, renamed[i]?.any Rule.isNegative = rules[i]?.any Rule.isNegative := by
    intro i
    rcases getElem?_renamed canonical h i with ⟨hi, hi'⟩ | ⟨r, _, hi, hi', hr, canon⟩
    · rw [hi, hi', Option.any_none]
    · rw [hi, hi', Option.any_some, Option.any_some, hr.isNegative_eq canon]
  unfold stratumKind
  simp only [negative]

end

/-- Where each rule is renamed on its own, its variables and its blank nodes injectively, every rule
depends on the same rules and triggers the same ones. So the strata are the same, of the same kinds, and so
are the walks through them. -/
theorem ofRules_renamed (rules renamed : List Rule) (canonical : ∀ r ∈ rules, r.Canonical)
    (h : List.Forall₂ Rule.IsRenaming rules renamed) :
    let g := DependencyGraph.ofRules rules
    let g' := DependencyGraph.ofRules renamed
    (∀ i, g'.dependsOn i = g.dependsOn i ∧ g'.triggers i = g.triggers i) ∧
      stratify renamed g' = stratify rules g ∧ ∀ members, g'.walk members = g.walk members := by
  intro g g'
  have same : g' = g := ofRules_eq_of_renamed canonical h
  rw [same]
  refine ⟨fun i => ⟨rfl, rfl⟩, ?_, fun members => rfl⟩
  exact List.map_congr_left fun members _ => by rw [stratumKind_renamed canonical h]

/-- `a` and `b` change places, as variables and as blank nodes. -/
def Renaming.swap : Renaming :=
  let other := fun x => if x = "a" then "b" else if x = "b" then "a" else x
  ⟨other, other⟩

/-- Two edges whose order changes when `a` and `b` change places. -/
def crossedEdges : List Triple :=
  [⟨.var "a", .iri "next", .blank "b"⟩, ⟨.blank "a", .iri "next", .var "b"⟩]

/-- What crosses is said to, and asserted. -/
def quotingRule : Rule :=
  .ofLists crossedEdges (⟨.var "a", .iri "says", .quoting crossedEdges⟩ :: crossedEdges)

/-- One copy of a rule gets other variables, the other has its names swapped. -/
theorem ofRules_renamed_copies :
    let rules := [quotingRule, quotingRule]
    let renamed := [quotingRule.rename ⟨("v" ++ ·), id⟩, quotingRule.rename .swap]
    renamed ≠ rules ∧
      (DependencyGraph.ofRules renamed).triggers 1 = (DependencyGraph.ofRules rules).triggers 1 ∧
      stratify renamed (.ofRules renamed) = stratify rules (.ofRules rules) := by
  intro rules renamed
  have edges : ∀ t ∈ crossedEdges, t.Canonical := by simp [crossedEdges, Triple.Canonical, Term.Canonical]
  have canonical : quotingRule.Canonical := by
    refine ⟨Term.canonical_quoting edges, Term.canonical_quoting ?_⟩
    exact List.forall_mem_cons.2 ⟨⟨trivial, trivial, Term.canonical_quoting edges⟩, edges⟩
  have first : quotingRule.IsRenaming (quotingRule.rename ⟨("v" ++ ·), id⟩) :=
    ⟨_, by unfold Renaming.KeepsApart; decide +kernel, rfl⟩
  have second : quotingRule.IsRenaming (quotingRule.rename .swap) :=
    ⟨_, by unfold Renaming.KeepsApart; decide +kernel, rfl⟩
  obtain ⟨ends, strata, -⟩ := ofRules_renamed rules renamed (by simp [rules, canonical])
    (.cons first (.cons second .nil))
  exact ⟨by decide +kernel, (ends 1).2, strata⟩

end TripleChain
