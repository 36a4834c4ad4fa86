import TripleChain.Proofs.Dependency
import TripleChain.Proofs.Steps

/-!
# Where evaluation ends

A rule that feeds itself through one clause of its condition alone, and a cycle all of whose edges are
there, end their evaluation at a fixpoint unless a bound cuts it off. The early end of the rounds does
no harm to such a rule: a triple that is new to the rounds and yet a fact was among their instances
from the start.
-/

namespace TripleChain

/-! ## Clauses that are fed -/

theorem Triple.fits_iff_feeds {t c : Triple} (noBlank : ∀ a ∈ c.terms, a.isBlank = false) :
    t.Fits c ↔ (t.feeds c ∅).1 = true := by
  have decided := t.decides c ∅ fun p hp => absurd hp List.not_mem_nil
  rw [blankPairs_of_not noBlank] at decided
  rw [decided.iff]
  exact (and_iff_left fun p hp => absurd hp List.not_mem_nil).symm

/-- At most one of the clauses that the condition is read for could be matched by a triple of the
conclusion. -/
def Formula.FedOnce (condition conclusion : Formula) : Prop :=
  ∀ t ∈ conclusion, ∀ u ∈ conclusion, ∀ c ∈ condition.readClauses, ∀ d ∈ condition.readClauses,
    t.Fits c → u.Fits d → c = d

theorem Formula.fedOnce_of_feeds {F G : Formula}
    (noBlank : ∀ c ∈ F.readClauses, ∀ a ∈ c.terms, a.isBlank = false)
    (h : ∀ t ∈ G, ∀ u ∈ G, ∀ c ∈ F.readClauses, ∀ d ∈ F.readClauses, (t.feeds c ∅).1 = true →
      (u.feeds d ∅).1 = true → c = d) : F.FedOnce G := by
  intro t ht u hu c hc d hd hfits hfits'
  exact h t ht u hu c hc d hd ((Triple.fits_iff_feeds (noBlank c hc)).1 hfits)
    ((Triple.fits_iff_feeds (noBlank d hd)).1 hfits')

/-- Where a triple of the one conclusion could match a clause that the other condition is read for,
there is an edge. -/
def Rule.FeedsWhatFits (producer consumer : Rule) : Prop :=
  ∀ F G : Formula, consumer.condition = .formula F → producer.conclusion = .formula G →
    ∀ t ∈ G, ∀ c ∈ F.readClauses, t.Fits c →
      conclusionFeeds producer.conclusion consumer.condition = true

/-- Edges are not missed if the conclusion is one triple, or the condition one clause, and no clause
has a blank node. -/
theorem Rule.feedsWhatFits_of_single {producer consumer : Rule} {F G : Formula}
    (hF : consumer.condition = .formula F) (hG : producer.conclusion = .formula G)
    (noBlank : ∀ c ∈ F.readClauses, ∀ a ∈ c.terms, a.isBlank = false)
    (one : G.length = 1 ∨ F.readClauses.length = 1) : producer.FeedsWhatFits consumer := by
  intro F' G' hF' hG' t ht c hc fits
  obtain rfl : F = F' := Term.formula.inj (hF.symm.trans hF')
  obtain rfl : G = G' := Term.formula.inj (hG.symm.trans hG')
  have noPairs : t.blankPairs c = [] := Triple.blankPairs_of_not (noBlank c hc)
  have oneToOne : OneToOne (t.blankPairs c) := by
    rw [noPairs]
    exact fun p hp => absurd hp List.not_mem_nil
  rw [hF, hG, conclusionFeeds_iff (List.ne_nil_of_mem ht) (List.ne_nil_of_mem hc)]
  refine ⟨_, _, _, isPairing_single ht hc fits oneToOne, ?_⟩
  rcases one with one | one
  · obtain ⟨u, rfl⟩ := List.length_eq_one_iff.1 one
    left
    rw [List.mem_singleton.1 ht, List.erase_cons_head]
  · obtain ⟨d, hd⟩ := List.length_eq_one_iff.1 one
    right
    rw [hd] at hc
    rw [hd, List.mem_singleton.1 hc, List.erase_cons_head]
    refine ⟨rfl, ?_⟩
    rw [← List.mem_singleton.1 hc, blankPairsOf_cons, noPairs, blankPairsOf_nil, List.append_nil]

theorem Rule.Fires.exists_fits {r : Rule} {G : Formula} (hG : r.conclusion = .formula G) {c t : Triple}
    {s m : Bindings} (ht : r.Fires s t) (flat : c.IsFlat) (h : c.Matches t m) : ∃ u ∈ G, u.Fits c := by
  obtain ⟨u, hu, rfl⟩ := (fires_iff hG).1 ht
  exact ⟨u, hu, Triple.fits_of_matches flat h⟩

/-- A pairing that pairs a clause pairs no other one, and no clause that it leaves over is fed. -/
theorem IsPairing.rest_of_fedOnce {F G : Formula} {t c : Triple} {ps : List (Triple × Triple)}
    {left rest : List Triple} (pairing : IsPairing [] G F.readClauses ((t, c) :: ps) left rest)
    (nodup : F.readClauses.Nodup) (once : F.FedOnce G) :
    F.readClauses.Perm (c :: rest) ∧ ∀ u ∈ G, ∀ d ∈ rest, ¬ u.Fits d := by
  have ht : t ∈ G := pairing.triples.mem_iff.2 (by simp)
  have hc : c ∈ F.readClauses := pairing.clauses.mem_iff.2 (by simp)
  have only : ∀ u ∈ G, ∀ d ∈ F.readClauses, u.Fits d → d = c := fun u hu d hd hfits =>
    (once t ht u hu c hc d hd (pairing.fits _ (List.mem_cons_self ..)) hfits).symm
  have clauses : F.readClauses.Perm (c :: (ps.map Prod.snd ++ rest)) := pairing.clauses
  have unpaired : c ∉ ps.map Prod.snd ++ rest := (List.nodup_cons.1 (clauses.nodup_iff.1 nodup)).1
  have hps : ps = [] := by
    rw [List.eq_nil_iff_forall_not_mem]
    rintro ⟨u, d⟩ hp
    have hd : d ∈ ps.map Prod.snd ++ rest := List.mem_append_left _ (List.mem_map.2 ⟨_, hp, rfl⟩)
    have hu : u ∈ G := pairing.triples.mem_iff.2 (by
      simp only [List.map_cons, List.mem_append, List.mem_cons, List.mem_map]
      exact .inl (.inr ⟨_, hp, rfl⟩))
    have e := only u hu d (clauses.mem_iff.2 (List.mem_cons_of_mem _ hd))
      (pairing.fits _ (List.mem_cons_of_mem _ hp))
    exact unpaired (e ▸ hd)
  subst hps
  refine ⟨clauses, fun u hu d hd hfits => unpaired ?_⟩
  exact only u hu d (clauses.mem_iff.2 (List.mem_cons_of_mem _ hd)) hfits ▸ hd

/-- Where the conclusion feeds one clause, the rest of the condition is this clause. -/
theorem Guard.rest_of_fedOnce {r : Rule} {F G : Formula} (hF : r.condition = .formula F)
    (hG : r.conclusion = .formula G) (free : ∀ c ∈ F, c.ScopeFree) (nodup : F.Nodup)
    (once : F.FedOnce G) (feeds : conclusionFeeds r.conclusion r.condition = true) {g : Guard}
    (h : Guard.split r r = .ok g) : (∀ c ∈ g.rest, ∀ d ∈ g.rest, c = d) ∧
      ∀ t ∈ G, ∀ c ∈ g.guard, ¬ t.Fits c := by
  have hread : F.readClauses.Nodup := by
    rw [Formula.readClauses_eq_filter free]
    exact nodup.filter _
  rw [hF, hG] at feeds
  obtain ⟨ps, left, rest, pairing, hguard⟩ :=
    Pairing.mem_residuals.1 (Guard.mem_residuals_of_split hG hF h)
  cases ps with
  | nil =>
    have some := ne_nil_of_conclusionFeeds feeds
    rcases hguard with ⟨rfl, -⟩ | ⟨rfl, -⟩
    · exact absurd pairing.triples.eq_nil some.1
    · exact absurd pairing.clauses.eq_nil some.2
  | cons p ps =>
    obtain ⟨perm, unfed⟩ := pairing.rest_of_fedOnce hread once
    have hmem : ∀ d, d ∈ g.guard ↔ d ∈ rest := by
      intro d
      rcases hguard with ⟨-, e⟩ | ⟨rfl, -, e⟩
      · rw [e, Formula.mem_ofList]
      · rw [e]
    have hone : ∀ d ∈ g.rest, d = p.2 := by
      intro d hd
      rw [((Guard.split_eq_ok hG hF).1 h).2, Formula.mem_ofList, List.mem_filter, decide_eq_true_eq,
        hmem, perm.mem_iff, List.mem_cons] at hd
      exact hd.1.resolve_right hd.2
    exact ⟨fun d hd e he => (hone d hd).trans (hone e he).symm,
      fun u hu d hd => unfed u hu d ((hmem d).1 hd)⟩

/-! ## Passes over more triples -/

namespace Rule

/-- All that a pass of the rule derives from the facts is among them. -/
def ClosedOn (r : Rule) (config : Config) (g : Graph) : Prop :=
  ∀ E, r.derive config (.graph g) = .ok E → ∀ t ∈ E, t ∈ g.toList

/-- The facts together with `D` are closed under the rule. -/
def SaturatedBy (r : Rule) (config : Config) (facts : Graph) (D : OrderedSet Triple) : Prop :=
  ∀ g : Graph, (∀ t, t ∈ g.toList ↔ t ∈ facts.toList ∨ t ∈ D) → r.ClosedOn config g

section
variable {r : Rule} {F G : Formula} {config : Config} {store store' : Graph}

theorem IsPlain.closes (h : r.IsPlain F G) {g : Graph} (closed : r.ClosedOn config g) :
    r.Closes config {t | t ∈ g.toList} := by
  obtain ⟨E, hE, -⟩ := derive_eq_ok h config (.graph g)
  exact h.opensNoScope.closes ⟨E, hE, closed E hE⟩

/-- Triples that no stored clause of the condition matches add nothing. -/
theorem IsPlain.derive_of_unread (h : r.IsPlain F G)
    (new : ∀ t ∈ store'.toList, t ∈ store.toList ∨
      ∀ c ∈ F, c.isComputed = false → ∀ s, ¬ c.Matches t s)
    {D D' : OrderedSet Triple} (hD : r.derive config (.graph store) = .ok D)
    (hD' : r.derive config (.graph store') = .ok D') {t : Triple} (ht : t ∈ D') : t ∈ D := by
  obtain ⟨s, hs, c, hc, e⟩ := (h.opensNoScope.mem_derive hD').1 ht
  refine (h.opensNoScope.mem_derive hD).2 ⟨s, ?_, c, hc, e⟩
  refine Triple.mem_solutions_of_matches hs fun d hd stored => ?_
  obtain ⟨u, hu, hmatch⟩ := Triple.matches_of_mem_solutions hs hd stored
  refine ⟨u, (new u hu).resolve_right fun unread => ?_, hmatch⟩
  exact unread d (Config.mem_order.1 hd) stored s hmatch

/-- What a rule gives does not concern a rule that it has no edge to. -/
theorem IsPlain.unread_of_fires {producer : Rule} {G' : Formula} (h : r.IsPlain F G)
    (hG : producer.conclusion = .formula G') (edges : producer.FeedsWhatFits r)
    (none : conclusionFeeds producer.conclusion r.condition = false) {s : Bindings} {t : Triple}
    (ht : producer.Fires s t) : ∀ c ∈ F, c.isComputed = false → ∀ m, ¬ c.Matches t m := by
  intro c hc stored m hmatch
  obtain ⟨u, hu, fits⟩ := ht.exists_fits hG (h.flat c hc) hmatch
  have hread := (Formula.mem_readClauses h.scopeFree).2 ⟨hc, stored⟩
  rw [edges F G' h.condition hG u hu c hread fits] at none
  cases none

theorem IsPlain.fires_of_derive (h : r.IsPlain F G) {D : OrderedSet Triple}
    (hD : r.derive config (.graph store) = .ok D) {t : Triple} (ht : t ∈ D) : ∃ s, r.Fires s t := by
  obtain ⟨s, -, c, hc, rfl⟩ := (h.opensNoScope.mem_derive hD).1 ht
  exact ⟨s, (fires_iff h.conclusion).2 ⟨c, hc, rfl⟩⟩

theorem IsPlain.derive_saturated (h : r.IsPlain F G) (edges : r.FeedsWhatFits r)
    (none : conclusionFeeds r.conclusion r.condition = false) {facts : Graph} {D : OrderedSet Triple}
    (hD : r.derive config (.graph facts) = .ok D) : r.SaturatedBy config facts D := by
  intro g hg E hE t ht
  refine (hg t).2 (.inr (h.derive_of_unread (fun u hu => ?_) hD hE ht))
  refine ((hg u).1 hu).imp id fun hu => ?_
  obtain ⟨s, hs⟩ := h.fires_of_derive hD hu
  exact h.unread_of_fires h.conclusion edges none hs

/-! ## The end of the rounds -/

/-- A condition of which one clause is fed: what its rule derives from facts and from its own triples
it derives in a round on the instances, if these hold the latter. -/
theorem IsPlain.derive_of_round (h : r.IsPlain F G) {split : Guard} (parts : split.Parts F)
    (single : ∀ c ∈ split.rest, ∀ d ∈ split.rest, c = d)
    (unfed : ∀ t ∈ G, ∀ c ∈ split.guard, ¬ t.Fits c) {facts guarding resting : Graph}
    (hguard : Guard.instances config (.graph facts) split.guard = .ok guarding)
    (hrest : Guard.instances config (.graph facts) split.rest = .ok resting)
    (start : ∀ t, t ∈ guarding.toList ∨ t ∈ resting.toList → t ∈ store.toList)
    (known : ∀ t ∈ store'.toList, t ∈ facts.toList ∨ t ∈ store.toList ∧ ∃ s, r.Fires s t)
    {D D' : OrderedSet Triple} (hD : r.derive config (.graph store) = .ok D)
    (hD' : r.derive config (.graph store') = .ok D') {t : Triple} (ht : t ∈ D') : t ∈ D := by
  obtain ⟨s, hs, c, hc, e⟩ := (h.opensNoScope.mem_derive hD').1 ht
  refine (h.opensNoScope.mem_derive hD).2 ⟨s, ?_, c, hc, e⟩
  have matched : ∀ d ∈ F, d.isComputed = false → ∃ u ∈ store'.toList, d.Matches u s :=
    fun d hd => Triple.matches_of_mem_solutions hs (Config.mem_order.2 hd)
  have guarded : ∀ d ∈ split.guard, ∃ u ∈ facts.toList, d.Matches u s := by
    intro d hd
    obtain ⟨u, hu, hmatch⟩ := matched d (parts.guard d hd).1 (parts.guard d hd).2
    refine ⟨u, (known u hu).resolve_right fun own => ?_, hmatch⟩
    obtain ⟨-, m, hm⟩ := own
    obtain ⟨v, hv, fits⟩ := hm.exists_fits h.conclusion (h.flat d (parts.guard d hd).1) hmatch
    exact unfed v hv d hd fits
  refine Triple.mem_solutions_of_matches hs fun d hd stored => ?_
  have hd' := Config.mem_order.1 hd
  obtain ⟨u, hu, hmatch⟩ := matched d hd' stored
  have hsub := Triple.matches_substitute d u hmatch
  rcases parts.all d hd' stored with hpart | hpart
  · have hmem := Guard.substitute_mem_instances (fun e he => (parts.guard e he).2) hguard guarded hpart
    exact ⟨d.substitute s, start _ (.inl hmem), hsub⟩
  rcases known u hu with hfact | ⟨hstore, -⟩
  -- The one clause of the rest matches a fact, so its instance is there from the start.
  · have rest : ∀ e ∈ split.rest, ∃ u ∈ facts.toList, e.Matches u s := by
      intro e he
      rw [single e he d hpart]
      exact ⟨u, hfact, hmatch⟩
    have hmem := Guard.substitute_mem_instances (fun e he => (parts.rest e he).2) hrest rest hpart
    exact ⟨d.substitute s, start _ (.inr hmem), hsub⟩
  · exact ⟨u, hstore, hmatch⟩

end

section
variable {r : Rule} {F G : Formula} {config : Config}

theorem IsPlain.rounds_saturated (h : r.IsPlain F G) {split : Guard} (parts : split.Parts F)
    (single : ∀ c ∈ split.rest, ∀ d ∈ split.rest, c = d)
    (unfed : ∀ t ∈ G, ∀ c ∈ split.guard, ¬ t.Fits c) {facts guarding resting : Graph}
    (hguard : Guard.instances config (.graph facts) split.guard = .ok guarding)
    (hrest : Guard.instances config (.graph facts) split.rest = .ok resting)
    {bound : Nat} (hbound : bound ≠ 0) (left : Nat) (store : Graph) (derived : OrderedSet Triple)
    (start : ∀ t, t ∈ guarding.toList ∨ t ∈ resting.toList → t ∈ store.toList)
    (own : ∀ t ∈ derived, t ∈ store.toList ∧ ∃ s, r.Fires s t) :
    Run.Yields (fun e => e.cuts = false) (r.rounds config (.graph facts) bound left store derived)
      (r.SaturatedBy config facts) := by
  -- The store always holds the instances and all that has been derived so far.
  induction left generalizing store derived with
  | zero => exact yields_rounds_zero fun he => absurd (he hbound) (Event.cuts_of_warning rfl)
  | succ left ih =>
    refine yields_rounds_succ (fun found hfound added => ?_) fun found grown hfound hgrown => ?_
    · intro g hg E hE t ht
      have hg' : ∀ u ∈ g.toList, u ∈ facts.toList ∨ u ∈ store.toList ∧ ∃ s, r.Fires s u := by
        intro u hu
        rcases (hg u).1 hu with hu | hu
        · exact .inl hu
        rcases OrderedSet.mem_insertAll.1 hu with hu | hu
        · exact .inr (own u hu)
        · exact (added u hu).symm.imp id fun hs => ⟨hs, h.fires_of_derive hfound hu⟩
      have hmem := h.derive_of_round parts single unfed hguard hrest start hg'
        hfound hE ht
      exact (hg t).2 (.inr (OrderedSet.mem_insertAll.2 (.inr hmem)))
    · refine ih grown _ (fun t ht => (hgrown t).2 (.inl (start t ht))) fun t ht => ?_
      rcases OrderedSet.mem_insertAll.1 ht with ht | ht
      · exact ⟨(hgrown t).2 (.inl (own t ht).1), (own t ht).2⟩
      · exact ⟨(hgrown t).2 (.inr ht), h.fires_of_derive hfound ht⟩

/-- A rule that feeds one clause of its condition ends at a fixpoint unless its bound cuts it off. -/
theorem IsPlain.deriveRecursive_saturated (h : r.IsPlain F G) (nodup : F.Nodup) (once : F.FedOnce G)
    (feeds : conclusionFeeds r.conclusion r.condition = true) (facts : Graph) :
    Run.Yields (fun e => e.cuts = false) (r.deriveRecursive config (.graph facts))
      (r.SaturatedBy config facts) := by
  refine h.opensNoScope.yields_deriveRecursive
    fun split guarding resting start hsplit hguard hrest hstart => ?_
  have parts := Guard.parts_of_split h.conclusion h.condition h.scopeFree hsplit
  obtain ⟨single, unfed⟩ :=
    Guard.rest_of_fedOnce h.condition h.conclusion h.scopeFree nodup once feeds hsplit
  intro bound hcut
  cases hbound : bound with
  | zero =>
    refine yields_rounds_zero fun _ g hg E hE t ht => ?_
    obtain ⟨s, hs, -⟩ := (h.opensNoScope.mem_derive hE).1 ht
    have hsub : ∀ u ∈ (Store.graph g).toList, u ∈ (Store.graph facts).toList :=
      fun u hu => ((hg u).1 hu).resolve_right List.not_mem_nil
    have hnone : split.guard.isEmpty = false ∧ guarding.size = 0 := by
      simpa [Event.cuts, Event.starves, Event.level, hbound] using hcut
    exact absurd (Triple.solutions_mono hsub hs) (Guard.not_mem_solutions parts hnone.1 hguard hnone.2 s)
  | succ left =>
    exact h.rounds_saturated parts single unfed hguard hrest (Nat.succ_ne_zero left) (left + 1) start ∅
      (fun t => (hstart t).2) fun t ht => absurd ht List.not_mem_nil

end

end Rule

/-! ## The end of the passes -/

namespace Cycle

section
variable {config : Config} {rules : List Rule} {order : List Nat} {facts : Graph}

structure State.Holds (s : State) (facts : Graph) : Prop where
  facts : ∀ t ∈ facts.toList, t ∈ s.store.toList
  derived : ∀ t ∈ s.derived, t ∈ s.store.toList

/-- All that the rule derives from the state has been derived. -/
def State.Closed (config : Config) (s : State) (r : Rule) : Prop :=
  ∀ E, r.derive config (.graph s.store) = .ok E → ∀ t ∈ E, t ∈ s.derived

/-- Every rule is pending in this pass or in the next one, or has nothing more to derive. -/
def State.Settled (config : Config) (rules : List Rule) (order pending : List Nat) (s : State) : Prop :=
  ∀ i ∈ order, ∀ r, rules[i]? = some r → i ∈ pending ∨ i ∈ s.triggered ∨ s.Closed config r

theorem State.Holds.fired {g : DependencyGraph} {i : Nat} {r : Rule} {s s' : State} (h : s.Holds facts)
    (fired : Fired config g i r s s') : s'.Holds facts := by
  obtain ⟨found, -, hstore, hderived⟩ := fired.found
  refine ⟨fun t ht => (hstore t).2 (.inl (h.facts t ht)), fun t ht => ?_⟩
  rcases (hderived t).1 ht with ht | ht
  · exact (hstore t).2 (.inl (h.derived t ht))
  · exact (hstore t).2 (.inr ht)

/-- The state between two passes, the next of which fires the pending rules. -/
structure State.Between (config : Config) (rules : List Rule) (order : List Nat) (facts : Graph)
    (pending : List Nat) (s : State) : Prop where
  ordered : ∀ i ∈ pending, i ∈ order
  holds : s.Holds facts
  settled : State.Settled config rules order pending { s with triggered := [] }

theorem State.Between.saturated {s : State} (h : s.Between config rules order facts [])
    (plain : ∀ i ∈ order, ∀ r, rules[i]? = some r → ∃ F G, r.IsPlain F G) :
    ∀ i ∈ order, ∀ r, rules[i]? = some r → r.SaturatedBy config facts s.derived := by
  intro i hi r hr g hg E hE t ht
  obtain ⟨F, G, hplain⟩ := plain i hi r hr
  obtain ⟨E', hE', -⟩ := Rule.derive_eq_ok hplain config (.graph s.store)
  have closed : s.Closed config r :=
    ((h.settled i hi r hr).resolve_left List.not_mem_nil).resolve_left List.not_mem_nil
  have hsub : ∀ u ∈ (Store.graph g).toList, u ∈ (Store.graph s.store).toList :=
    fun u hu => ((hg u).1 hu).elim (h.holds.facts u) (h.holds.derived u)
  exact (hg t).2 (.inr (closed E' hE' t (Rule.derive_mono hplain hsub hE hE' ht)))

variable (plain : ∀ i ∈ order, ∀ r, rules[i]? = some r → ∃ F G, r.IsPlain F G)
  (edges : ∀ i ∈ order, ∀ j ∈ order, ∀ p c, rules[i]? = some p → rules[j]? = some c → p.FeedsWhatFits c)
include plain edges

/-- Firing a rule leaves a rule closed that it does not trigger. -/
theorem Fired.triggered_or_closed {i j : Nat} (hi : i ∈ order) (hj : j ∈ order) {p r : Rule}
    (hp : rules[i]? = some p) (hr : rules[j]? = some r) {s s' : State}
    (fired : Fired config (.ofRules rules) i p s s') {E : OrderedSet Triple}
    (hE : r.derive config (.graph s.store) = .ok E) (hsub : ∀ t ∈ E, t ∈ s'.derived) :
    j ∈ s'.triggered ∨ s'.Closed config r := by
  obtain ⟨F, G, hplain⟩ := plain j hj r hr
  obtain ⟨F', G', hplain'⟩ := plain i hi p hp
  obtain ⟨found, hfound, hstore, -⟩ := fired.found
  rcases fired.triggered with ⟨-, hold⟩ | htriggered
  · refine .inr fun E' hE' t ht => hsub t ?_
    exact hplain.derive_of_unread (fun u hu => .inl (hold u hu)) hE hE' ht
  by_cases hedge : i ∈ (DependencyGraph.ofRules rules).dependsOn j
  · refine .inl ?_
    rw [htriggered]
    exact List.mem_append_right _ (DependencyGraph.mem_triggers.2 hedge)
  · have none : conclusionFeeds p.conclusion r.condition = false :=
      Bool.not_eq_true _ ▸ mt (DependencyGraph.mem_dependsOn_ofRules hp hr).2 hedge
    refine .inr fun E' hE' t ht => hsub t ?_
    refine hplain.derive_of_unread (fun u hu => ((hstore u).1 hu).imp id fun hu => ?_) hE hE' ht
    obtain ⟨m, hm⟩ := hplain'.fires_of_derive hfound hu
    exact hplain.unread_of_fires hplain'.conclusion (edges i hi j hj p r hp hr) none hm

theorem State.Settled.fired {i : Nat} {pending : List Nat} (hi : i ∈ order) {p : Rule}
    (hp : rules[i]? = some p) {s s' : State} (fired : Fired config (.ofRules rules) i p s s')
    (h : s.Settled config rules order (i :: pending)) : s'.Settled config rules order pending := by
  obtain ⟨found, hfound, hstore, hderived⟩ := fired.found
  intro j hj r hr
  obtain ⟨F, G, hplain⟩ := plain j hj r hr
  obtain ⟨E, hE, -⟩ := Rule.derive_eq_ok hplain config (.graph s.store)
  have kept : j ∈ s.triggered → j ∈ s'.triggered := by
    intro htriggered
    rcases fired.triggered with ⟨same, -⟩ | more
    · rwa [same]
    · rw [more]
      exact List.mem_append_left _ htriggered
  rcases h j hj r hr with hpending | htriggered | closed
  · rcases List.mem_cons.1 hpending with rfl | hpending
    · obtain rfl := Option.some.inj (hp.symm.trans hr)
      exact .inr (fired.triggered_or_closed plain edges hi hj hp hr hfound fun t ht =>
        (hderived t).2 (.inr ht))
    · exact .inl hpending
  · exact .inr (.inl (kept htriggered))
  · exact .inr (fired.triggered_or_closed plain edges hi hj hp hr hE fun t ht =>
      (hderived t).2 (.inl (closed E hE t ht)))

theorem firePending_settled {ok : Event → Prop} (pass : Nat) (pending : List Nat)
    (hsub : ∀ i ∈ pending, i ∈ order) (s : State) (holds : s.Holds facts)
    (h : s.Settled config rules order pending) :
    Run.Yields ok (firePending config rules (.ofRules rules) pass pending s) fun s' =>
      s'.Holds facts ∧ s'.Settled config rules order [] := by
  induction pending generalizing s with
  | nil => exact Run.yields_pure ⟨holds, h⟩
  | cons i pending ih =>
    have rest := ih fun j hj => hsub j (List.mem_cons_of_mem _ hj)
    refine yields_firePending_cons (fun none => ?_) fun p s₁ hp fired => ?_
    · refine rest s holds fun j hj r hr => (h j hj r hr).imp (fun hpending => ?_) id
      refine (List.mem_cons.1 hpending).resolve_left ?_
      rintro rfl
      rw [none] at hr
      cases hr
    · exact rest s₁ (holds.fired fired) (h.fired plain edges (hsub i (List.mem_cons_self ..)) hp fired)

theorem pass_between {ok : Event → Prop} (pass i : Nat) (pending : List Nat) (s : State)
    (h : s.Between config rules order facts (i :: pending)) :
    Run.Yields ok (firePending config rules (.ofRules rules) pass (i :: pending)
      { s with triggered := [] }) fun s' =>
        s'.Between config rules order facts (order.filter fun i => s'.triggered.contains i) := by
  intro s' hs' he
  obtain ⟨holds, settled⟩ := firePending_settled plain edges pass (i :: pending) h.ordered
    { s with triggered := [] } ⟨h.holds.facts, h.holds.derived⟩ h.settled s' hs' he
  refine ⟨fun j hj => (List.mem_filter.1 hj).1, holds, fun j hj r hr => ?_⟩
  rcases settled j hj r hr with hpending | htriggered | closed
  · exact absurd hpending List.not_mem_nil
  · exact .inl (List.mem_filter.2 ⟨hj, List.contains_iff_mem.2 htriggered⟩)
  · exact .inr (.inr closed)

theorem passes_saturated {ok : Event → Prop} (uncut : ∀ bound, ¬ ok (.passesExhausted bound))
    (bound left : Nat) (pending : List Nat) (s : State) (h : s.Between config rules order facts pending) :
    Run.Yields ok (passes config rules (.ofRules rules) order bound left pending s) fun D =>
      ∀ i ∈ order, ∀ r, rules[i]? = some r → r.SaturatedBy config facts D :=
  yields_passes (pass_between plain edges) (fun _ h => h.saturated plain)
    (fun _ _ _ _ he => absurd he (uncut bound)) left pending s h

end

/-- A cycle none of whose edges is missed ends at a fixpoint unless its bound cuts it off. -/
theorem derive_saturated {ok : Event → Prop} (uncut : ∀ bound, ¬ ok (.passesExhausted bound))
    {config : Config} {rules : List Rule} {members : List Nat}
    (plain : ∀ r ∈ members.filterMap fun i => rules[i]?, ∃ F G, r.IsPlain F G)
    (edges : ∀ p ∈ members.filterMap fun i => rules[i]?, ∀ c ∈ members.filterMap fun i => rules[i]?,
      p.FeedsWhatFits c) (facts : Graph) :
    Run.Yields ok (derive config facts rules (.ofRules rules) members) fun D =>
      ∀ r ∈ members.filterMap fun i => rules[i]?, r.SaturatedBy config facts D := by
  have hmem : ∀ {i r}, i ∈ members → rules[i]? = some r → r ∈ members.filterMap fun i => rules[i]? :=
    fun hi hr => List.mem_filterMap.2 ⟨_, hi, hr⟩
  have pos : ∀ r ∈ members.filterMap fun i => rules[i]?, r.isNegative = false := by
    intro r h
    obtain ⟨F, G, hplain⟩ := plain r h
    exact hplain.opensNoScope.not_negative
  refine yields_derive pos (fun none r h => ?_) fun walk order bound horder _ => ?_
  · rw [none] at h
    exact absurd h List.not_mem_nil
  have plain' : ∀ i ∈ order, ∀ r, rules[i]? = some r → ∃ F G, r.IsPlain F G :=
    fun i hi r hr => plain r (hmem ((horder i).1 hi) hr)
  have edges' : ∀ i ∈ order, ∀ j ∈ order, ∀ p c, rules[i]? = some p → rules[j]? = some c →
      p.FeedsWhatFits c := fun i hi j hj p c hp hc =>
    edges p (hmem ((horder i).1 hi) hp) c (hmem ((horder j).1 hj) hc)
  have start : State.Between config rules order facts order ⟨facts, ∅, []⟩ :=
    ⟨fun _ hi => hi, ⟨fun _ ht => ht, fun _ ht => absurd ht List.not_mem_nil⟩, fun _ hi _ _ => .inl hi⟩
  have run := passes_saturated plain' edges' uncut bound bound order _ start
  intro D hD he r hr
  obtain ⟨i, hi, hri⟩ := List.mem_filterMap.1 hr
  exact run D hD he i ((horder i).2 hi) r hri

end Cycle

/-! ## Rules whose evaluation ends at fixpoints -/

/-- What the rule concludes could match at most one clause of its condition. -/
structure Rule.FeedsOneClause (r : Rule) (F G : Formula) : Prop where
  plain : r.IsPlain F G
  nodup : F.Nodup
  once : F.FedOnce G

/-- The evaluation of rules that feed themselves or each other ends at a fixpoint unless it is cut
off. -/
structure LoopsExact (rules : List Rule) : Prop where
  recursive : ∀ s ∈ stratify rules (.ofRules rules), s.kind = .recursive →
    ∀ r ∈ s.rulesOf rules, ∃ F G, r.FeedsOneClause F G
  cyclic : ∀ s ∈ stratify rules (.ofRules rules), s.kind = .cyclic →
    ∀ r ∈ s.rulesOf rules, ∃ F G, r.IsPlain F G
  edges : ∀ s ∈ stratify rules (.ofRules rules), s.kind = .cyclic →
    ∀ p ∈ s.rulesOf rules, ∀ c ∈ s.rulesOf rules, p.FeedsWhatFits c

/-- Rules that have all their edges, and feed themselves through one clause where they are evaluated
by rounds. -/
structure Exact (rules : List Rule) : Prop where
  plain : ∀ r ∈ rules, ∃ F G, r.IsPlain F G
  edges : ∀ producer ∈ rules, ∀ consumer ∈ rules, producer.FeedsWhatFits consumer
  recursive : ∀ s ∈ stratify rules (.ofRules rules), s.kind = .recursive →
    ∀ r ∈ s.rulesOf rules, ∃ F G, r.FeedsOneClause F G

theorem Exact.loopsExact {rules : List Rule} (h : Exact rules) : LoopsExact rules where
  recursive := h.recursive
  cyclic _ _ _ r hr := h.plain r (Stratum.mem_of_mem_rulesOf hr)
  edges _ _ _ p hp c hc :=
    h.edges p (Stratum.mem_of_mem_rulesOf hp) c (Stratum.mem_of_mem_rulesOf hc)

section
variable {rules : List Rule} {s : Stratum} (loops : LoopsExact rules)
  (hs : s ∈ stratify rules (.ofRules rules)) (loop : s.kind = .recursive ∨ s.kind = .cyclic)
include loops hs loop

theorem LoopsExact.plain {r : Rule} (hr : r ∈ s.rulesOf rules) : ∃ F G, r.IsPlain F G := by
  rcases loop with kind | kind
  · obtain ⟨F, G, h⟩ := loops.recursive s hs kind r hr
    exact ⟨F, G, h.plain⟩
  · exact loops.cyclic s hs kind r hr

theorem Stratum.loop_saturated {config : Config} (pos : ∀ r ∈ rules, r.isNegative = false)
    (facts : Graph) :
    Run.Yields (fun e => e.cuts = false) (s.derive config facts rules (.ofRules rules)) fun D =>
      ∀ r ∈ s.rulesOf rules, r.SaturatedBy config facts D := by
  rcases Stratum.derive_cases pos hs config with ⟨kind, -⟩ | ⟨kind, r, one, feeds, eq⟩ | ⟨kind, eq⟩
  · rw [kind] at loop
    rcases loop with h | h <;> cases h
  · obtain ⟨F, G, h⟩ := loops.recursive s hs kind r (one ▸ List.mem_singleton_self r)
    rw [eq, one]
    intro D hD he q hq
    rw [List.mem_singleton.1 hq]
    exact h.plain.deriveRecursive_saturated h.nodup h.once feeds facts D hD he
  · rw [eq]
    have uncut (bound : Nat) : ¬ (Event.passesExhausted bound).cuts = false := Event.cuts_of_warning rfl
    exact Cycle.derive_saturated uncut (loops.cyclic s hs kind) (loops.edges s hs kind) facts

end

/-- Links start paths, and paths are made longer at the end. -/
def reachRules : List Rule :=
  [.ofLists [⟨.var "x", .iri "next", .var "y"⟩] [⟨.var "x", .iri "reach", .var "y"⟩],
    .ofLists [⟨.var "x", .iri "reach", .var "y"⟩, ⟨.var "y", .iri "next", .var "z"⟩]
      [⟨.var "x", .iri "reach", .var "z"⟩]]

theorem exact_reachRules : Exact reachRules := by
  have each : ∀ r ∈ reachRules, ∃ F G, r.FeedsOneClause F G ∧ G.length = 1 ∧
      ∀ c ∈ F.readClauses, ∀ a ∈ c.terms, a.isBlank = false := by
    intro r hr
    simp only [reachRules, List.mem_cons, List.not_mem_nil, or_false] at hr
    rcases hr with rfl | rfl
    · refine ⟨_, _, ⟨⟨rfl, rfl, by decide, by decide⟩, by decide, ?_⟩, rfl, by decide⟩
      exact Formula.fedOnce_of_feeds (by decide) (by decide)
    · refine ⟨_, _, ⟨⟨rfl, rfl, by decide, by decide⟩, by decide, ?_⟩, rfl, by decide⟩
      exact Formula.fedOnce_of_feeds (by decide) (by decide)
  constructor
  · intro r hr
    obtain ⟨F, G, h, -⟩ := each r hr
    exact ⟨F, G, h.plain⟩
  · intro producer hp consumer hc
    obtain ⟨F, _, h, -, noBlank⟩ := each consumer hc
    obtain ⟨_, G, h', one, -⟩ := each producer hp
    exact Rule.feedsWhatFits_of_single h.plain.condition h'.plain.conclusion noBlank (.inl one)
  · intro s _ _ r hr
    obtain ⟨F, G, h, -⟩ := each r (Stratum.mem_of_mem_rulesOf hr)
    exact ⟨F, G, h⟩

end TripleChain
