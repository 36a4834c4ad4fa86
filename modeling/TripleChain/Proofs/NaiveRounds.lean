import TripleChain.Proofs.LeastModel

/-!
# Rounds on all facts

The rounds of a rule that feeds itself see the instances of its guard and its rest alone, and end early.
Where the rule concludes one triple and there is one way for it to feed its condition, just one clause is
fed (`Guard.rest_of_unique`), so nothing is lost: as many rounds on all facts derive the same
(`Rule.deriveRecursive_naive`).
-/

namespace TripleChain

/-! ## One way to feed a condition -/

namespace Guard

variable {producer consumer : Rule} {F G : Formula} {B : Triple} {g : Guard}

theorem split_eq_error (hG : producer.conclusion = .formula G) (hF : consumer.condition = .formula F)
    (h : (residualClauses F.readClauses G).size ≠ 1) : split producer consumer =
      .error (.pairingCount consumer (residualClauses F.readClauses G).size) := by
  rw [split, hG, Rule.conditionFormula, hF]
  dsimp only [bind, ok_bind]
  split
  · next guard one =>
    rw [OrderedSet.size, one] at h
    exact absurd rfl h
  · rfl

theorem conclusionFeeds_of_split (hG : producer.conclusion = .formula G)
    (hF : consumer.condition = .formula F) (some : G ≠ []) (read : F.readClauses ≠ [])
    (h : split producer consumer = .ok g) :
    conclusionFeeds producer.conclusion consumer.condition = true := by
  obtain ⟨ps, left, rest, pairing, leaves⟩ := Pairing.mem_residuals.1 (mem_residuals_of_split hG hF h)
  rw [hG, hF, conclusionFeeds_iff some read]
  exact ⟨ps, left, rest, pairing, leaves.imp And.left fun h => ⟨h.1, h.2.1⟩⟩

/-- The pairing of one clause leaves over all others, so two that the triple could match would make two
sets. -/
theorem fedOnce_of_unique (hG : producer.conclusion = .formula [B]) (hF : consumer.condition = .formula F)
    (noBlank : ∀ c ∈ F.readClauses, ∀ a ∈ c.terms, a.isBlank = false) (nodup : F.readClauses.Nodup)
    (h : split producer consumer = .ok g) : F.FedOnce [B] := by
  have guard_eq : ∀ c ∈ F.readClauses, B.Fits c → g.guard = Formula.ofList (F.readClauses.erase c) := by
    intro c hc fits
    have oneToOne : OneToOne (B.blankPairs c) := by
      rw [Triple.blankPairs_of_not (noBlank c hc)]
      exact fun p hp => absurd hp List.not_mem_nil
    have pairing := isPairing_single (List.mem_singleton_self B) hc fits oneToOne
    rw [List.erase_cons_head] at pairing
    have residual : Formula.ofList (F.readClauses.erase c) ∈ residualClauses F.readClauses [B] :=
      OrderedSet.mem_ofList.2 (Pairing.mem_residuals.2 ⟨_, _, _, pairing, .inl ⟨rfl, rfl⟩⟩)
    rw [OrderedSet.mem_def, ((split_eq_ok hG hF).1 h).1, List.mem_singleton] at residual
    exact residual.symm
  intro t ht u hu c hc d hd hfits hfits'
  obtain rfl := List.mem_singleton.1 ht
  obtain rfl := List.mem_singleton.1 hu
  by_contra hne
  have hguard : c ∈ g.guard := by
    rw [guard_eq d hd hfits', Formula.mem_ofList]
    exact (List.mem_erase_of_ne hne).2 hc
  rw [guard_eq c hc hfits, Formula.mem_ofList] at hguard
  exact nodup.not_mem_erase hguard

/-- Of the clauses of the condition the conclusion can match at most one, and this is the rest. -/
theorem rest_of_unique {r : Rule} (h : r.IsBasic F B) (nodup : F.Nodup) (hg : split r r = .ok g) :
    (∀ c ∈ g.rest, ∀ d ∈ g.rest, c = d) ∧ ∀ t ∈ [B], ∀ c ∈ g.guard, ¬ t.Fits c := by
  have hF := h.plain.condition
  have hG := h.plain.conclusion
  have read : ∀ c ∈ F.readClauses, c ∈ F := fun c hc => ((Formula.mem_readClauses h.plain.scopeFree).1 hc).1
  by_cases none : F.readClauses = []
  · have sub := subset_of_split hG hF hg
    rw [none] at sub
    exact ⟨fun c hc => absurd (sub.2 c hc) List.not_mem_nil, fun _ _ c hc => absurd (sub.1 c hc) List.not_mem_nil⟩
  have hread : F.readClauses.Nodup := by
    rw [Formula.readClauses_eq_filter h.plain.scopeFree]
    exact nodup.filter _
  exact rest_of_fedOnce hF hG h.plain.scopeFree nodup
    (fedOnce_of_unique hG hF (fun c hc => h.noBlank c (read c hc)) hread hg)
    (conclusionFeeds_of_split hG hF (List.cons_ne_nil _ _) none hg) hg

end Guard

/-! ## Naive rounds -/

namespace Rule

/-- What so many rounds derive, each on all facts and on all that the rounds before derived. -/
def naive (r : Rule) (config : Config) (facts : Graph) : (rounds : Nat) → Except Fault (OrderedSet Triple)
  | 0 => .ok ∅
  | n + 1 => do
    let known ← r.naive config facts n
    let store ← facts.addAll known.toList
    let found ← r.derive config (.graph store)
    return known.insertAll found.toList

section
variable {r : Rule} {F G : Formula} {config : Config} {facts : Graph}

theorem naive_succ_eq_ok {n : Nat} {N : OrderedSet Triple} : r.naive config facts (n + 1) = .ok N ↔
    ∃ known store found, r.naive config facts n = .ok known ∧ facts.addAll known.toList = .ok store ∧
      r.derive config (.graph store) = .ok found ∧ known.insertAll found.toList = N := by
  constructor
  · intro h
    obtain ⟨known, hknown, h⟩ := bind_eq_ok.1 h
    obtain ⟨store, hstore, h⟩ := bind_eq_ok.1 h
    obtain ⟨found, hfound, h⟩ := bind_eq_ok.1 h
    exact ⟨known, store, found, hknown, hstore, hfound, Except.ok.inj h⟩
  · rintro ⟨known, store, found, hknown, hstore, hfound, rfl⟩
    exact bind_eq_ok.2 ⟨known, hknown, bind_eq_ok.2 ⟨store, hstore, bind_eq_ok.2 ⟨found, hfound, rfl⟩⟩⟩

theorem IsPlain.exists_naive (h : r.IsPlain F G) (config : Config) (facts : Graph) (n : Nat) :
    ∃ N, r.naive config facts n = .ok N ∧ ∀ t ∈ N, t.hasVar = false := by
  induction n with
  | zero => exact ⟨∅, rfl, fun t ht => absurd ht List.not_mem_nil⟩
  | succ n ih =>
    obtain ⟨known, hknown, noVar⟩ := ih
    obtain ⟨store, hstore⟩ := Graph.exists_addAll noVar facts
    obtain ⟨found, hfound, -⟩ := derive_eq_ok h config (.graph store)
    refine ⟨_, naive_succ_eq_ok.2 ⟨known, store, found, hknown, hstore, hfound, rfl⟩, fun t ht => ?_⟩
    rcases OrderedSet.mem_insertAll.1 ht with ht | ht
    · exact noVar t ht
    · exact hasVar_of_derive h.conclusion hfound t ht

theorem IsPlain.derive_congr (h : r.IsPlain F G) {store store' : Graph}
    (same : ∀ t, t ∈ store.toList ↔ t ∈ store'.toList) {D D' : OrderedSet Triple}
    (hD : r.derive config (.graph store) = .ok D) (hD' : r.derive config (.graph store') = .ok D')
    (t : Triple) : t ∈ D ↔ t ∈ D' := by
  have sub : ∀ u ∈ (Store.graph store).toList, u ∈ (Store.graph store').toList := fun u => (same u).1
  have sub' : ∀ u ∈ (Store.graph store').toList, u ∈ (Store.graph store).toList := fun u => (same u).2
  exact ⟨derive_mono h sub hD hD', derive_mono h sub' hD' hD⟩

theorem IsPlain.naive_settled (h : r.IsPlain F G) {n : Nat} {known found : OrderedSet Triple} {store : Graph}
    (hknown : r.naive config facts n = .ok known) (hstore : facts.addAll known.toList = .ok store)
    (hfound : r.derive config (.graph store) = .ok found) (settled : ∀ t ∈ found, t ∈ store.toList)
    (more : Nat) {N : OrderedSet Triple} (hN : r.naive config facts (n + 1 + more) = .ok N) (t : Triple) :
    t ∈ N ↔ t ∈ known ∨ t ∈ found := by
  induction more generalizing N t with
  | zero =>
    have eq := naive_succ_eq_ok.2 ⟨known, store, found, hknown, hstore, hfound, rfl⟩
    obtain rfl := Except.ok.inj (eq.symm.trans hN)
    exact OrderedSet.mem_insertAll
  | succ more ih =>
    obtain ⟨known', store', found', hknown', hstore', hfound', rfl⟩ := naive_succ_eq_ok.1 hN
    -- The round sees the triples that the settled one saw, so it finds the same.
    have same : ∀ u, u ∈ store'.toList ↔ u ∈ store.toList := by
      intro u
      rw [Graph.mem_addAll hstore', ← OrderedSet.mem_def, ih hknown', Graph.mem_addAll hstore]
      refine ⟨fun hu => ?_, fun hu => hu.imp_right .inl⟩
      rcases hu with hu | hu | hu
      · exact .inl hu
      · exact .inr hu
      · exact (Graph.mem_addAll hstore).1 (settled u hu)
    rw [OrderedSet.mem_insertAll, ih hknown', ← OrderedSet.mem_def, h.derive_congr same hfound' hfound]
    tauto

end

/-! ## Rounds on the instances -/

section
variable {r : Rule} {F G : Formula} {config : Config} {facts guarding resting : Graph} {split : Guard}

/-- After the same number of rounds, those on the instances have derived what those on all facts have. -/
theorem IsPlain.rounds_naive (h : r.IsPlain F G) (parts : split.Parts F)
    (single : ∀ c ∈ split.rest, ∀ d ∈ split.rest, c = d) (unfed : ∀ t ∈ G, ∀ c ∈ split.guard, ¬ t.Fits c)
    (hguard : Guard.instances config (.graph facts) split.guard = .ok guarding)
    (hrest : Guard.instances config (.graph facts) split.rest = .ok resting)
    (bound left n : Nat) (store : Graph) (derived known : OrderedSet Triple)
    (hstore : ∀ t, t ∈ store.toList ↔ (t ∈ guarding.toList ∨ t ∈ resting.toList) ∨ t ∈ derived)
    (fires : ∀ t ∈ derived, ∃ s, r.Fires s t) (hknown : r.naive config facts n = .ok known)
    (same : ∀ t, t ∈ derived ↔ t ∈ known) :
    Run.Yields (fun _ => True) (r.rounds config (.graph facts) bound left store derived) fun D =>
      ∀ N, r.naive config facts (n + left) = .ok N → ∀ t, t ∈ D ↔ t ∈ N := by
  have instance_mem : ∀ t, t ∈ guarding.toList ∨ t ∈ resting.toList → t ∈ facts.toList := by
    rintro t (ht | ht)
    · exact Guard.mem_instances (fun c hc => (parts.guard c hc).2) (fun c hc => h.flat c (parts.guard c hc).1)
        hguard ht
    · exact Guard.mem_instances (fun c hc => (parts.rest c hc).2) (fun c hc => h.flat c (parts.rest c hc).1)
        hrest ht
  induction left generalizing n store derived known with
  | zero =>
    refine yields_rounds_zero fun _ N hN t => ?_
    obtain rfl := Except.ok.inj (hknown.symm.trans hN)
    exact same t
  | succ left ih =>
    obtain ⟨next, hnext, -⟩ := h.exists_naive config facts (n + 1)
    obtain ⟨known', all, found', hknown', hall, hfound', rfl⟩ := naive_succ_eq_ok.1 hnext
    obtain rfl : known = known' := Except.ok.inj (hknown.symm.trans hknown')
    have mem_all : ∀ t, t ∈ all.toList ↔ t ∈ facts.toList ∨ t ∈ derived := by
      intro t
      rw [Graph.mem_addAll hall, same, OrderedSet.mem_def]
    -- The fed clause is the only one that a fact outside the instances could match, and then the round
    -- has its instance all the same.
    have mem_found : ∀ {found}, r.derive config (.graph store) = .ok found → ∀ t, t ∈ found ↔ t ∈ found' := by
      intro found hfound t
      refine ⟨derive_mono h (fun u hu => ?_) hfound hfound', fun ht => ?_⟩
      · exact (mem_all u).2 (((hstore u).1 hu).imp_left (instance_mem u))
      · refine h.derive_of_round parts single unfed hguard hrest (fun u hu => (hstore u).2 (.inl hu))
          (fun u hu => ?_) hfound hfound' ht
        exact ((mem_all u).1 hu).imp_right fun hu => ⟨(hstore u).2 (.inr hu), fires u hu⟩
    have mem_derived : ∀ {found}, r.derive config (.graph store) = .ok found →
        ∀ t, t ∈ derived.insertAll found.toList ↔ t ∈ known ∨ t ∈ found' := by
      intro found hfound t
      rw [OrderedSet.mem_insertAll, same, ← OrderedSet.mem_def, mem_found hfound]
    refine yields_rounds_succ (fun found hfound old N hN t => ?_) fun found grown hfound hgrown => ?_
    · rw [mem_derived hfound]
      refine (h.naive_settled hknown hall hfound' (fun u hu => ?_) left ?_ t).symm
      · rw [mem_all]
        rcases old u ((mem_found hfound u).2 hu) with hu | hu
        · exact ((hstore u).1 hu).imp_left (instance_mem u)
        · exact .inl hu
      · rwa [Nat.add_assoc, Nat.add_comm 1]
    · have next := ih (n + 1) grown (derived.insertAll found.toList) (known.insertAll found'.toList) ?_ ?_ hnext ?_
      · rwa [Nat.add_assoc, Nat.add_comm 1] at next
      · intro t
        rw [hgrown, hstore, OrderedSet.mem_insertAll, or_assoc]
        rfl
      · intro t ht
        rcases OrderedSet.mem_insertAll.1 ht with ht | ht
        · exact fires t ht
        · exact h.fires_of_derive hfound ht
      · intro t
        rw [mem_derived hfound, OrderedSet.mem_insertAll]
        rfl

variable {B : Triple}

theorem IsBasic.deriveRecursive_yields (h : r.IsBasic F B) (nodup : F.Nodup) (config : Config) (facts : Graph) :
    Run.Yields (fun _ => True) (r.deriveRecursive config (.graph facts)) fun D =>
      ∃ split guarding resting N, Guard.split r r = .ok split ∧
        Guard.instances config (.graph facts) split.guard = .ok guarding ∧
        Guard.instances config (.graph facts) split.rest = .ok resting ∧
        r.naive config facts (config.rounds (split.bound guarding resting)) = .ok N ∧ ∀ t, t ∈ D ↔ t ∈ N := by
  have plain := h.plain
  refine plain.opensNoScope.yields_deriveRecursive
    fun split guarding resting start hsplit hguard hrest hstart _ => ?_
  obtain ⟨single, unfed⟩ := Guard.rest_of_unique h nodup hsplit
  obtain ⟨N, hN, -⟩ := plain.exists_naive config facts (config.rounds (split.bound guarding resting))
  have rounds := plain.rounds_naive
    (Guard.parts_of_split plain.conclusion plain.condition plain.scopeFree hsplit) single unfed hguard hrest
    (config.rounds (split.bound guarding resting)) (config.rounds (split.bound guarding resting)) 0 start ∅ ∅
    (fun t => (hstart t).trans (or_iff_left List.not_mem_nil).symm) (fun t ht => absurd ht List.not_mem_nil)
    rfl fun t => Iff.rfl
  intro D hD _
  refine ⟨split, guarding, resting, N, hsplit, hguard, hrest, hN, ?_⟩
  exact rounds D hD (fun _ _ => trivial) N (by rwa [Nat.zero_add])

theorem IsPlain.exists_deriveRecursive (h : r.IsPlain F G) (config : Config) (facts : Graph)
    (hsplit : Guard.split r r = .ok split) : ∃ D, (r.deriveRecursive config (.graph facts)).result = .ok D := by
  have confined : r.Confined True config {t | t.hasVar = false} :=
    h.confined fun _ D _ hD => hasVar_of_derive h.conclusion hD
  exact (deriveRecursive_within (fun _ _ ht => ht) h.opensNoScope confined (.graph facts) facts.noVar
    fun _ => ⟨split, hsplit⟩).succeeds trivial

/-- A rule that concludes one triple, and whose condition quotes nothing, opens no scope and has no blank
nodes: if the pairings of the two leave over one set of clauses, then its rounds on guard and rest alone
derive what as many rounds on all facts do, and else it is refused. -/
theorem deriveRecursive_naive (h : r.IsBasic F B) (nodup : F.Nodup) (config : Config) (facts : Graph) :
    (∀ guard, (residualClauses F.readClauses [B]).toList = [guard] → ∃ split guarding resting D N,
      Guard.split r r = .ok split ∧ split.guard = guard ∧
      Guard.instances config (.graph facts) split.guard = .ok guarding ∧
      Guard.instances config (.graph facts) split.rest = .ok resting ∧
      (r.deriveRecursive config (.graph facts)).result = .ok D ∧
      r.naive config facts (config.rounds (split.bound guarding resting)) = .ok N ∧ ∀ t, t ∈ D ↔ t ∈ N) ∧
    ((residualClauses F.readClauses [B]).size ≠ 1 → (r.deriveRecursive config (.graph facts)).result =
      .error (.pairingCount r (residualClauses F.readClauses [B]).size)) := by
  have hF := h.plain.condition
  have hG := h.plain.conclusion
  constructor
  · intro guard one
    have hsplit : Guard.split r r = .ok ⟨guard, Formula.ofList (F.readClauses.filter fun c => c ∉ guard)⟩ :=
      (Guard.split_eq_ok hG hF).2 ⟨one, rfl⟩
    obtain ⟨D, hD⟩ := h.plain.exists_deriveRecursive config facts hsplit
    obtain ⟨split, guarding, resting, N, hsplit', hguard, hrest, hN, same⟩ :=
      h.deriveRecursive_yields nodup config facts D hD fun _ _ => trivial
    obtain rfl := Except.ok.inj (hsplit.symm.trans hsplit')
    exact ⟨_, guarding, resting, D, N, hsplit, rfl, hguard, hrest, hD, hN, same⟩
  · intro many
    rw [deriveRecursive_of_formula h.plain.opensNoScope.not_negative hG, Run.result_bind, Run.result_lift,
      Guard.split_eq_error hG hF many]
    rfl

end

/-- The three links are the guard, so there are three rounds. Where both clauses of the condition could be
fed, the rule is refused. -/
theorem deriveRecursive_naive_reach :
    let edge (x p y : String) : Triple := ⟨.var x, .iri p, .var y⟩
    let fact (x p y : String) : Triple := ⟨.iri x, .iri p, .iri y⟩
    let r := ofLists [edge "x" "reach" "y", edge "y" "next" "z"] [edge "x" "reach" "z"]
    let twice := ofLists [edge "x" "reach" "y", edge "y" "reach" "z"] [edge "x" "reach" "z"]
    let facts := (Graph.ofList [fact "a" "reach" "b", fact "a" "is" "e", fact "b" "next" "c",
      fact "c" "next" "d", fact "c" "next" "a"]).toOption.getD ∅
    (∃ F B, r.IsBasic F B ∧ F.Nodup) ∧ (∃ F B, twice.IsBasic F B ∧ F.Nodup) ∧
      (∃ D N, (r.deriveRecursive {} (.graph facts)).result = .ok D ∧ r.naive {} facts 3 = .ok N ∧
        fact "a" "reach" "a" ∈ D ∧ ∀ t, t ∈ D ↔ t ∈ N) ∧
      (twice.deriveRecursive {} (.graph facts)).result = .error (.pairingCount twice 2) := by
  intro edge fact r twice facts
  have basic : r.IsBasic (Formula.ofList [edge "x" "reach" "y", edge "y" "next" "z"]) (edge "x" "reach" "z") :=
    ⟨⟨rfl, rfl, by decide, by decide⟩, by decide⟩
  have basicTwice : twice.IsBasic (Formula.ofList [edge "x" "reach" "y", edge "y" "reach" "z"])
      (edge "x" "reach" "z") := ⟨⟨rfl, rfl, by decide, by decide⟩, by decide⟩
  have run : (r.deriveRecursive {} (.graph facts)).result.toOption.map
      (fun D => decide (fact "a" "reach" "a" ∈ D)) = some true := by decide +kernel
  have bound : ((Guard.split r r).bind fun split => (Guard.instances {} (.graph facts) split.guard).bind
      fun guarding => (Guard.instances {} (.graph facts) split.rest).map fun resting =>
        Config.rounds {} (split.bound guarding resting)).toOption = some 3 := by decide +kernel
  have one : (residualClauses (Formula.readClauses (Formula.ofList [edge "x" "reach" "y", edge "y" "next" "z"]))
      [edge "x" "reach" "z"]).toList = [Formula.ofList [edge "y" "next" "z"]] := by decide +kernel
  have two : (residualClauses (Formula.readClauses (Formula.ofList [edge "x" "reach" "y", edge "y" "reach" "z"]))
      [edge "x" "reach" "z"]).size = 2 := by decide +kernel
  obtain ⟨split, guarding, resting, D, N, hsplit, -, hguard, hrest, hD, hN, same⟩ :=
    (deriveRecursive_naive basic (by decide) {} facts).1 _ one
  rw [hsplit, ok_bind, hguard, ok_bind, hrest] at bound
  have three : Config.rounds {} (split.bound guarding resting) = 3 := Option.some.inj bound
  rw [three] at hN
  obtain ⟨E, hE, hmem⟩ := exists_ok_of_map run
  obtain rfl := Except.ok.inj (hD.symm.trans hE)
  have refused := (deriveRecursive_naive basicTwice (by decide) {} facts).2 (by rw [two]; decide)
  rw [two] at refused
  exact ⟨⟨_, _, basic, by decide⟩, ⟨_, _, basicTwice, by decide⟩,
    ⟨D, N, hD, hN, of_decide_eq_true hmem, same⟩, refused⟩

end Rule

end TripleChain
