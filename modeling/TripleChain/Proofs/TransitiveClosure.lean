import Mathlib.Data.List.Permutation
import Mathlib.Logic.Relation
import TripleChain.Proofs.NaiveRounds

/-!
# Transitive closure

A link is a path, and a path followed by a link is a path. A chain of links that comes to a term at all
comes to it without entering it before, so there is one with no more links than there are facts. That is
the bound on the rounds: they derive a path to every term that a chain of links leads to, and no other
(`infer_transitiveClosure`).
-/

namespace TripleChain

/-! ## Chains of facts -/

/-- Among the triples is one with the given predicate between the two terms. -/
def Linked (ts : List Triple) (p : String) (a b : Term) : Prop := ⟨a, .iri p, b⟩ ∈ ts

/-- A chain of so many triples, at least one, leads from the one term to the other. -/
inductive Chained (ts : List Triple) (p : String) : Nat → Term → Term → Prop
  | single {a b : Term} (link : Linked ts p a b) : Chained ts p 1 a b
  | tail {n : Nat} {a b c : Term} (chain : Chained ts p n a b) (link : Linked ts p b c) :
      Chained ts p (n + 1) a c

section
variable {ts us : List Triple} {p : String} {n : Nat} {a b : Term}

theorem Chained.pos (h : Chained ts p n a b) : 0 < n := by
  cases h <;> exact Nat.succ_pos _

theorem Chained.transGen (h : Chained ts p n a b) : Relation.TransGen (Linked ts p) a b := by
  induction h with
  | single link => exact .single link
  | tail _ link ih => exact ih.tail link

theorem Chained.mono (h : Chained ts p n a b) (sub : ∀ {a b}, Linked ts p a b → Linked us p a b) :
    Chained us p n a b := by
  induction h with
  | single link => exact .single (sub link)
  | tail _ link ih => exact ih.tail (sub link)

theorem exists_last_link (h : Relation.TransGen (Linked ts p) a b) : ∃ c, Linked ts p c b ∧
    (a = c ∨ Relation.TransGen (Linked (ts.filter fun t => t.object ≠ b) p) a c) := by
  have kept : ∀ {x y}, Linked ts p x y → y ≠ b → Linked (ts.filter fun t => t.object ≠ b) p x y :=
    fun link ne => List.mem_filter.2 ⟨link, decide_eq_true ne⟩
  induction h using Relation.TransGen.head_induction_on with
  | single link => exact ⟨_, link, .inl rfl⟩
  | @head a d link _ ih =>
    by_cases hd : d = b
    · exact ⟨a, hd ▸ link, .inl rfl⟩
    obtain ⟨c, last, rfl | rest⟩ := ih
    · exact ⟨d, last, .inr (.single (kept link hd))⟩
    · exact ⟨c, last, .inr (rest.head (kept link hd))⟩

/-- No chain needs more links than there are triples. -/
theorem exists_chained_le (h : Relation.TransGen (Linked ts p) a b) : ∃ n ≤ ts.length, Chained ts p n a b := by
  induction hlen : ts.length using Nat.strong_induction_on generalizing ts b with
  | _ len ih =>
    obtain ⟨c, last, rest⟩ := exists_last_link h
    -- The last link is not among the triples that the chain before it is made of.
    have fewer : (ts.filter fun t => t.object ≠ b).length < ts.length :=
      List.length_filter_lt_length_iff_exists.2 ⟨_, last, by simp⟩
    rcases rest with rfl | rest
    · exact ⟨1, by omega, .single last⟩
    · obtain ⟨n, hn, chain⟩ := ih _ (hlen ▸ fewer) rest rfl
      exact ⟨n + 1, by omega, (chain.mono fun link => (List.mem_filter.1 link).1).tail last⟩

end

/-! ## The two rules -/

/-- The clause that asks for two terms with a triple between them. -/
def edge (x p y : String) : Triple := ⟨.var x, .iri p, .var y⟩

/-- A link is a path. -/
def pathStart (link path : String) : Rule := .ofLists [edge "x" link "y"] [edge "x" path "y"]

/-- A path followed by a link is a path. -/
def pathStep (link path : String) : Rule :=
  .ofLists [edge "x" path "y", edge "y" link "z"] [edge "x" path "z"]

section
variable {p x y : String} {s : Bindings} {t : Triple}

theorem edge_isFlat : (edge x p y).IsFlat := by
  simp [Triple.IsFlat, edge, Triple.terms, Term.isFormula]

theorem edge_isComputed (h : (Term.iri p).builtin? = none) : (edge x p y).isComputed = false := by
  simp [Triple.isComputed, Term.isBuiltin, edge, h]

@[simp] theorem slots_edge : (edge x p y).slots = [.var x, .var y] := rfl

theorem hasVar_iri {a b : Term} :
    (⟨a, .iri p, b⟩ : Triple).hasVar = false ↔ a.isVar = false ∧ b.isVar = false := by
  simp [Triple.hasVar, Triple.terms, show (Term.iri p).isVar = false from rfl]

theorem matches_edge : (edge x p y).Matches t s ↔ ∃ a b, t = ⟨a, .iri p, b⟩ ∧ t.hasVar = false ∧
    s.get? (.var x) = some a ∧ s.get? (.var y) = some b := by
  obtain ⟨a, q, b⟩ := t
  constructor
  · rintro ⟨⟨ha, hx⟩, rfl, hb, hy⟩
    exact ⟨a, b, rfl, hasVar_iri.2 ⟨ha, hb⟩, hx, hy⟩
  · rintro ⟨a, b, ⟨⟩, noVar, hx, hy⟩
    have noVar := hasVar_iri.1 noVar
    exact ⟨⟨noVar.1, hx⟩, rfl, noVar.2, hy⟩

theorem exists_matches_edge {g : Graph} : (∃ t ∈ g.toList, (edge x p y).Matches t s) ↔
    ∃ a b, Linked g.toList p a b ∧ s.get? (.var x) = some a ∧ s.get? (.var y) = some b := by
  simp only [matches_edge]
  constructor
  · rintro ⟨t, ht, a, b, rfl, -, hx, hy⟩
    exact ⟨a, b, ht, hx, hy⟩
  · rintro ⟨a, b, link, hx, hy⟩
    exact ⟨_, link, a, b, rfl, g.noVar _ link, hx, hy⟩

theorem linked_instances {config : Config} {facts guarding : Graph} (hp : (Term.iri p).builtin? = none)
    (hxy : x ≠ y) (h : Guard.instances config (.graph facts) [edge x p y] = .ok guarding) {a b : Term} :
    Linked guarding.toList p a b ↔ Linked facts.toList p a b := by
  have stored : ∀ c ∈ [edge x p y], c.isComputed = false := by simp [edge_isComputed hp]
  constructor
  · exact Guard.mem_instances stored (by simp [edge_isFlat]) h
  · intro link
    let s := Bindings.ofList [(.var x, a), (.var y, b)]
    have hx : s.get? (.var x) = some a := by simp [s, Bindings.ofList, Bindings.get?_insert, hxy]
    have hy : s.get? (.var y) = some b := by simp [s, Bindings.ofList]
    have matched : (edge x p y).Matches ⟨a, .iri p, b⟩ s :=
      matches_edge.2 ⟨a, b, rfl, facts.noVar _ link, hx, hy⟩
    have found := Guard.substitute_mem_instances stored h
      (List.forall_mem_singleton.2 ⟨_, link, matched⟩) (List.mem_singleton_self _)
    rwa [Triple.substitute_of_flat edge_isFlat matched] at found

theorem feeds_edge {q x' y' : String} {m : Correspondence} :
    (edge x p y).feeds (edge x' q y') m = (decide (q = p), m) := by
  by_cases h : q = p <;> simp [edge, Triple.feeds, Term.feeds, Term.isSlot, h]

end

section
variable {link path : String} {config : Config} {D : OrderedSet Triple} {t : Triple}
  (hlink : (Term.iri link).builtin? = none) (hpath : (Term.iri path).builtin? = none)
include hlink

variable (path) in
theorem pathStart_isPlain : (pathStart link path).IsPlain [edge "x" link "y"] [edge "x" path "y"] where
  condition := rfl
  conclusion := rfl
  flat := by simp [edge_isFlat]
  scopeFree := by simp [Triple.scopeFree_of_stored, edge_isComputed hlink]

theorem mem_derive_pathStart {g : Graph} (hD : (pathStart link path).derive config (.graph g) = .ok D) :
    t ∈ D ↔ ∃ a b, t = ⟨a, .iri path, b⟩ ∧ Linked g.toList link a b := by
  rw [(pathStart_isPlain path hlink).mem_derive_matched (by simp [edge_isComputed hlink]) edge_isFlat
    (by simp) hD]
  simp only [List.forall_mem_singleton, Store.toList, exists_matches_edge]
  constructor
  · rintro ⟨s, ⟨a, b, hab, hx, hy⟩, ht⟩
    obtain ⟨a', b', rfl, -, hx', hy'⟩ := matches_edge.1 ht
    obtain rfl := Option.some.inj (hx.symm.trans hx')
    obtain rfl := Option.some.inj (hy.symm.trans hy')
    exact ⟨a, b, rfl, hab⟩
  · rintro ⟨a, b, rfl, hab⟩
    let s := Bindings.ofList [(.var "x", a), (.var "y", b)]
    have hx : s.get? (.var "x") = some a := by simp [s, Bindings.ofList, Bindings.get?_insert]
    have hy : s.get? (.var "y") = some b := by simp [s, Bindings.ofList]
    exact ⟨s, ⟨a, b, hab, hx, hy⟩,
      matches_edge.2 ⟨a, b, rfl, hasVar_iri.2 (hasVar_iri.1 (g.noVar _ hab)), hx, hy⟩⟩

include hpath

theorem pathStep_stored : ∀ c ∈ [edge "x" path "y", edge "y" link "z"], c.isComputed = false := by
  simp [edge_isComputed hlink, edge_isComputed hpath]

theorem pathStep_isBasic :
    (pathStep link path).IsBasic [edge "x" path "y", edge "y" link "z"] (edge "x" path "z") where
  plain := {
    condition := rfl
    conclusion := rfl
    flat := by simp [edge_isFlat]
    scopeFree := by simp [Triple.scopeFree_of_stored, edge_isComputed hlink, edge_isComputed hpath] }
  noBlank := by simp [edge, Triple.terms, Term.isBlank]

theorem readClauses_pathStep : Formula.readClauses [edge "x" path "y", edge "y" link "z"] =
    [edge "x" path "y", edge "y" link "z"] := by
  rw [Formula.readClauses_eq_filter (pathStep_isBasic hlink hpath).plain.scopeFree]
  simp [edge_isComputed hlink, edge_isComputed hpath]

theorem mem_derive_pathStep {g : Graph} (hD : (pathStep link path).derive config (.graph g) = .ok D) :
    t ∈ D ↔ ∃ a b c, t = ⟨a, .iri path, c⟩ ∧ Linked g.toList path a b ∧ Linked g.toList link b c := by
  rw [(pathStep_isBasic hlink hpath).plain.mem_derive_matched (pathStep_stored hlink hpath) edge_isFlat
    (by simp) hD]
  simp only [List.forall_mem_cons, Store.toList, exists_matches_edge]
  constructor
  · rintro ⟨s, ⟨⟨a, b, first, hx, hy⟩, ⟨b', c, second, hy', hz⟩, -⟩, ht⟩
    obtain ⟨a', c', rfl, -, hx', hz'⟩ := matches_edge.1 ht
    obtain rfl := Option.some.inj (hx.symm.trans hx')
    obtain rfl := Option.some.inj (hy.symm.trans hy')
    obtain rfl := Option.some.inj (hz.symm.trans hz')
    exact ⟨a, b, c, rfl, first, second⟩
  · rintro ⟨a, b, c, rfl, first, second⟩
    let s := Bindings.ofList [(.var "x", a), (.var "y", b), (.var "z", c)]
    have hx : s.get? (.var "x") = some a := by simp [s, Bindings.ofList, Bindings.get?_insert]
    have hy : s.get? (.var "y") = some b := by simp [s, Bindings.ofList, Bindings.get?_insert]
    have hz : s.get? (.var "z") = some c := by simp [s, Bindings.ofList]
    have ends := And.intro (hasVar_iri.1 (g.noVar _ first)).1 (hasVar_iri.1 (g.noVar _ second)).2
    exact ⟨s, ⟨⟨a, b, first, hx, hy⟩, ⟨b, c, second, hy, hz⟩, List.forall_mem_nil _⟩,
      matches_edge.2 ⟨a, c, rfl, hasVar_iri.2 ends, hx, hz⟩⟩

/-! ## Rounds -/

variable (ne : path ≠ link)
include ne

/-- So many rounds derive the paths that a path among the facts and so many links make. -/
theorem mem_naive_pathStep {facts : Graph} {n : Nat} {N : OrderedSet Triple}
    (hN : (pathStep link path).naive config facts n = .ok N) : t ∈ N ↔ ∃ a b c, t = ⟨a, .iri path, c⟩ ∧
      Linked facts.toList path a b ∧ ∃ m ≤ n, Chained facts.toList link m b c := by
  induction n generalizing N t with
  | zero =>
    obtain rfl := Except.ok.inj hN
    refine iff_of_false List.not_mem_nil ?_
    rintro ⟨a, b, c, -, -, m, hm, chain⟩
    exact absurd chain.pos (by omega)
  | succ n ih =>
    obtain ⟨known, store, found, hknown, hstore, hfound, rfl⟩ := Rule.naive_succ_eq_ok.1 hN
    -- A round adds no links, so it puts a link of the facts at the end of every path known so far.
    have linked : ∀ {a b}, Linked store.toList link a b ↔ Linked facts.toList link a b := by
      intro a b
      refine (Graph.mem_addAll hstore).trans (or_iff_left fun h => ?_)
      obtain ⟨_, _, _, e, -⟩ := (ih hknown).1 h
      exact ne (Term.iri.inj (congrArg Triple.predicate e)).symm
    rw [OrderedSet.mem_insertAll, ih hknown, ← OrderedSet.mem_def, mem_derive_pathStep hlink hpath hfound]
    constructor
    · rintro (⟨a, b, c, rfl, first, m, hm, chain⟩ | ⟨a, b, c, rfl, first, second⟩)
      · exact ⟨a, b, c, rfl, first, m, by omega, chain⟩
      rcases (Graph.mem_addAll hstore).1 first with first | first
      · exact ⟨a, b, c, rfl, first, 1, by omega, .single (linked.1 second)⟩
      · obtain ⟨a', d, b', e, first, m, hm, chain⟩ := (ih hknown).1 first
        cases e
        exact ⟨a, d, c, rfl, first, m + 1, by omega, chain.tail (linked.1 second)⟩
    · rintro ⟨a, b, c, rfl, first, m, hm, chain⟩
      right
      cases chain with
      | single link => exact ⟨a, b, c, rfl, (Graph.mem_addAll hstore).2 (.inl first), linked.2 link⟩
      | @tail k _ d _ chain link =>
        refine ⟨a, d, c, rfl, (Graph.mem_addAll hstore).2 (.inr ?_), linked.2 link⟩
        exact (ih hknown).2 ⟨a, b, d, rfl, first, k, by omega, chain⟩

/-- The links are the guard, whichever of the two rules makes the paths. -/
theorem split_pathStep {producer : Rule} {x y : String}
    (hG : producer.conclusion = .formula [edge x path y]) : Guard.split producer (pathStep link path) =
      .ok ⟨[edge "y" link "z"], [edge "x" path "y"]⟩ := by
  have one : (residualClauses [edge "x" path "y", edge "y" link "z"] [edge x path y]).toList =
      [[edge "y" link "z"]] := by
    simp only [residualClauses, Pairing.residuals, Triple.feeders, List.length_singleton, Pairing.residualsOf,
      Pairing.endings, Pairing.picks, List.map, List.flatMap_cons, feeds_edge, ne.symm]
    rfl
  have rest : [edge "x" path "y", edge "y" link "z"].filter (fun c => c ∉ [edge "y" link "z"]) =
      [edge "x" path "y"] := by simp [edge, ne]
  rw [Guard.split_eq_ok hG (pathStep_isBasic hlink hpath).plain.condition, readClauses_pathStep hlink hpath, one]
  exact ⟨rfl, congrArg Formula.ofList rest.symm⟩

/-- The rounds end only when every chain of links has been followed to its end. -/
theorem deriveRecursive_pathStep (unlimited : config.roundLimit = none) (facts : Graph) :
    ∃ D, ((pathStep link path).deriveRecursive config (.graph facts)).result = .ok D ∧
      ∀ t, t ∈ D ↔ ∃ a b c, t = ⟨a, .iri path, c⟩ ∧ Linked facts.toList path a b ∧
        Relation.TransGen (Linked facts.toList link) b c := by
  have basic := pathStep_isBasic hlink hpath
  have hsplit : Guard.split (pathStep link path) (pathStep link path) =
      .ok ⟨[edge "y" link "z"], [edge "x" path "y"]⟩ := split_pathStep hlink hpath ne rfl
  obtain ⟨D, hD⟩ := basic.plain.exists_deriveRecursive config facts hsplit
  have nodup : [edge "x" path "y", edge "y" link "z"].Nodup := by simp [edge]
  obtain ⟨split, guarding, resting, N, hsplit', hguard, -, hN, same⟩ :=
    basic.deriveRecursive_yields nodup config facts D hD fun _ _ => trivial
  obtain rfl := Except.ok.inj (hsplit.symm.trans hsplit')
  have links : ∀ {a b}, Linked guarding.toList link a b ↔ Linked facts.toList link a b :=
    linked_instances hlink (by decide) hguard
  refine ⟨D, hD, fun t => ?_⟩
  rw [same, mem_naive_pathStep hlink hpath ne hN]
  -- There is a round for every link, and no chain needs more links than there are.
  have bound : config.rounds (Guard.bound ⟨[edge "y" link "z"], [edge "x" path "y"]⟩ guarding resting) =
      guarding.toList.length := by
    simp [Config.rounds, unlimited, Guard.bound, Graph.size, Graph.toList]
  rw [bound]
  constructor
  · rintro ⟨a, b, c, rfl, first, m, -, chain⟩
    exact ⟨a, b, c, rfl, first, chain.transGen⟩
  · rintro ⟨a, b, c, rfl, first, chain⟩
    obtain ⟨m, hm, chain⟩ := exists_chained_le (chain.lift id fun _ _ => links.2)
    exact ⟨a, b, c, rfl, first, m, hm, chain.mono links.1⟩

end

/-! ## The two strata -/

namespace Stratum

variable {rules : List Rule} {r : Rule} {i : Nat} (hi : rules[i]? = some r) (config : Config) (facts : Graph)
include hi

theorem derive_simple : (derive ⟨[i], .simple⟩ config facts rules (.ofRules rules)).result =
    r.derive config (.graph facts) := by
  simp [derive, hi]

theorem derive_recursive : derive ⟨[i], .recursive⟩ config facts rules (.ofRules rules) =
    r.deriveRecursive config (.graph facts) := by
  simp [derive, hi]

end Stratum

/-- A rule that does not feed itself before one that does: a pass, and then rounds on what it found too. -/
theorem infer_simple_recursive {config : Config} {rules : List Rule} {first second : Rule} {i j : Nat}
    (hi : rules[i]? = some first) (hj : rules[j]? = some second)
    (strata : stratify rules (.ofRules rules) = [⟨[i], .simple⟩, ⟨[j], .recursive⟩]) {facts : List Triple}
    {D : OrderedSet Triple} (hD : (infer facts rules config).result = .ok D) :
    ∃ start grown found more, Graph.ofList facts = .ok start ∧ first.derive config (.graph start) = .ok found ∧
      (∀ t, t ∈ grown.toList ↔ t ∈ start.toList ∨ t ∈ found) ∧
      (second.deriveRecursive config (.graph grown)).result = .ok more ∧ ∀ t, t ∈ D ↔ t ∈ found ∨ t ∈ more := by
  obtain ⟨start, es, hstart, evaluates, recorded, mem⟩ := infer_evaluates hD
  rw [strata] at recorded
  obtain ⟨e, later, rfl, he, recorded⟩ := List.map_eq_cons_iff.1 recorded
  obtain ⟨e', rest, rfl, he', recorded⟩ := List.map_eq_cons_iff.1 recorded
  obtain rfl := List.map_eq_nil_iff.1 recorded
  cases evaluates with
  | @cons _ _ grown found _ derives grows evaluates =>
  cases evaluates with
  | @cons _ _ _ more _ derives' _ _ =>
  obtain rfl : _ = _ := he
  obtain rfl : _ = _ := he'
  rw [Stratum.derive_simple hi] at derives
  rw [Stratum.derive_recursive hj] at derives'
  exact ⟨start, grown, found, more, hstart, derives, grows, derives', fun t => by simp [mem]⟩

section
variable {link path : String} {config : Config} {D : OrderedSet Triple} {t : Triple}
  (hlink : (Term.iri link).builtin? = none) (hpath : (Term.iri path).builtin? = none) (ne : path ≠ link)
include hlink hpath ne

theorem feeds_pathStep {x y : String} :
    conclusionFeeds (.formula [edge x path y]) (pathStep link path).condition = true := by
  have hG : (Rule.ofLists [] [edge x path y]).conclusion = .formula [edge x path y] := rfl
  refine Guard.conclusionFeeds_of_split hG (pathStep_isBasic hlink hpath).plain.condition
    (List.cons_ne_nil _ _) ?_ (split_pathStep hlink hpath ne hG)
  rw [readClauses_pathStep hlink hpath]
  exact List.cons_ne_nil _ _

omit hpath in
theorem not_feeds_pathStart {x y : String} :
    conclusionFeeds (.formula [edge x path y]) (pathStart link path).condition = false := by
  have plain := pathStart_isPlain path hlink
  have read : Formula.readClauses [edge "x" link "y"] = [edge "x" link "y"] := by
    rw [Formula.readClauses_eq_filter plain.scopeFree]
    simp [edge_isComputed hlink]
  rw [plain.condition, conclusionFeeds, read, Pairing.anyResidual_eq]
  simp only [Pairing.residuals, Triple.feeders, List.length_singleton, Pairing.residualsOf,
    Pairing.endings, Pairing.picks, List.map, List.flatMap_cons, feeds_edge, ne.symm]
  · rfl
  · exact List.cons_ne_nil _ _

/-- The paths are started in one stratum and extended in the next, whichever rule is written first. -/
theorem stratify_path {rules : List Rule} (perm : rules.Perm [pathStart link path, pathStep link path]) :
    ∃ i j, rules[i]? = some (pathStart link path) ∧ rules[j]? = some (pathStep link path) ∧
      stratify rules (.ofRules rules) = [⟨[i], .simple⟩, ⟨[j], .recursive⟩] := by
  have negative := (pathStart_isPlain path hlink).opensNoScope.not_negative
  have start : (pathStart link path).conclusion = .formula [edge "x" path "y"] := rfl
  have step : (pathStep link path).conclusion = .formula [edge "x" path "z"] := rfl
  have toStart := fun x y => not_feeds_pathStart hlink ne (x := x) (y := y)
  have toStep := fun x y => feeds_pathStep hlink hpath ne (x := x) (y := y)
  rcases List.perm_pair.1 perm with rfl | rfl
  · have graph : DependencyGraph.ofRules [pathStart link path, pathStep link path] =
        ⟨[[], [0, 1]], by decide⟩ := by
      simp [DependencyGraph.ofRules, List.range_succ, start, step, toStart, toStep]
    have components : (⟨[[], [0, 1]], by decide⟩ : DependencyGraph).components = [[0], [1]] := by decide
    refine ⟨0, 1, rfl, rfl, ?_⟩
    rw [graph, stratify, components]
    simp [stratumKind, DependencyGraph.isSelfDependent, DependencyGraph.dependsOn, negative]
  · have graph : DependencyGraph.ofRules [pathStep link path, pathStart link path] =
        ⟨[[0, 1], []], by decide⟩ := by
      simp [DependencyGraph.ofRules, List.range_succ, start, step, toStart, toStep]
    have components : (⟨[[0, 1], []], by decide⟩ : DependencyGraph).components = [[1], [0]] := by decide
    refine ⟨1, 0, rfl, rfl, ?_⟩
    rw [graph, stratify, components]
    simp [stratumKind, DependencyGraph.isSelfDependent, DependencyGraph.dependsOn, negative]

theorem exists_infer_path (unlimited : config.roundLimit = none) {rules : List Rule}
    (perm : rules.Perm [pathStart link path, pathStep link path]) {facts : List Triple}
    (noVar : ∀ t ∈ facts, t.hasVar = false) : ∃ D, (infer facts rules config).result = .ok D := by
  obtain ⟨i, j, hi, hj, strata⟩ := stratify_path hlink hpath ne perm
  have plain : ∀ r ∈ rules, ∃ F G, r.IsPlain F G := by
    intro r hr
    rcases List.mem_pair.1 (perm.mem_iff.1 hr) with rfl | rfl
    · exact ⟨_, _, pathStart_isPlain path hlink⟩
    · exact ⟨_, _, (pathStep_isBasic hlink hpath).plain⟩
  have closes : ∀ r ∈ rules, r.Closes config {t | t.hasVar = false} := by
    intro r hr g D _ hD
    obtain ⟨F, G, h⟩ := plain r hr
    exact Rule.hasVar_of_derive h.conclusion hD
  refine (infer_ends (fun _ _ h => h) plain closes noVar fun _ => ?_).succeeds trivial
  rw [strata]
  obtain ⟨D, hD, -⟩ := Rule.derive_eq_ok (pathStart_isPlain path hlink) config (.graph ∅)
  obtain ⟨E, hE, -⟩ := deriveRecursive_pathStep hlink hpath ne unlimited ∅
  have first := (Stratum.derive_simple hi config ∅).trans hD
  have second := (congrArg Run.result (Stratum.derive_recursive hj config ∅)).trans hE
  exact List.forall_mem_cons.2 ⟨⟨∅, D, first⟩, List.forall_mem_singleton.2 ⟨∅, E, second⟩⟩

theorem mem_infer_path (unlimited : config.roundLimit = none) {rules : List Rule}
    (perm : rules.Perm [pathStart link path, pathStep link path]) {facts : List Triple}
    (fresh : ∀ t ∈ facts, t.predicate ≠ .iri path) (hD : (infer facts rules config).result = .ok D) :
    t ∈ D ↔ ∃ a b, t = ⟨a, .iri path, b⟩ ∧ Relation.TransGen (Linked facts link) a b := by
  obtain ⟨i, j, hi, hj, strata⟩ := stratify_path hlink hpath ne perm
  obtain ⟨start, grown, found, more, hstart, hfound, grows, hmore, mem⟩ := infer_simple_recursive hi hj strata hD
  have mem_start : ∀ u, u ∈ start.toList ↔ u ∈ facts := fun u => Graph.mem_ofList hstart
  have mem_found : ∀ u, u ∈ found ↔ ∃ a b, u = ⟨a, .iri path, b⟩ ∧ Linked facts link a b := by
    intro u
    simp only [mem_derive_pathStart hlink hfound, Linked, mem_start]
  have links : Linked grown.toList link = Linked facts link := by
    funext a b
    refine propext ((grows _).trans ((or_congr (mem_start _) (mem_found _)).trans (or_iff_left ?_)))
    rintro ⟨_, _, e, -⟩
    exact ne (Term.iri.inj (congrArg Triple.predicate e)).symm
  have paths : Linked grown.toList path = Linked facts link := by
    funext a b
    refine propext ((grows _).trans ((or_congr (mem_start _) (mem_found _)).trans ?_))
    constructor
    · rintro (known | ⟨_, _, ⟨⟩, link⟩)
      · exact absurd rfl (fresh _ known)
      · exact link
    · exact fun link => .inr ⟨a, b, rfl, link⟩
  obtain ⟨E, hE, mem_more⟩ := deriveRecursive_pathStep hlink hpath ne unlimited grown
  obtain rfl := Except.ok.inj (hE.symm.trans hmore)
  rw [mem, mem_found, mem_more, links, paths]
  constructor
  · rintro (⟨a, b, rfl, link⟩ | ⟨a, b, c, rfl, link, chain⟩)
    · exact ⟨a, b, rfl, .single link⟩
    · exact ⟨a, c, rfl, chain.head link⟩
  · rintro ⟨a, c, rfl, chain⟩
    obtain ⟨b, link, rest⟩ := Relation.TransGen.head'_iff.1 chain
    rcases Relation.reflTransGen_iff_eq_or_transGen.1 rest with rfl | rest
    · exact .inl ⟨a, c, rfl, link⟩
    · exact .inr ⟨a, b, c, rfl, link, rest⟩

variable (link path config) in
/-- From the links the two rules derive their transitive closure, and the rule that extends paths continues
the paths that there are along every chain of links, whatever cycles the links make. -/
theorem infer_transitiveClosure (unlimited : config.roundLimit = none) :
    (∀ facts : Graph, ∃ D, ((pathStep link path).deriveRecursive config (.graph facts)).result = .ok D ∧
      ∀ t, t ∈ D ↔ ∃ a b c, t = ⟨a, .iri path, c⟩ ∧ Linked facts.toList path a b ∧
        Relation.TransGen (Linked facts.toList link) b c) ∧
    ∀ rules : List Rule, rules.Perm [pathStart link path, pathStep link path] →
      ∀ facts : List Triple, (∀ t ∈ facts, t.hasVar = false) → (∀ t ∈ facts, t.predicate ≠ .iri path) →
        ∃ D, (infer facts rules config).result = .ok D ∧
          ∀ t, t ∈ D ↔ ∃ a b, t = ⟨a, .iri path, b⟩ ∧ Relation.TransGen (Linked facts link) a b := by
  refine ⟨deriveRecursive_pathStep hlink hpath ne unlimited, fun rules perm facts noVar fresh => ?_⟩
  obtain ⟨D, hD⟩ := exists_infer_path hlink hpath ne unlimited perm noVar
  exact ⟨D, hD, fun t => mem_infer_path hlink hpath ne unlimited perm fresh hD⟩

end

/-- A path goes round the cycle as often as it takes to come back to where it started. -/
theorem infer_transitiveClosure_cycle :
    let link (x y : Term) : Triple := ⟨x, .iri "next", y⟩
    let path (x y : Term) : Triple := ⟨x, .iri "reach", y⟩
    let facts := [link (.iri "a") (.iri "b"), link (.iri "b") (.blank "n"), link (.blank "n") (.iri "a"),
      link (.blank "n") (.literal (.string "end"))]
    (∃ g D, Graph.ofList (path (.iri "s") (.iri "a") :: facts) = .ok g ∧
      ((pathStep "next" "reach").deriveRecursive {} (.graph g)).result = .ok D ∧
      path (.iri "s") (.iri "a") ∈ D) ∧
    ∃ D, (infer facts [pathStep "next" "reach", pathStart "next" "reach"]).result = .ok D ∧
      path (.iri "a") (.iri "a") ∈ D ∧ path (.literal (.string "end")) (.iri "a") ∉ D := by
  intro link path facts
  obtain ⟨extend, close⟩ := infer_transitiveClosure "next" "reach" {} (by decide) (by decide) (by decide) rfl
  have chain : ∀ {ts}, (∀ t ∈ facts, t ∈ ts) →
      Relation.TransGen (Linked ts "next") (.iri "a") (.iri "a") := by
    intro ts sub
    have first : Linked ts "next" (.iri "a") (.iri "b") := sub _ (by decide)
    have second : Linked ts "next" (.iri "b") (.blank "n") := sub _ (by decide)
    have third : Linked ts "next" (.blank "n") (.iri "a") := sub _ (by decide)
    exact ((Relation.TransGen.single first).tail second).tail third
  constructor
  · have noVar : ∀ t ∈ path (.iri "s") (.iri "a") :: facts, t.hasVar = false := by decide
    obtain ⟨g, hg⟩ := Graph.exists_addAll noVar ∅
    obtain ⟨D, hD, mem⟩ := extend g
    have known : ∀ t ∈ path (.iri "s") (.iri "a") :: facts, t ∈ g.toList := fun t => (Graph.mem_ofList hg).2
    refine ⟨g, D, hg, hD, (mem _).2 ⟨_, _, _, rfl, known _ (List.mem_cons_self ..), chain fun t ht => ?_⟩⟩
    exact known t (List.mem_cons_of_mem _ ht)
  · obtain ⟨D, hD, mem⟩ := close [pathStep "next" "reach", pathStart "next" "reach"] (List.Perm.swap ..) facts
      (by decide) (by decide)
    refine ⟨D, hD, (mem _).2 ⟨_, _, rfl, chain fun _ h => h⟩, fun h => ?_⟩
    obtain ⟨a, b, e, away⟩ := (mem _).1 h
    obtain ⟨c, first, -⟩ := Relation.TransGen.head'_iff.1 away
    cases e
    have ends : ∀ t ∈ facts, t.subject ≠ .literal (.string "end") := by decide
    exact ends _ first rfl

end TripleChain
