import TripleChain.Proofs.Monotone
import TripleChain.Proofs.Negation

/-!
# Inclusion in the facts at hand

A scope without a value stands for the store that is searched, so that matching a quoted formula there is
matching its clauses (`Search.finds_solveWith`). A condition in which such an inclusion is replaced by the
clauses that it quotes has the same matches, and the rule derives the same triples (`Rule.derive_ambient`).
-/

namespace TripleChain

/-- The search comes to its end and finds what has the property. -/
structure Answers.Finds (a : Answers) (P : Bindings → Prop) : Prop where
  complete : a.complete = true
  found : ∀ s, s ∈ a.found ↔ P s

/-- The clauses that a clause stands for: those that it quotes, if it is an inclusion. -/
def Triple.parts (c : Triple) : List Triple :=
  match c.predicate.builtin?, c.object with
  | some .includes, .formula P => P
  | _, _ => [c]

/-- The clause that the formula matches in the scope that `d` names. -/
def Triple.inclusion (d : Term) (P : List Triple) : Triple := ⟨d, .iri Vocabulary.includes, .quoting P⟩

/-- The clause is looked up, or says that some that are looked up match in a scope without a value. -/
inductive Triple.Inlines (isOpen : Term → Prop) : Triple → Prop where
  | stored {c : Triple} (stored : c.isComputed = false) : Inlines isOpen c
  | ambient {d : Term} {P : Formula} (slot : d.isSlot = true) (unbound : isOpen d)
      (stored : ∀ c ∈ P, c.isComputed = false) : Inlines isOpen ⟨d, .iri Vocabulary.includes, .formula P⟩

section
variable {store : Store} {a : Answers} {b : Bindings} {c : Triple} {cs : List Triple} {isOpen : Term → Prop}

theorem Answers.finds_all {bs : List Bindings} {P : Bindings → Prop} (h : ∀ s, s ∈ bs ↔ P s) :
    (all bs).Finds P := ⟨rfl, h⟩

theorem Answers.Finds.andThen {P : Bindings → Prop} {Q : Bindings → Bindings → Prop}
    {next : Bindings → Answers} (h : a.Finds P) (hn : ∀ m, P m → (next m).Finds (Q m)) :
    (a.andThen next).Finds fun s => ∃ m, P m ∧ Q m s := by
  have complete : (a.andThen next).complete = true :=
    complete_andThen.2 ⟨h.complete, fun m hm => (hn m ((h.found m).1 hm)).complete⟩
  refine ⟨complete, fun s => ?_⟩
  rw [found_andThen complete, List.mem_flatMap]
  refine exists_congr fun m => ?_
  rw [h.found]
  exact and_congr_right fun hm => (hn m hm).found s

theorem Store.isMatch_congr {ds : List Triple} {s : Bindings} (h : ∀ c, c ∈ cs ↔ c ∈ ds) :
    store.IsMatch cs b s ↔ store.IsMatch ds b s := ⟨.congr h, .congr fun c => (h c).symm⟩

theorem Triple.parts_of_stored (h : c.isComputed = false) : c.parts = [c] := by
  rw [parts, builtin?_of_stored h]

/-! ## Matching in the facts at hand -/

namespace Search

/-- A search for clauses that are looked up finds their matches, in whatever order they are. -/
theorem finds_stored (inner : Solver) (store : Store) {ds : List Triple} (stored : ∀ c ∈ cs, c.isComputed = false)
    (same : ∀ c, c ∈ ds ↔ c ∈ cs) : (solveWith inner store ds b).Finds (store.IsMatch cs b) := by
  rw [solveWith_stored fun c hc => stored c ((same c).1 hc)]
  refine Answers.finds_all fun s => ?_
  rw [← Store.isMatch_iff]
  exact Store.isMatch_congr same

/-- The search in the scope is one of the store, and starts from the bindings that there are. -/
theorem finds_extend (store : Store) (depth : Nat) (hc : c.Inlines isOpen) (hb : ∀ d, isOpen d → d ∉ b.keys) :
    (extend (solveScope (depth + 1)) store c b).Finds (store.IsMatch c.parts b) := by
  cases hc with
  | stored stored =>
    have alone : ∀ d ∈ [c], d.isComputed = false := by simpa using stored
    rw [Triple.parts_of_stored stored, extend_scopeFree (Triple.scopeFree_of_stored stored)]
    refine Answers.finds_all fun s => ?_
    rw [Store.isMatch_iff, ← Triple.solutions_stored [c] alone, Triple.solutions]
    exact iff_of_eq (congrArg (s ∈ ·) (List.flatMap_singleton' _).symm)
  | @ambient d P slot unbound stored =>
    have noValue : d.resolve b = none := by
      rw [Term.resolve, if_pos slot]
      exact Bindings.get?_eq_none.2 (hb d unbound)
    have inside : (solveScope (depth + 1) store (orderClauses P b.keys) b).Finds (store.IsMatch P b) :=
      finds_stored _ store stored fun c => (orderClauses_perm P b.keys).mem_iff
    have eval : extend (solveScope (depth + 1)) store ⟨d, .iri Vocabulary.includes, .formula P⟩ b =
        Builtin.whole (solveScope (depth + 1) store (orderClauses P b.keys) b) := by
      show Builtin.evalIncludes _ store d (.formula P) b = _
      rw [Builtin.evalIncludes, noValue]
      rfl
    rw [eval, Builtin.whole, if_pos inside.complete]
    exact inside

/-- A search finds the matches of the clauses that its clauses stand for. Names that are in none of these
stay without a value on the way. -/
theorem finds_solveWith (store : Store) (depth : Nat) (hcs : ∀ c ∈ cs, c.Inlines isOpen)
    (apart : ∀ d, isOpen d → d ∉ Triple.allSlots (cs.flatMap Triple.parts)) (hb : ∀ d, isOpen d → d ∉ b.keys) :
    (solveWith (solveScope (depth + 1)) store cs b).Finds (store.IsMatch (cs.flatMap Triple.parts) b) := by
  induction cs generalizing b with
  | nil => exact finds_stored _ store nofun fun _ => Iff.rfl
  | cons c cs ih =>
    obtain ⟨hc, hcs⟩ := List.forall_mem_cons.1 hcs
    simp only [List.flatMap_cons, Triple.allSlots_eq_flatMap, List.flatMap_append, List.mem_append,
      not_or] at apart
    simp only [← Triple.allSlots_eq_flatMap] at apart
    have here := finds_extend store depth hc hb
    have both := here.andThen fun m hm => ih hcs (fun d hd => (apart d hd).2) fun d hd hm' =>
      ((hm.extends'.keys d).1 hm').elim (hb d hd) (apart d hd).1
    refine ⟨both.complete, fun s => ?_⟩
    rw [List.flatMap_cons, Store.isMatch_append]
    exact both.found s

end Search

/-! ## Rules -/

theorem Store.finds_answers (config : Config) (store : Store) (depth : 0 < config.patience)
    (hcs : ∀ c ∈ cs, c.Inlines isOpen) (apart : ∀ d, isOpen d → d ∉ Triple.allSlots (cs.flatMap Triple.parts)) :
    (store.answers config cs).Finds (store.IsMatch (cs.flatMap Triple.parts) ∅) := by
  have ordered : ∀ e, e ∈ (config.order cs).flatMap Triple.parts ↔ e ∈ cs.flatMap Triple.parts := by
    simp only [List.mem_flatMap, Config.mem_order, implies_true]
  obtain ⟨n, hn⟩ := Nat.exists_eq_add_of_lt depth
  rw [Nat.zero_add] at hn
  rw [Store.answers, Search.solve, hn]
  have inlines : ∀ c ∈ config.order cs, c.Inlines isOpen := fun c hc => hcs c (Config.mem_order.1 hc)
  have apart' : ∀ d, isOpen d → d ∉ Triple.allSlots ((config.order cs).flatMap Triple.parts) := by
    intro d hd
    simpa only [Triple.mem_allSlots, ordered] using apart d hd
  have finds := Search.finds_solveWith store n inlines apart' (b := ∅) fun _ _ hd => absurd hd List.not_mem_nil
  exact ⟨finds.complete, fun s => (finds.found s).trans (Store.isMatch_congr ordered)⟩

end

section
variable {d : Term} {H P : List Triple} (slot : d.isSlot = true) (stored : ∀ c ∈ H ++ P, c.isComputed = false)
include stored

theorem Triple.mem_flatMap_parts {c : Triple} :
    c ∈ (Formula.ofList (inclusion d P :: H)).flatMap parts ↔ c ∈ H ++ P := by
  have itself : ∀ e ∈ H, e.parts = [e] := fun e he => parts_of_stored (stored e (List.mem_append_left _ he))
  rw [List.mem_flatMap]
  simp only [Formula.mem_ofList, List.mem_cons, exists_eq_or_imp, List.mem_append]
  rw [or_comm]
  refine or_congr ⟨?_, fun hc => ⟨c, hc, ?_⟩⟩ Formula.mem_ofList
  · rintro ⟨e, he, hc⟩
    rw [itself e he, List.mem_singleton] at hc
    exact hc ▸ he
  · rw [itself c hc]
    exact List.mem_singleton_self c

include slot in
theorem Triple.inlines_of_mem {c : Triple} (hc : c ∈ Formula.ofList (inclusion d P :: H)) :
    c.Inlines (· = d) := by
  rcases List.mem_cons.1 (Formula.mem_ofList.1 hc) with rfl | hc
  · exact .ambient slot rfl fun e he => stored e (List.mem_append_right _ (Formula.mem_ofList.1 he))
  · exact .stored (stored c (List.mem_append_left _ hc))

include slot in
/-- The inclusion finds what its clauses find in its place. -/
theorem Store.mem_answers_inclusion (config : Config) (store : Store) (depth : 0 < config.patience)
    (fresh : d ∉ Triple.allSlots (H ++ P)) :
    (store.answers config (Formula.ofList (Triple.inclusion d P :: H))).complete = true ∧
      ∀ s, s ∈ (store.answers config (Formula.ofList (Triple.inclusion d P :: H))).found ↔
        s ∈ (store.answers config (Formula.ofList (H ++ P))).found := by
  have parts : ∀ c, c ∈ (Formula.ofList (Triple.inclusion d P :: H)).flatMap Triple.parts ↔ c ∈ H ++ P :=
    fun _ => Triple.mem_flatMap_parts stored
  have apart : ∀ e, e = d →
      e ∉ Triple.allSlots ((Formula.ofList (Triple.inclusion d P :: H)).flatMap Triple.parts) := by
    rintro _ rfl
    simpa only [Triple.mem_allSlots, parts] using fresh
  have nested := store.finds_answers config depth (fun c hc => Triple.inlines_of_mem slot stored hc) apart
  obtain ⟨bs, flat, mem⟩ := store.answers_ofList config stored
  refine ⟨nested.complete, fun s => ?_⟩
  rw [nested.found, flat]
  exact (Store.isMatch_congr parts).trans (mem s).symm

end

/-- A condition with a formula that is to match in the facts at hand has the same matches as one with the
clauses of the formula in its place, and the rule derives the same triples, minted labels included. Searches
must not be left before the first scope. -/
theorem Rule.derive_inclusion (config : Config) (store : Store) (direction : Direction) (d : Term)
    (H P B : List Triple) (depth : 0 < config.patience) (slot : d.isSlot = true)
    (stored : ∀ c ∈ H ++ P, c.isComputed = false) (fresh : d ∉ Triple.allSlots (H ++ P)) :
    ∃ D D', Rule.derive ⟨.quoting (Triple.inclusion d P :: H), direction, .quoting B⟩ config store = .ok D ∧
      Rule.derive ⟨.quoting (H ++ P), direction, .quoting B⟩ config store = .ok D' ∧ ∀ t, t ∈ D ↔ t ∈ D' := by
  obtain ⟨complete, same⟩ := store.mem_answers_inclusion slot stored config depth fresh
  obtain ⟨bs, flat, -⟩ := store.answers_ofList config stored
  obtain ⟨D, hD, mem⟩ := derive_of_complete
    (r := ⟨.quoting (Triple.inclusion d P :: H), direction, .quoting B⟩) rfl rfl complete
  have complete' : (store.answers config (Formula.ofList (H ++ P))).complete = true := by
    rw [flat]
    rfl
  obtain ⟨D', hD', mem'⟩ := derive_of_complete (r := ⟨.quoting (H ++ P), direction, .quoting B⟩) rfl rfl
    complete'
  refine ⟨D, D', hD, hD', fun t => ?_⟩
  rw [mem, mem']
  simp only [same]

/-- Who likes tea is asked inside the inclusion or first of all, and brings the same cup. -/
theorem Rule.derive_inclusion_shared :
    let H : List Triple := [⟨.var "x", .iri "knows", .var "y"⟩]
    let P : List Triple := [⟨.var "y", .iri "likes", .iri "tea"⟩]
    let B : List Triple := [⟨.var "y", .iri "brings", .blank "cup"⟩]
    let store : Store := .formula [⟨.iri "ann", .iri "knows", .iri "ben"⟩,
      ⟨.iri "ann", .iri "knows", .iri "eve"⟩, ⟨.iri "eve", .iri "likes", .iri "tea"⟩,
      ⟨.iri "ben", .iri "likes", .iri "tea"⟩]
    let brings (y : String) : Triple := ⟨.iri y, .iri "brings", mint B (.blank "cup")
      (Bindings.ofList [(.var "x", .iri "ann"), (.var "y", .iri y)])⟩
    0 < Config.patience {} ∧ (Term.var "scope").isSlot = true ∧ (∀ c ∈ H ++ P, c.isComputed = false) ∧
      .var "scope" ∉ Triple.allSlots (H ++ P) ∧
      ∃ D D', (Rule.ofLists (Triple.inclusion (.var "scope") P :: H) B).derive {} store = .ok D ∧
        (Rule.ofLists (H ++ P) B).derive {} store = .ok D' ∧
        D.toList = [brings "ben", brings "eve"] ∧ D'.toList = [brings "eve", brings "ben"] ∧
        ∀ t, t ∈ D ↔ t ∈ D' := by
  intro H P B store brings
  have stored : ∀ c ∈ H ++ P, c.isComputed = false := by decide
  have fresh : .var "scope" ∉ Triple.allSlots (H ++ P) := by decide
  have run : ((Rule.ofLists (Triple.inclusion (.var "scope") P :: H) B).derive {} store).toOption.map
      (·.toList) = some [brings "ben", brings "eve"] := by decide +kernel
  have run' : ((Rule.ofLists (H ++ P) B).derive {} store).toOption.map (·.toList) =
      some [brings "eve", brings "ben"] := by decide +kernel
  obtain ⟨D, D', hD, hD', same⟩ := derive_inclusion {} store .forward (.var "scope") H P B (by decide) rfl
    stored fresh
  obtain ⟨E, hE, found⟩ := exists_ok_of_map run
  obtain ⟨E', hE', found'⟩ := exists_ok_of_map run'
  obtain rfl : D = E := Except.ok.inj (hD.symm.trans hE)
  obtain rfl : D' = E' := Except.ok.inj (hD'.symm.trans hE')
  exact ⟨by decide, rfl, stored, fresh, D, D', hD, hD', found, found', same⟩

end TripleChain
