import Mathlib.Data.List.Chain
import TripleChain.Proofs.Components
import TripleChain.Proofs.Steps

/-!
# Every component has a walk

The search for the next rule of a walk keeps its queue in the order of the path lengths, and every path to
a rule not seen so far leads on from a rule in the queue, so the first rule found is a nearest one. The
rules of a component reach each other inside it, so one is found as long as one is not visited: the walk
covers the component, and no evaluation fails for want of one (`walk_of_components`).
-/

namespace TripleChain

namespace DependencyGraph

/-- A path from one rule to another over members: every rule of it is fed by the one before. -/
inductive Path (g : DependencyGraph) (members : List Nat) : Nat → List Nat → Nat → Prop where
  | nil (i : Nat) : Path g members i [] i
  | cons {i j k : Nat} {path : List Nat} (fed : j ∈ g.triggers i) (mem : j ∈ members)
      (rest : Path g members j path k) : Path g members i (j :: path) k

section
variable {g : DependencyGraph} {members : List Nat} {i j k : Nat} {path path' : List Nat}

theorem Path.append (h : g.Path members i path j) (h' : g.Path members j path' k) :
    g.Path members i (path ++ path') k := by
  induction h with
  | nil => exact h'
  | cons fed mem _ ih => exact .cons fed mem (ih h')

theorem Path.concat (h : g.Path members i path j) (fed : k ∈ g.triggers j) (mem : k ∈ members) :
    g.Path members i (path ++ [k]) k := h.append (.cons fed mem (.nil k))

theorem Path.isChain (h : g.Path members i path k) : (i :: path).IsChain fun a b => b ∈ g.triggers a := by
  induction h with
  | nil => exact .singleton _
  | cons fed _ _ ih => exact .cons_cons fed ih

theorem Path.getLast? (h : g.Path members i path k) : path.getLast?.getD i = k := by
  induction h with
  | nil => rfl
  | cons _ _ _ ih => simpa [List.getLast?_cons] using ih

theorem Path.mem (h : g.Path members i path k) (hi : i ∈ members) : k ∈ members := by
  induction h with
  | nil => exact hi
  | cons _ mem _ ih => exact ih mem

theorem Path.mem_path (h : g.Path members i path k) (hne : i ≠ k) : k ∈ path := by
  induction h with
  | nil => exact absurd rfl hne
  | @cons i j k path _ _ _ ih =>
    rw [List.mem_cons]
    by_cases e : k = j
    · exact .inl e
    · exact .inr (ih (Ne.symm e))

theorem Path.subset (h : g.Path members i path k) : ∀ j ∈ path, j ∈ members := by
  induction h with
  | nil => exact fun _ hj => absurd hj List.not_mem_nil
  | cons _ mem _ ih => exact List.forall_mem_cons.2 ⟨mem, ih⟩

end

/-! ## The search for the nearest rule -/

/-- The path leads to a rule not visited, and no path to such a rule is shorter. -/
structure IsNearest (g : DependencyGraph) (members visited : List Nat) (start : Nat) (path : List Nat)
    (k : Nat) : Prop where
  leads : g.Path members start path k
  fresh : k ∉ visited
  shortest : ∀ path' k', g.Path members start path' k' → k' ∉ visited → path.length ≤ path'.length

/-- Everything that the rule feeds has been seen. -/
def Closed (g : DependencyGraph) (members : List Nat) (start : Nat) (seen : List Nat) (i : Nat) : Prop :=
  ∀ j ∈ g.triggers i, j ∈ members → j ∈ start :: seen

/-- What holds between two steps of the search. -/
structure Searching (g : DependencyGraph) (members visited : List Nat) (start : Nat)
    (queue : List (Nat × List Nat)) (seen : List Nat) : Prop where
  leads : ∀ e ∈ queue, g.Path members start e.2.reverse e.1
  queued : ∀ e ∈ queue, e.1 ∈ start :: seen
  /-- The paths in the queue grow, by one rule at most in all. -/
  levels : queue.Pairwise fun e f => e.2.length ≤ f.2.length ∧ f.2.length ≤ e.2.length + 1
  known : ∀ j ∈ start :: seen, j ∈ visited
  inside : ∀ j ∈ seen, j ∈ members
  nodup : seen.Nodup
  waiting : ∀ j ∈ start :: seen, (∃ e ∈ queue, e.1 = j) ∨ g.Closed members start seen j
  /-- A path to a rule not seen is no shorter than one that goes on from the queue. -/
  front : ∀ path k, g.Path members start path k → k ∉ start :: seen →
    ∃ e ∈ queue, ∃ rest, g.Path members e.1 rest k ∧ e.2.length + rest.length ≤ path.length

section
variable {g : DependencyGraph} {members visited : List Nat} {start : Nat}
  {queue : List (Nat × List Nat)} {seen : List Nat}

theorem searching_start (g : DependencyGraph) (members : List Nat) (h : start ∈ visited) :
    g.Searching members visited start [(start, [])] [] where
  leads := List.forall_mem_singleton.2 (.nil start)
  queued := List.forall_mem_singleton.2 (List.mem_cons_self ..)
  levels := List.pairwise_singleton _ _
  known := List.forall_mem_singleton.2 h
  inside := fun _ hj => absurd hj List.not_mem_nil
  nodup := List.nodup_nil
  waiting := List.forall_mem_singleton.2 (.inl ⟨_, List.mem_singleton_self _, rfl⟩)
  front := fun path k hpath _ => ⟨_, List.mem_singleton_self _, path, hpath, by simp⟩

/-- A path from what was seen to what was not comes by the queue. -/
theorem exists_queued_of_path {i k : Nat} {path : List Nat}
    (waiting : ∀ j ∈ start :: seen, (∃ e ∈ queue, e.1 = j) ∨ g.Closed members start seen j)
    (h : g.Path members i path k) (hi : i ∈ start :: seen) (hk : k ∉ start :: seen) :
    ∃ e ∈ queue, ∃ rest, g.Path members e.1 rest k ∧ rest.length ≤ path.length := by
  induction h with
  | nil => exact absurd hi hk
  | @cons i j k path fed mem rest ih =>
    rcases waiting i hi with ⟨e, he, rfl⟩ | closed
    · exact ⟨e, he, _, .cons fed mem rest, Nat.le_refl _⟩
    · obtain ⟨e, he, rest', hrest, hle⟩ := ih (closed j fed mem) hk
      exact ⟨e, he, rest', hrest, Nat.le_succ_of_le hle⟩

theorem Searching.path_length {i : Nat} {before path : List Nat} {k : Nat}
    (h : g.Searching members visited start ((i, before) :: queue) seen)
    (hpath : g.Path members start path k) (hk : k ∉ visited) : before.length + 1 ≤ path.length := by
  have hseen : k ∉ start :: seen := fun hk' => hk (h.known k hk')
  obtain ⟨e, he, rest, hrest, hle⟩ := h.front path k hpath hseen
  have first : before.length ≤ e.2.length := by
    rcases List.mem_cons.1 he with rfl | he
    · exact Nat.le_refl _
    · exact ((List.pairwise_cons.1 h.levels).1 e he).1
  have pos : 0 < rest.length :=
    List.length_pos_of_mem (hrest.mem_path fun e' => hseen (e' ▸ h.queued e he))
  omega

/-- The rules that a step of the search comes upon. -/
def upcoming (g : DependencyGraph) (start : Nat) (members seen : List Nat) (i : Nat) : List Nat :=
  (g.triggers i).filter fun j => j ≠ start && members.contains j && !seen.contains j

theorem mem_upcoming {i j : Nat} : j ∈ g.upcoming start members seen i ↔
    j ∈ g.triggers i ∧ j ∈ members ∧ j ∉ start :: seen := by
  simp only [upcoming, List.mem_filter, Bool.and_eq_true, List.contains_iff_mem, decide_eq_true_eq,
    Bool.not_eq_true', List.mem_cons, not_or, ← Bool.not_eq_true]
  tauto

theorem nodup_upcoming (i : Nat) : (g.upcoming start members seen i).Nodup :=
  (List.nodup_range.filter _).filter _

theorem searchPath_cons (steps i : Nat) (before : List Nat) :
    g.searchPath start members visited (steps + 1) ((i, before) :: queue) seen =
      match (g.upcoming start members seen i).find? fun j => !visited.contains j with
      | some j => some (j :: before).reverse
      | none => g.searchPath start members visited steps
          (queue ++ (g.upcoming start members seen i).map fun j => (j, j :: before))
          (seen ++ g.upcoming start members seen i) := rfl

theorem mem_seen_grown (i : Nat) {j : Nat} (hj : j ∈ start :: seen) :
    j ∈ start :: (seen ++ g.upcoming start members seen i) := by
  rw [← List.cons_append]
  exact List.mem_append_left _ hj

theorem closed_upcoming (i : Nat) : g.Closed members start (seen ++ g.upcoming start members seen i) i := by
  intro j fed mem
  by_cases hs : j ∈ start :: seen
  · exact mem_seen_grown i hs
  · exact List.mem_cons_of_mem _ (List.mem_append_right _ (mem_upcoming.2 ⟨fed, mem, hs⟩))

section
variable {i : Nat} {before : List Nat} (h : g.Searching members visited start ((i, before) :: queue) seen)
include h

theorem Searching.waiting_step : ∀ j ∈ start :: (seen ++ g.upcoming start members seen i),
    (∃ e ∈ queue ++ (g.upcoming start members seen i).map fun j => (j, j :: before), e.1 = j) ∨
      g.Closed members start (seen ++ g.upcoming start members seen i) j := by
  intro j hj
  rw [← List.cons_append, List.mem_append] at hj
  rcases hj with hj | hj
  · rcases h.waiting j hj with ⟨e, he, rfl⟩ | closed
    · rcases List.mem_cons.1 he with rfl | he
      · exact .inr (closed_upcoming i)
      · exact .inl ⟨e, List.mem_append_left _ he, rfl⟩
    · exact .inr fun l hl hm => mem_seen_grown i (closed l hl hm)
  · exact .inl ⟨_, List.mem_append_right _ (List.mem_map_of_mem hj), rfl⟩

/-- The paths still in the queue are as long as the one just looked at, or longer by one rule. -/
theorem Searching.levels_step :
    (queue ++ (g.upcoming start members seen i).map fun j => (j, j :: before)).Pairwise
        (fun e f => e.2.length ≤ f.2.length ∧ f.2.length ≤ e.2.length + 1) ∧
      ∀ e ∈ queue ++ (g.upcoming start members seen i).map fun j => (j, j :: before),
        e.2.length ≤ before.length + 1 := by
  obtain ⟨first, levels⟩ := List.pairwise_cons.1 h.levels
  have added : ∀ e ∈ (g.upcoming start members seen i).map fun j => (j, j :: before),
      e.2.length = before.length + 1 := by
    intro e he
    obtain ⟨j, -, rfl⟩ := List.mem_map.1 he
    rfl
  refine ⟨List.pairwise_append.2 ⟨levels, ?_, fun e he f hf => ?_⟩, fun e he => ?_⟩
  · exact List.pairwise_map.2 (List.pairwise_of_forall fun _ _ => ⟨Nat.le_refl _, Nat.le_succ _⟩)
  · rw [added f hf]
    exact ⟨(first e he).2, Nat.succ_le_succ (first e he).1⟩
  · rcases List.mem_append.1 he with he | he
    · exact (first e he).2
    · exact Nat.le_of_eq (added e he)

theorem Searching.front_step (path : List Nat) (k : Nat) (hpath : g.Path members start path k)
    (hk : k ∉ start :: (seen ++ g.upcoming start members seen i)) :
    ∃ e ∈ queue ++ (g.upcoming start members seen i).map fun j => (j, j :: before),
      ∃ rest, g.Path members e.1 rest k ∧ e.2.length + rest.length ≤ path.length := by
  obtain ⟨e, he, rest, hrest, hle⟩ := h.front path k hpath fun hk' => hk (mem_seen_grown i hk')
  rcases List.mem_cons.1 he with rfl | he
  · -- The path goes on from the rule just looked at, so by one that has been seen by now.
    cases hrest with
    | nil => exact absurd (mem_seen_grown i (h.queued _ (List.mem_cons_self ..))) hk
    | @cons _ j _ rest fed mem hrest =>
      obtain ⟨e, he, rest', hrest', hle'⟩ :=
        exists_queued_of_path h.waiting_step hrest (closed_upcoming i j fed mem) hk
      have level := h.levels_step.2 e he
      refine ⟨e, he, rest', hrest', ?_⟩
      rw [List.length_cons] at hle
      dsimp only at hle
      omega
  · exact ⟨e, List.mem_append_left _ he, rest, hrest, hle⟩

theorem Searching.step (old : ∀ j ∈ g.upcoming start members seen i, j ∈ visited) :
    g.Searching members visited start
      (queue ++ (g.upcoming start members seen i).map fun j => (j, j :: before))
      (seen ++ g.upcoming start members seen i) where
  leads e he := by
    rcases List.mem_append.1 he with he | he
    · exact h.leads e (List.mem_cons_of_mem _ he)
    · obtain ⟨j, hj, rfl⟩ := List.mem_map.1 he
      rw [List.reverse_cons]
      exact (h.leads _ (List.mem_cons_self ..)).concat (mem_upcoming.1 hj).1 (mem_upcoming.1 hj).2.1
  queued e he := by
    rcases List.mem_append.1 he with he | he
    · exact mem_seen_grown i (h.queued e (List.mem_cons_of_mem _ he))
    · obtain ⟨j, hj, rfl⟩ := List.mem_map.1 he
      exact List.mem_cons_of_mem _ (List.mem_append_right _ hj)
  levels := h.levels_step.1
  known j hj := by
    rw [← List.cons_append, List.mem_append] at hj
    exact hj.elim (h.known j) (old j)
  inside j hj := (List.mem_append.1 hj).elim (h.inside j) fun hj => (mem_upcoming.1 hj).2.1
  nodup := by
    refine List.nodup_append.2 ⟨h.nodup, nodup_upcoming i, ?_⟩
    rintro j hj _ hj' rfl
    exact (mem_upcoming.1 hj').2.2 (List.mem_cons_of_mem _ hj)
  waiting := h.waiting_step
  front := h.front_step

end

/-- The search finds a nearest rule, unless every rule at the end of a path has been visited. -/
theorem searchPath_spec {steps : Nat} (h : g.Searching members visited start queue seen)
    (enough : queue.length + members.length ≤ steps + seen.length) :
    (∃ path k, g.searchPath start members visited steps queue seen = some path ∧
        g.IsNearest members visited start path k) ∨
      ∀ path k, g.Path members start path k → k ∈ visited := by
  have exhausted : queue = [] → ∀ path k, g.Path members start path k → k ∈ visited := by
    rintro rfl path k hpath
    by_contra hk
    obtain ⟨e, he, -⟩ := h.front path k hpath fun hk' => hk (h.known k hk')
    exact List.not_mem_nil he
  induction steps generalizing queue seen with
  | zero =>
    have hle : seen.length ≤ members.length := (h.nodup.subperm fun j hj => h.inside j hj).length_le
    exact .inr (exhausted (List.eq_nil_of_length_eq_zero (by omega)))
  | succ steps ih =>
    cases queue with
    | nil => exact .inr (exhausted rfl)
    | cons e queue =>
      obtain ⟨i, before⟩ := e
      rw [searchPath_cons]
      cases hfind : (g.upcoming start members seen i).find? fun j => !visited.contains j with
      | some j =>
        obtain ⟨fed, mem, -⟩ := mem_upcoming.1 (List.mem_of_find?_eq_some hfind)
        refine .inl ⟨_, j, rfl, ?_, ?_, ?_⟩
        · rw [List.reverse_cons]
          exact (h.leads _ (List.mem_cons_self ..)).concat fed mem
        · simpa using List.find?_some hfind
        · intro path' k' hpath hk
          rw [List.length_reverse, List.length_cons]
          exact h.path_length hpath hk
      | none =>
        have old : ∀ j ∈ g.upcoming start members seen i, j ∈ visited := by
          simpa using List.find?_eq_none.1 hfind
        have next := h.step old
        refine ih next ?_ fun e path k hpath => ?_
        · simp only [List.length_append, List.length_map, List.length_cons] at enough ⊢
          omega
        · by_contra hk
          obtain ⟨f, hf, -⟩ := next.front path k hpath fun hk' => hk (next.known k hk')
          rw [e] at hf
          exact List.not_mem_nil hf

theorem nearest_spec (h : start ∈ visited) {path : List Nat} {k : Nat} (hpath : g.Path members start path k)
    (hk : k ∉ visited) :
    ∃ path k, g.nearest members visited start = some path ∧ g.IsNearest members visited start path k := by
  refine (searchPath_spec (searching_start g members h) ?_).resolve_right fun all => hk (all path k hpath)
  rw [List.length_singleton, List.length_nil]
  omega

end

/-! ## Walks -/

/-- A walk through the members, made by moves to a nearest rule not visited before, that has come to the
given rule. -/
inductive Greedy (g : DependencyGraph) (members : List Nat) : List Nat → Nat → Prop where
  | start {first : Nat} (h : members.head? = some first) : Greedy g members [first] first
  | move {walk path : List Nat} {i k : Nat} (before : Greedy g members walk i)
      (found : g.nearest members walk i = some path) (nearest : g.IsNearest members walk i path k) :
      Greedy g members (walk ++ path) k

section
variable {g : DependencyGraph} {members walk : List Nat} {i : Nat}

theorem Greedy.path (h : g.Greedy members walk i) :
    ∃ first rest, members.head? = some first ∧ walk = first :: rest ∧ g.Path members first rest i := by
  induction h with
  | start h => exact ⟨_, [], h, rfl, .nil _⟩
  | move _ _ nearest ih =>
    obtain ⟨first, rest, hfirst, rfl, hpath⟩ := ih
    exact ⟨first, rest ++ _, hfirst, rfl, hpath.append nearest.leads⟩

theorem Greedy.mem (h : g.Greedy members walk i) : i ∈ walk := by
  obtain ⟨first, rest, -, rfl, hpath⟩ := h.path
  rw [← hpath.getLast?]
  cases hlast : rest.getLast? with
  | none => exact List.mem_cons_self ..
  | some k => exact List.mem_cons_of_mem _ (List.mem_of_getLast? hlast)

theorem Greedy.mem_members (h : g.Greedy members walk i) : i ∈ members := by
  obtain ⟨first, rest, hfirst, -, hpath⟩ := h.path
  exact hpath.mem (List.mem_of_head? hfirst)

theorem size_ofList_append {visited path : List Nat} {k : Nat} (hk : k ∈ path) (fresh : k ∉ visited) :
    (OrderedSet.ofList visited).size < (OrderedSet.ofList (visited ++ path)).size := by
  have sub : (k :: (OrderedSet.ofList visited).toList).Subperm
      (OrderedSet.ofList (visited ++ path)).toList := by
    refine List.Nodup.subperm (List.nodup_cons.2 ⟨?_, (OrderedSet.ofList visited).nodup⟩) fun j hj => ?_
    · exact fun h => fresh (OrderedSet.mem_ofList.1 h)
    · rw [← OrderedSet.mem_def, OrderedSet.mem_ofList, List.mem_append]
      rcases List.mem_cons.1 hj with rfl | hj
      · exact .inr hk
      · exact .inl (OrderedSet.mem_ofList.1 hj)
  exact sub.length_le

/-- As long as some members are not visited, there is one that a path leads to. -/
theorem exists_extendWalk (nodup : members.Nodup)
    (connected : ∀ i ∈ members, ∀ j ∈ members, ∃ path, g.Path members i path j) {steps : Nat}
    (h : g.Greedy members walk i) (enough : members.length < steps + (OrderedSet.ofList walk).size)
    (inside : ∀ j ∈ walk, j ∈ members) :
    ∃ whole last, g.extendWalk members steps i walk = some whole ∧ g.Greedy members whole last := by
  induction steps generalizing walk i with
  | zero =>
    have hle : (OrderedSet.ofList walk).toList.length ≤ members.length :=
      ((OrderedSet.ofList walk).nodup.subperm fun j hj => inside j (OrderedSet.mem_ofList.1 hj)).length_le
    exact absurd (Nat.lt_of_lt_of_le enough (Nat.zero_add _).le) (Nat.not_lt.2 hle)
  | succ steps ih =>
    rw [extendWalk]
    split
    · next more =>
      obtain ⟨j, hj, fresh⟩ : ∃ j ∈ members, j ∉ walk := by
        by_contra! all
        have hle : members.length ≤ (OrderedSet.ofList walk).size :=
          (nodup.subperm fun j hj => OrderedSet.mem_ofList.2 (all j hj)).length_le
        omega
      obtain ⟨path, hpath⟩ := connected i h.mem_members j hj
      obtain ⟨path, k, found, nearest⟩ := nearest_spec h.mem hpath fresh
      rw [found, Option.bind_some, nearest.leads.getLast?]
      refine ih (.move h found nearest) ?_ fun j hj => ?_
      · have hk : k ∈ path := nearest.leads.mem_path fun e => nearest.fresh (e ▸ h.mem)
        have := size_ofList_append hk nearest.fresh
        omega
      · exact (List.mem_append.1 hj).elim (inside j) (nearest.leads.subset j)
    · exact ⟨walk, i, rfl, h⟩

/-! ## Components -/

variable {cs : List (List Nat)}

/-- A rule of a component leads to any other one, without leaving the component. -/
theorem Given.exists_path (h : g.Given cs) (hm : members ∈ cs) {j : Nat} (hi : i ∈ members)
    (hj : j ∈ members) : ∃ path, g.Path members i path j := by
  obtain ⟨hij, hji⟩ := (h.classes members hm i hi j).1 hj
  clear hi
  induction hji with
  | refl => exact ⟨[], .nil _⟩
  | @tail k i hjk hki ih =>
    -- The rule before the last on the way from `j` is fed by the last, and of the component.
    have hkj : g.Reaches k j := .head hki hij
    have hk : k ∈ members := (h.classes members hm j hj k).2 ⟨hjk, hkj⟩
    obtain ⟨path, hpath⟩ := ih hkj
    exact ⟨k :: path, .cons (mem_triggers.2 hki) hk hpath⟩

theorem exists_walk (hm : members ∈ g.components) :
    ∃ walk last, g.walk members = some walk ∧ g.Greedy members walk last := by
  obtain ⟨given, -⟩ := components_given g
  cases members with
  | nil => exact absurd hm given.not_nil
  | cons first others =>
    have nodup : (first :: others).Nodup := (given.ascending _ hm).imp fun {a b} => Nat.ne_of_lt
    refine exists_extendWalk nodup (fun i hi j hj => given.exists_path hm hi hj) (.start rfl) ?_ ?_
    · exact Nat.lt_succ_self _
    · exact List.forall_mem_singleton.2 (List.mem_cons_self ..)

end

end DependencyGraph

/-! ## Faults of an evaluation -/

/-- The result is not a fault for want of a walk. -/
def FindsWalk {α : Type} (x : Except Fault α) : Prop := ∀ r, x ≠ .error (.noWalk r)

section
variable {α β : Type}

theorem findsWalk_ok (a : α) : FindsWalk (.ok a) := nofun

theorem findsWalk_error {e : Fault} (h : ∀ r, e ≠ .noWalk r) : FindsWalk (.error e : Except Fault α) :=
  fun r hr => h r (Except.error.inj hr)

theorem FindsWalk.bind {x : Except Fault α} {f : α → Except Fault β} (h : FindsWalk x)
    (hf : ∀ a, FindsWalk (f a)) : FindsWalk (x.bind f) := by
  cases x with
  | ok a => exact hf a
  | error e => exact findsWalk_error fun r hr => h r (congrArg _ hr)

theorem FindsWalk.map {x : Except Fault α} (f : α → β) (h : FindsWalk x) : FindsWalk (x.map f) := by
  cases x with
  | ok a => exact findsWalk_ok _
  | error e => exact findsWalk_error fun r hr => h r (congrArg _ hr)

end

variable {config : Config} {rules : List Rule} {g : DependencyGraph}

theorem Graph.findsWalk_addAll (g : Graph) (ts : List Triple) : FindsWalk (g.addAll ts) := by
  intro r hr
  obtain ⟨t, -, -, he⟩ := addAll_eq_error hr
  cases he

namespace Rule

variable (r : Rule)

theorem findsWalk_conditionFormula : FindsWalk r.conditionFormula := by
  unfold conditionFormula
  split
  · exact findsWalk_ok _
  · exact findsWalk_error nofun

theorem findsWalk_fireAnswers (a : Answers) : FindsWalk (r.fireAnswers a) := by
  intro s hs
  rcases fireAnswers_eq_error hs with ⟨b, -, hb⟩ | ⟨-, he⟩
  · have kind := (kind_of_fire hb).2
    split at kind <;> cases kind
  · cases he

theorem findsWalk_derive (store : Store) : FindsWalk (r.derive config store) :=
  r.findsWalk_conditionFormula.bind fun _ => r.findsWalk_fireAnswers _

theorem findsWalk_deriveNegated (store : Store) : FindsWalk (r.deriveNegated config store).result := by
  unfold deriveNegated
  simp only [Run.result_bind, Run.result_lift, Run.result_report, Run.result_pure]
  refine (r.findsWalk_conditionFormula.map _).bind fun held => ?_
  refine (r.findsWalk_conditionFormula.map _).bind fun plain => ?_
  refine (plain.findsWalk_derive store).bind fun candidates => ?_
  refine held.findsWalk_conditionFormula.bind fun clauses => ?_
  exact (held.findsWalk_fireAnswers _).bind fun blocked => findsWalk_ok _

theorem findsWalk_rounds (facts : Store) (bound left : Nat) (store : Graph) (derived : OrderedSet Triple) :
    FindsWalk (r.rounds config facts bound left store derived).result := by
  induction left generalizing store derived with
  | zero =>
    unfold rounds
    split <;> exact findsWalk_ok _
  | succ left ih =>
    unfold rounds
    simp only [Run.result_bind, Run.result_lift, Run.result_report]
    refine (r.findsWalk_derive _).bind fun found => (Graph.findsWalk_addAll _ _).bind fun store => ?_
    split
    · exact findsWalk_ok _
    · exact ih _ _

theorem findsWalk_saturate (patience number : Nat) (store : Graph) (derived : OrderedSet Triple) :
    FindsWalk (r.saturate config patience number store derived).result := by
  induction patience generalizing number store derived with
  | zero =>
    unfold saturate
    split
    · exact findsWalk_ok _
    · exact findsWalk_error nofun
  | succ patience ih =>
    unfold saturate
    split
    · exact findsWalk_ok _
    · simp only [Run.result_bind, Run.result_lift, Run.result_report]
      refine (r.findsWalk_derive _).bind fun found => (Graph.findsWalk_addAll _ _).bind fun store => ?_
      split
      · exact findsWalk_ok _
      · exact ih _ _ _

end Rule

theorem Guard.findsWalk_split (producer consumer : Rule) : FindsWalk (Guard.split producer consumer) := by
  unfold Guard.split
  split
  · refine consumer.findsWalk_conditionFormula.bind fun F => ?_
    dsimp only
    split
    · exact findsWalk_ok _
    · exact findsWalk_error nofun
  · exact findsWalk_error nofun

theorem Guard.findsWalk_instances (store : Store) (clauses : Formula) :
    FindsWalk (Guard.instances config store clauses) := by
  unfold Guard.instances
  split
  · exact findsWalk_ok _
  · exact (Rule.findsWalk_derive _ store).bind fun ts => Graph.findsWalk_addAll _ _

theorem Rule.findsWalk_deriveRecursive (r : Rule) (facts : Store) :
    FindsWalk (r.deriveRecursive config facts).result := by
  unfold deriveRecursive
  split
  · exact findsWalk_error nofun
  split
  · rw [Run.result_bind]
    exact (Graph.findsWalk_addAll _ _).bind fun store => r.findsWalk_saturate _ _ _ _
  · simp only [Run.result_bind, Run.result_lift, Run.result_report]
    refine (Guard.findsWalk_split r r).bind fun split => ?_
    refine (Guard.findsWalk_instances facts split.guard).bind fun guarding => ?_
    refine (Guard.findsWalk_instances facts split.rest).bind fun resting => ?_
    exact (Graph.findsWalk_addAll _ _).bind fun start => r.findsWalk_rounds _ _ _ _ _

namespace Cycle

theorem findsWalk_passBound (store : Store) (walk : List Nat) :
    FindsWalk (passBound config store rules walk) := by
  induction walk with
  | nil => exact findsWalk_ok _
  | cons i walk ih =>
    cases walk with
    | nil => exact findsWalk_ok _
    | cons j walk =>
      unfold passBound
      split
      · refine (Guard.findsWalk_split _ _).bind fun split => ?_
        refine (Guard.findsWalk_instances store split.guard).bind fun guarding => ?_
        refine (Guard.findsWalk_instances store split.rest).bind fun resting => ?_
        exact ih.bind fun others => findsWalk_ok _
      · exact ih

theorem findsWalk_firePending (pass : Nat) (pending : List Nat) (s : State) :
    FindsWalk (firePending config rules g pass pending s).result := by
  induction pending generalizing s with
  | nil => exact findsWalk_ok _
  | cons i pending ih =>
    unfold firePending
    rw [Run.result_bind]
    refine FindsWalk.bind ?_ ih
    unfold fireRule
    split
    · exact findsWalk_ok _
    · simp only [Run.result_bind, Run.result_lift]
      refine (Rule.findsWalk_derive _ _).bind fun found => (Graph.findsWalk_addAll _ _).bind fun store => ?_
      split <;> exact findsWalk_ok _

theorem findsWalk_passes (order : List Nat) (bound left : Nat) (pending : List Nat) (s : State) :
    FindsWalk (passes config rules g order bound left pending s).result := by
  induction left generalizing pending s with
  | zero => cases pending <;> exact findsWalk_ok _
  | succ left ih =>
    cases pending with
    | nil => exact findsWalk_ok _
    | cons i pending =>
      unfold passes
      rw [Run.result_bind]
      exact (findsWalk_firePending _ _ _).bind fun s => ih _ s

theorem findsWalk_derive (facts : Graph) {members : List Nat} (h : members ∈ g.components) :
    FindsWalk (derive config facts rules g members).result := by
  obtain ⟨walk, -, hwalk, -⟩ := DependencyGraph.exists_walk h
  unfold derive
  split
  · exact findsWalk_ok _
  split
  · exact findsWalk_error nofun
  rw [hwalk]
  simp only [Run.result_bind, Run.result_lift, Run.result_report]
  exact (findsWalk_passBound _ _).bind fun bound => findsWalk_passes _ _ _ _ _

end Cycle

theorem findsWalk_inferStrata (level : Nat) {strata : List Stratum}
    (h : ∀ s ∈ strata, s.members ∈ g.components) (closure : Graph) (derived : OrderedSet Triple) :
    FindsWalk (inferStrata config rules g level strata closure derived).result := by
  induction strata generalizing level closure derived with
  | nil => exact findsWalk_ok _
  | cons s strata ih =>
    obtain ⟨here, later⟩ := List.forall_mem_cons.1 h
    unfold inferStrata
    simp only [Run.result_bind, Run.result_lift, Run.result_report]
    refine (findsWalk_ok _).bind fun _ => FindsWalk.bind ?_ fun found => ?_
    rotate_left
    · exact (Graph.findsWalk_addAll _ _).bind fun grown => ih _ later _ _
    unfold Stratum.derive
    split
    · exact Rule.findsWalk_derive _ _
    · exact Rule.findsWalk_deriveNegated _ _
    · exact Rule.findsWalk_deriveRecursive _ _
    · exact Cycle.findsWalk_derive _ here

/-- Every component of the dependency graph of some rules has a walk: it starts at the first of the
component's rules, visits these rules and no others, each of its rules feeds the next one, and every move
of it goes by a shortest path inside the component to a rule not visited before. So no evaluation of the
rules fails for want of a walk. -/
theorem walk_of_components (rules : List Rule) :
    let g := DependencyGraph.ofRules rules
    (∀ members ∈ g.components, ∃ first rest last, g.walk members = some (first :: rest) ∧
      first ∈ members ∧ (∀ i ∈ members, first ≤ i) ∧ (∀ i, i ∈ first :: rest ↔ i ∈ members) ∧
      (first :: rest).IsChain (fun a b => b ∈ g.triggers a) ∧ g.Greedy members (first :: rest) last) ∧
    ∀ facts config r, (infer facts rules config).result ≠ .error (.noWalk r) := by
  intro g
  constructor
  · intro members hm
    obtain ⟨walk, last, hwalk, greedy⟩ := DependencyGraph.exists_walk hm
    obtain ⟨first, rest, hfirst, rfl, path⟩ := greedy.path
    have ascending := (DependencyGraph.components_given g).1.ascending members hm
    refine ⟨first, rest, last, hwalk, List.mem_of_head? hfirst, fun i hi => ?_,
      DependencyGraph.mem_walk hwalk, path.isChain, greedy⟩
    obtain ⟨others, rfl⟩ := List.head?_eq_some_iff.1 hfirst
    rcases List.mem_cons.1 hi with rfl | hi
    · exact Nat.le_refl _
    · exact Nat.le_of_lt ((List.pairwise_cons.1 ascending).1 i hi)
  · intro facts config
    have strata : ∀ s ∈ stratify rules g, s.members ∈ g.components := by
      intro s hs
      obtain ⟨members, hm, rfl⟩ := List.mem_map.1 hs
      exact hm
    unfold infer
    rw [Run.result_bind]
    exact (Graph.findsWalk_addAll _ _).bind fun closure => findsWalk_inferStrata 0 strata closure ∅

/-- A rule and two others that feed it and are fed by it. -/
def starRules : List Rule :=
  let fact := fun p => (⟨.var "x", .iri p, .var "y"⟩ : Triple)
  [.ofLists [fact "a"] [fact "b", fact "c"], .ofLists [fact "b"] [fact "a"], .ofLists [fact "c"] [fact "a"]]

/-- The walk comes back to the rule in the middle. -/
theorem walk_of_components_star : [0, 1, 2] ∈ (DependencyGraph.ofRules starRules).components ∧
    (DependencyGraph.ofRules starRules).walk [0, 1, 2] = some [0, 1, 0, 2] ∧
    (DependencyGraph.ofRules starRules).Greedy [0, 1, 2] [0, 1, 0, 2] 2 := by
  have members : [0, 1, 2] ∈ (DependencyGraph.ofRules starRules).components := by decide +kernel
  have found : (DependencyGraph.ofRules starRules).walk [0, 1, 2] = some [0, 1, 0, 2] := by decide +kernel
  obtain ⟨first, rest, last, hwalk, -, -, -, -, greedy⟩ := (walk_of_components starRules).1 _ members
  obtain ⟨rfl, rfl⟩ := List.cons.inj (Option.some.inj (found.symm.trans hwalk))
  obtain ⟨_, _, -, e, path⟩ := greedy.path
  obtain ⟨rfl, rfl⟩ := List.cons.inj e
  have : 2 = last := path.getLast?
  exact ⟨members, found, this ▸ greedy⟩

end TripleChain
