import Mathlib.Data.List.Perm.Subperm
import TripleChain.Stratum.Walk

/-!
# What a walk visits

A path is searched among the members alone, and the walk goes on until it has visited as many rules
as there are members. So it visits the members and no other rules (`mem_walk`).
-/

namespace TripleChain

namespace DependencyGraph

variable {g : DependencyGraph} {members : List Nat}

theorem mem_of_searchPath {start : Nat} {visited path : List Nat} {steps : Nat}
    {queue : List (Nat × List Nat)} {seen : List Nat}
    (hq : ∀ e ∈ queue, ∀ j ∈ e.2, j ∈ members)
    (h : g.searchPath start members visited steps queue seen = some path) : ∀ j ∈ path, j ∈ members := by
  induction steps generalizing queue seen with
  | zero => cases h
  | succ steps ih =>
    cases queue with
    | nil => cases h
    | cons e queue =>
      obtain ⟨i, before⟩ := e
      have hbefore : ∀ j ∈ before, j ∈ members := hq _ (List.mem_cons_self ..)
      have hnext : ∀ j ∈ (g.triggers i).filter (fun j =>
          j ≠ start && members.contains j && !seen.contains j), j ∈ members := by
        intro j hj
        have := (List.mem_filter.1 hj).2
        simp only [Bool.and_eq_true, List.contains_iff_mem] at this
        exact this.1.2
      rw [searchPath] at h
      split at h
      · next j hj =>
        obtain rfl := Option.some.inj h
        intro k hk
        rw [List.mem_reverse, List.mem_cons] at hk
        rcases hk with rfl | hk
        · exact hnext _ (List.mem_of_find?_eq_some hj)
        · exact hbefore k hk
      · refine ih (fun e he k hk => ?_) h
        rcases List.mem_append.1 he with he | he
        · exact hq e (List.mem_cons_of_mem _ he) k hk
        · obtain ⟨j, hj, rfl⟩ := List.mem_map.1 he
          rcases List.mem_cons.1 hk with rfl | hk
          · exact hnext _ hj
          · exact hbefore k hk

theorem extendWalk_spec {steps current : Nat} {visited walk : List Nat}
    (hv : ∀ i ∈ visited, i ∈ members) (h : g.extendWalk members steps current visited = some walk) :
    (∀ i ∈ walk, i ∈ members) ∧ members.length ≤ (OrderedSet.ofList walk).size := by
  induction steps generalizing current visited with
  | zero => cases h
  | succ steps ih =>
    rw [extendWalk] at h
    by_cases hsize : (OrderedSet.ofList visited).size < members.length
    · rw [if_pos hsize] at h
      obtain ⟨path, hpath, h⟩ := Option.bind_eq_some_iff.1 h
      have start : ∀ e ∈ [(current, ([] : List Nat))], ∀ j ∈ e.2, j ∈ members := by simp
      refine ih (fun i hi => ?_) h
      rcases List.mem_append.1 hi with hi | hi
      · exact hv i hi
      · exact mem_of_searchPath start hpath i hi
    · rw [if_neg hsize] at h
      obtain rfl := Option.some.inj h
      exact ⟨hv, Nat.le_of_not_lt hsize⟩

/-- A walk visits the members. -/
theorem mem_walk {walk : List Nat} (h : g.walk members = some walk) (i : Nat) :
    i ∈ walk ↔ i ∈ members := by
  obtain ⟨first, hfirst, h⟩ := Option.bind_eq_some_iff.1 h
  have start : ∀ i ∈ [first], i ∈ members := by
    intro i hi
    rw [List.mem_singleton.1 hi]
    exact List.mem_of_head? hfirst
  obtain ⟨sub, size⟩ := extendWalk_spec start h
  have hsub : (OrderedSet.ofList walk).toList.Subperm members :=
    (OrderedSet.ofList walk).nodup.subperm fun j hj => sub j (OrderedSet.mem_ofList.1 hj)
  rw [← (hsub.perm_of_length_le size).mem_iff, ← OrderedSet.mem_def, OrderedSet.mem_ofList]

end DependencyGraph

end TripleChain
