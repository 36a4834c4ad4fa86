import Mathlib.Data.List.Nodup
import Mathlib.Data.List.Perm.Subperm
import Mathlib.Logic.Relation
import TripleChain.Stratum.Basic

/-!
# The components of a dependency graph

One depth-first traversal gives out the strongly connected components, each after those it
depends on (`components_correct`). While rules are open, that is entered and not left, every rule
on the stack reaches an open one met no later, and every open rule reaches what was met after it.
A visit tells the least number that the rules it left on the stack depend on.
-/

namespace TripleChain

namespace DependencyGraph

/-- `x` depends on `y`, through any number of rules. -/
def Reaches (g : DependencyGraph) : Nat → Nat → Prop :=
  Relation.ReflTransGen fun x y => y ∈ g.dependsOn x

theorem lt_of_mem_dependsOn {g : DependencyGraph} {x y : Nat} (h : y ∈ g.dependsOn x) : y < g.size := by
  unfold dependsOn at h
  cases e : g.edges[x]? with
  | none => rw [e] at h; exact absurd h List.not_mem_nil
  | some ys => rw [e] at h; exact g.inRange ys (List.mem_of_getElem? e) y h

/-- The components given out so far, each of them after those it depends on. -/
structure Given (g : DependencyGraph) (cs : List (List Nat)) : Prop where
  nodup : cs.flatten.Nodup
  not_nil : [] ∉ cs
  ascending : ∀ c ∈ cs, c.Pairwise (· < ·)
  classes : ∀ c ∈ cs, ∀ x ∈ c, ∀ y, y ∈ c ↔ g.Reaches x y ∧ g.Reaches y x
  closed : ∀ x ∈ cs.flatten, ∀ y ∈ g.dependsOn x, y ∈ cs.flatten
  ordered : cs.Pairwise fun c d => ∀ x ∈ c, ∀ y ∈ d, y ∉ g.dependsOn x

section
variable {g : DependencyGraph} {cs : List (List Nat)}

theorem Given.reaches (h : g.Given cs) {x y : Nat} (hx : x ∈ cs.flatten) (hxy : g.Reaches x y) :
    y ∈ cs.flatten := by
  induction hxy with
  | refl => exact hx
  | tail _ hyz ih => exact h.closed _ ih _ hyz

theorem Given.concat (h : g.Given cs) {c : List Nat} (hc : c ≠ []) (asc : c.Pairwise (· < ·))
    (fresh : ∀ x ∈ c, x ∉ cs.flatten) (cls : ∀ x ∈ c, ∀ y, y ∈ c ↔ g.Reaches x y ∧ g.Reaches y x)
    (out : ∀ x ∈ c, ∀ y ∈ g.dependsOn x, y ∈ c ∨ y ∈ cs.flatten) : g.Given (cs ++ [c]) where
  nodup := by
    rw [List.flatten_concat, List.nodup_append]
    refine ⟨h.nodup, asc.imp fun {a b} hab => Nat.ne_of_lt hab, ?_⟩
    rintro x hx y hy rfl
    exact fresh x hy hx
  not_nil := by
    intro hn
    rcases List.mem_append.1 hn with hn | hn
    · exact h.not_nil hn
    · exact hc (List.mem_singleton.1 hn).symm
  ascending d hd := by
    rcases List.mem_append.1 hd with hd | hd
    · exact h.ascending d hd
    · rw [List.mem_singleton.1 hd]; exact asc
  classes d hd := by
    rcases List.mem_append.1 hd with hd | hd
    · exact h.classes d hd
    · rw [List.mem_singleton.1 hd]; exact cls
  closed x hx y hy := by
    rw [List.flatten_concat, List.mem_append] at hx ⊢
    rcases hx with hx | hx
    · exact .inl (h.closed x hx y hy)
    · exact (out x hx y hy).symm
  ordered := by
    rw [List.pairwise_append]
    refine ⟨h.ordered, List.pairwise_singleton _ _, ?_⟩
    intro d hd e he x hx y hy hxy
    rw [List.mem_singleton.1 he] at hy
    exact fresh y hy (h.closed x (List.mem_flatten_of_mem hd hx) y hxy)

end

end DependencyGraph

namespace Traversal

/-! ## Numbers -/

def number (t : Traversal) (x : Nat) : Nat := t.met.idxOf x

section
variable {t t' : Traversal} {x : Nat}

theorem number_lt (h : x ∈ t.met) : t.number x < t.met.length := List.idxOf_lt_length_of_mem h

theorem number_eq_of_grown (h : t.met <+: t'.met) (hx : x ∈ t.met) : t'.number x = t.number x := by
  obtain ⟨l, hl⟩ := h
  rw [number, number, ← hl, List.idxOf_append, if_pos hx]

theorem le_number_of_grown (h : t.met <+: t'.met) (hx : x ∉ t.met) : t.met.length ≤ t'.number x := by
  obtain ⟨l, hl⟩ := h
  rw [number, ← hl, List.idxOf_append, if_neg hx]
  omega

theorem number?_of_not_mem (h : x ∉ t.met) : t.number? x = none := List.idxOf?_eq_none_iff.2 h

theorem number?_of_mem (h : x ∈ t.met) : t.number? x = some (t.number x) := by
  rw [number?, List.idxOf?_eq_some_iff]
  refine ⟨number_lt h, List.getElem_idxOf _, fun j hj e => ?_⟩
  have hne := List.not_of_lt_findIdx hj
  simp [e] at hne

end

/-! ## The invariant -/

/-- What holds of a traversal while the rules of `opened` have been entered and not been left. -/
structure Sound (g : DependencyGraph) (opened : List Nat) (t : Traversal) : Prop where
  met_nodup : t.met.Nodup
  met_lt : ∀ x ∈ t.met, x < g.size
  stack_nodup : t.stack.Nodup
  met_iff : ∀ x, x ∈ t.met ↔ x ∈ t.stack ∨ x ∈ t.components.flatten
  not_given : ∀ x ∈ t.stack, x ∉ t.components.flatten
  opened_stack : ∀ a ∈ opened, a ∈ t.stack
  closed : ∀ x ∈ t.met, x ∉ opened → ∀ y ∈ g.dependsOn x, y ∈ t.met
  back : ∀ x ∈ t.stack, ∃ a ∈ opened, t.number a ≤ t.number x ∧ g.Reaches x a
  forth : ∀ a ∈ opened, ∀ x ∈ t.stack, t.number a ≤ t.number x → g.Reaches a x
  given : g.Given t.components

/-- What a visit of `i` gives, started in `t` while the rules of `opened` are open: the traversal
`t'`, and the least number `low` that `i` is known to reach on the stack. -/
structure Visited (g : DependencyGraph) (opened : List Nat) (i : Nat) (t : Traversal) (low : Nat)
    (t' : Traversal) : Prop where
  sound : t'.Sound g opened
  met_prefix : t.met <+: t'.met
  mem_met : i ∈ t'.met
  low_reached : low < t.met.length → ∃ y ∈ t.stack, t.number y = low ∧ g.Reaches i y
  stack : ∃ new, t'.stack = new ++ t.stack ∧ (∀ x ∈ new, x ∉ t.met) ∧
    ∀ x ∈ new, ∀ y ∈ g.dependsOn x, y ∈ t.stack → low ≤ t.number y

/-- A visit of `i` under way, started in `start`; the rules `todo` are still to be looked at. -/
structure Looking (g : DependencyGraph) (opened : List Nat) (i : Nat) (start : Traversal)
    (todo : List Nat) (low : Nat) (t : Traversal) : Prop where
  start_sound : start.Sound g opened
  fresh : i ∉ start.met
  sound : t.Sound g (i :: opened)
  met_prefix : (start.enter i).met <+: t.met
  low_le : low ≤ start.met.length
  low_reached : low < start.met.length → ∃ y ∈ start.stack, start.number y = low ∧ g.Reaches i y
  stack : ∃ new, t.stack = new ++ i :: start.stack ∧ (∀ x ∈ new, x ∉ (start.enter i).met) ∧
    ∀ x ∈ new, ∀ y ∈ g.dependsOn x, y ∈ start.stack → low ≤ start.number y
  looked : ∀ y ∈ g.dependsOn i,
    y ∈ todo ∨ y ∈ t.met ∧ (y ∈ start.stack → low ≤ start.number y)

section
variable {g : DependencyGraph} {opened : List Nat} {i : Nat} {start t t' : Traversal}
  {todo : List Nat} {low : Nat}

theorem Sound.stack_met (h : t.Sound g opened) {x : Nat} (hx : x ∈ t.stack) : x ∈ t.met :=
  (h.met_iff x).2 (.inl hx)

theorem mem_met_enter {x : Nat} : x ∈ (t.enter i).met ↔ x ∈ t.met ∨ x = i := by simp [enter]

theorem prefix_enter : t.met <+: (t.enter i).met := List.prefix_append _ _

theorem number_enter (h : i ∉ t.met) : (t.enter i).number i = t.met.length := by
  simp [number, enter, List.idxOf_append, h]

theorem Sound.enter (h : t.Sound g opened) (fresh : i ∉ t.met) (hi : i < g.size)
    (hr : ∀ a ∈ opened, g.Reaches a i) : (t.enter i).Sound g (i :: opened) := by
  have old : ∀ x ∈ t.stack, (t.enter i).number x = t.number x :=
    fun x hx => number_eq_of_grown prefix_enter (h.stack_met hx)
  constructor
  · rw [Traversal.enter, List.nodup_append]
    refine ⟨h.met_nodup, List.nodup_singleton i, ?_⟩
    intro x hx y hy e
    rw [List.mem_singleton.1 hy] at e
    exact fresh (e ▸ hx)
  · intro x hx
    rcases mem_met_enter.1 hx with hx | rfl
    · exact h.met_lt x hx
    · exact hi
  · exact List.nodup_cons.2 ⟨fun hx => fresh (h.stack_met hx), h.stack_nodup⟩
  · intro x
    rw [mem_met_enter, h.met_iff]
    simp only [Traversal.enter, List.mem_cons]
    tauto
  · intro x hx
    rcases List.mem_cons.1 hx with rfl | hx
    · exact fun hc => fresh ((h.met_iff x).2 (.inr hc))
    · exact h.not_given x hx
  · intro a ha
    rcases List.mem_cons.1 ha with rfl | ha
    · exact List.mem_cons_self ..
    · exact List.mem_cons_of_mem _ (h.opened_stack a ha)
  · intro x hx hxo y hy
    rw [List.mem_cons, not_or] at hxo
    rcases mem_met_enter.1 hx with hx | rfl
    · exact mem_met_enter.2 (.inl (h.closed x hx hxo.2 y hy))
    · exact absurd rfl hxo.1
  · intro x hx
    rcases List.mem_cons.1 hx with rfl | hx
    · exact ⟨x, List.mem_cons_self .., Nat.le_refl _, .refl⟩
    · obtain ⟨a, ha, hle, hxa⟩ := h.back x hx
      refine ⟨a, List.mem_cons_of_mem _ ha, ?_, hxa⟩
      rw [old x hx, old a (h.opened_stack a ha)]
      exact hle
  · intro a ha x hx hle
    rcases List.mem_cons.1 ha with rfl | ha
    · rcases List.mem_cons.1 hx with rfl | hx
      · exact .refl
      · rw [number_enter fresh, old x hx] at hle
        exact absurd (number_lt (h.stack_met hx)) (Nat.not_lt.2 hle)
    · rcases List.mem_cons.1 hx with e | hx
      · exact e ▸ hr a ha
      · rw [old x hx, old a (h.opened_stack a ha)] at hle
        exact h.forth a ha x hx hle
  · exact h.given

/-! ## One look -/

theorem Looking.entered (h : start.Sound g opened) (fresh : i ∉ start.met) (hi : i < g.size)
    (hr : ∀ a ∈ opened, g.Reaches a i) :
    Looking g opened i start (g.dependsOn i) start.met.length (start.enter i) where
  start_sound := h
  fresh := fresh
  sound := h.enter fresh hi hr
  met_prefix := List.prefix_rfl
  low_le := Nat.le_refl _
  low_reached hlt := absurd hlt (Nat.lt_irrefl _)
  stack := ⟨[], rfl, by simp⟩
  looked _ hy := .inl hy

theorem Looking.start_prefix (L : Looking g opened i start todo low t) : start.met <+: t.met :=
  prefix_enter.trans L.met_prefix

theorem Looking.number_eq (L : Looking g opened i start todo low t) {y : Nat} (hy : y ∈ start.stack) :
    t.number y = start.number y :=
  number_eq_of_grown L.start_prefix (L.start_sound.stack_met hy)

theorem Looking.mem_stack (L : Looking g opened i start todo low t) {y : Nat} (hy : y ∈ start.stack) :
    y ∈ t.stack := by
  obtain ⟨new, e, -⟩ := L.stack
  rw [e]
  exact List.mem_append_right _ (List.mem_cons_of_mem _ hy)

theorem Looking.number_self (L : Looking g opened i start todo low t) :
    t.number i = start.met.length := by
  rw [number_eq_of_grown L.met_prefix (mem_met_enter.2 (.inr rfl)), number_enter L.fresh]

/-- The rules above the stack of the start were met after it. -/
theorem Looking.mem_start_stack (L : Looking g opened i start todo low t) {y : Nat} (hy : y ∈ t.stack)
    (hlt : t.number y < start.met.length) : y ∈ start.stack := by
  obtain ⟨new, e, hnew, -⟩ := L.stack
  have hmet : y ∈ start.met := by
    by_contra hn
    exact absurd (le_number_of_grown L.start_prefix hn) (Nat.not_le.2 hlt)
  rw [e, List.mem_append, List.mem_cons] at hy
  rcases hy with hy | rfl | hy
  · exact absurd (mem_met_enter.2 (.inl hmet)) (hnew y hy)
  · exact absurd hmet L.fresh
  · exact hy

theorem Looking.lower (L : Looking g opened i start todo low t) {m : Nat} (hm : m ≤ low)
    (hr : m < low → ∃ y ∈ t.stack, t.number y = m ∧ g.Reaches i y) :
    Looking g opened i start todo m t where
  start_sound := L.start_sound
  fresh := L.fresh
  sound := L.sound
  met_prefix := L.met_prefix
  low_le := Nat.le_trans hm L.low_le
  low_reached hlt := by
    rcases Nat.lt_or_eq_of_le hm with hml | rfl
    · obtain ⟨y, hy, rfl, hiy⟩ := hr hml
      have hys := L.mem_start_stack hy hlt
      exact ⟨y, hys, (L.number_eq hys).symm, hiy⟩
    · exact L.low_reached hlt
  stack := by
    obtain ⟨new, e, hnew, hedge⟩ := L.stack
    exact ⟨new, e, hnew, fun x hx y hy hys => Nat.le_trans hm (hedge x hx y hy hys)⟩
  looked y hy := (L.looked y hy).imp_right fun ⟨hmet, h⟩ => ⟨hmet, fun hys => Nat.le_trans hm (h hys)⟩

theorem Looking.skip {j : Nat} (L : Looking g opened i start (j :: todo) low t) (hj : j ∈ t.met)
    (hs : j ∈ t.stack → low ≤ t.number j) : Looking g opened i start todo low t :=
  { L with
    looked := by
      intro y hy
      rcases L.looked y hy with hy | hy
      · rcases List.mem_cons.1 hy with rfl | hy
        · exact .inr ⟨hj, fun hys => L.number_eq hys ▸ hs (L.mem_stack hys)⟩
        · exact .inl hy
      · exact .inr hy }

theorem Looking.visit {j reached : Nat} (L : Looking g opened i start todo low t)
    (V : Visited g (i :: opened) j t reached t') (hm : low ≤ reached) :
    Looking g opened i start todo low t' where
  start_sound := L.start_sound
  fresh := L.fresh
  sound := V.sound
  met_prefix := L.met_prefix.trans V.met_prefix
  low_le := L.low_le
  low_reached := L.low_reached
  stack := by
    obtain ⟨new, e, hnew, hedge⟩ := L.stack
    obtain ⟨newer, e', hnewer, hedge'⟩ := V.stack
    refine ⟨newer ++ new, by rw [e', e, List.append_assoc], ?_, ?_⟩
    · intro x hx hmet
      rcases List.mem_append.1 hx with hx | hx
      · exact hnewer x hx (L.met_prefix.subset hmet)
      · exact hnew x hx hmet
    · intro x hx y hy hys
      rcases List.mem_append.1 hx with hx | hx
      · exact L.number_eq hys ▸ Nat.le_trans hm (hedge' x hx y hy (L.mem_stack hys))
      · exact hedge x hx y hy hys
  looked y hy := (L.looked y hy).imp_right fun h => ⟨V.met_prefix.subset h.1, h.2⟩

/-! ## A visit -/

/-- What a visit to the given depth gives, when that depth is enough. -/
def VisitSpec (g : DependencyGraph) (depth : Nat) : Prop :=
  ∀ (opened : List Nat) (i : Nat) (t : Traversal), t.Sound g opened → i ∉ t.met → i < g.size →
    (∀ a ∈ opened, g.Reaches a i) → g.size ≤ t.met.length + depth →
    Visited g opened i t (visit g depth i t).1 (visit g depth i t).2

theorem Looking.reaches_child (L : Looking g opened i start todo low t) {j : Nat}
    (hj : j ∈ g.dependsOn i) {a : Nat} (ha : a ∈ i :: opened) : g.Reaches a j := by
  have hi : i ∈ t.stack := L.sound.opened_stack i (List.mem_cons_self ..)
  refine .tail ?_ hj
  rcases List.mem_cons.1 ha with rfl | ho
  · exact .refl
  · have hstack := L.start_sound.opened_stack a ho
    apply L.sound.forth a ha i hi
    rw [L.number_self, L.number_eq hstack]
    exact Nat.le_of_lt (number_lt (L.start_sound.stack_met hstack))

theorem Looking.look {depth : Nat} (hv : VisitSpec g depth) (hd : g.size ≤ start.met.length + (depth + 1))
    (todo : List Nat) (low : Nat) (t : Traversal) (ht : ∀ j ∈ todo, j ∈ g.dependsOn i)
    (L : Looking g opened i start todo low t) :
    Looking g opened i start [] (look (Traversal.visit g depth) todo low t).1
      (look (Traversal.visit g depth) todo low t).2 := by
  induction todo generalizing low t with
  | nil => exact L
  | cons j js ih =>
    have hj := ht j (List.mem_cons_self ..)
    have hjs : ∀ k ∈ js, k ∈ g.dependsOn i := fun k hk => ht k (List.mem_cons_of_mem _ hk)
    unfold Traversal.look
    by_cases hmet : j ∈ t.met
    · rw [number?_of_mem hmet]
      apply ih _ _ hjs
      by_cases hs : t.stack.contains j = true
      · have hs' := List.contains_iff_mem.1 hs
        rw [if_pos hs]
        refine (L.lower (Nat.min_le_left ..) fun hlt => ?_).skip hmet fun _ => Nat.min_le_right ..
        exact ⟨j, hs', by omega, .single hj⟩
      · rw [if_neg hs]
        exact L.skip hmet fun hs' => absurd (List.contains_iff_mem.2 hs') hs
    · rw [number?_of_not_mem hmet]
      have hlen : (start.met ++ [i]).length ≤ t.met.length := L.met_prefix.length_le
      rw [List.length_append, List.length_singleton] at hlen
      have V := hv (i :: opened) j t L.sound hmet (DependencyGraph.lt_of_mem_dependsOn hj)
        (fun a ha => L.reaches_child hj ha) (by omega)
      -- The visit may end below `low` on the stack of `t`, which `j` and hence `i` reach.
      have L' : Looking g opened i start (j :: js) (min low (Traversal.visit g depth j t).1) t := by
        refine L.lower (Nat.min_le_left ..) fun hlt => ?_
        have hle := L.low_le
        obtain ⟨y, hy, e, hjy⟩ := V.low_reached (by omega)
        exact ⟨y, hy, by omega, .head hj hjy⟩
      refine ih _ _ hjs ((L'.visit V (Nat.min_le_right ..)).skip V.mem_met fun _ => ?_)
      have hle := L'.low_le
      have hnum := le_number_of_grown V.met_prefix hmet
      omega

/-! ## Leaving a rule -/

theorem Looking.closed (L : Looking g opened i start [] low t) {x y : Nat} (hx : x ∈ t.met)
    (ho : x ∉ opened) (hy : y ∈ g.dependsOn x) : y ∈ t.met := by
  by_cases hxi : x = i
  · subst hxi
    exact ((L.looked y hy).resolve_left List.not_mem_nil).1
  · exact L.sound.closed x hx (by simp [hxi, ho]) y hy

/-- The rules met since the start that are on the stack, `i` among them. -/
theorem Looking.exists_entered (L : Looking g opened i start [] low t) :
    ∃ new, t.stack = new ++ i :: start.stack ∧ (∀ x ∈ new ++ [i], x ∉ start.met) ∧
      ∀ x ∈ new ++ [i], ∀ y ∈ g.dependsOn x, y ∈ start.stack → low ≤ start.number y := by
  obtain ⟨new, e, hnew, hedge⟩ := L.stack
  refine ⟨new, e, ?_, ?_⟩
  · intro x hx
    rcases List.mem_append.1 hx with hx | hx
    · exact fun hmet => hnew x hx (mem_met_enter.2 (.inl hmet))
    · exact List.mem_singleton.1 hx ▸ L.fresh
  · intro x hx y hy hys
    rcases List.mem_append.1 hx with hx | hx
    · exact hedge x hx y hy hys
    · rw [List.mem_singleton.1 hx] at hy
      exact ((L.looked y hy).resolve_left List.not_mem_nil).2 hys

/-- A rule that reaches one met earlier stays on the stack. -/
theorem Looking.leave (L : Looking g opened i start [] low t) (hlow : low < start.met.length) :
    Visited g opened i start low t := by
  obtain ⟨new, e, hnew, hedge⟩ := L.exists_entered
  obtain ⟨y, hy, hynum, hiy⟩ := L.low_reached hlow
  obtain ⟨b, hb, hby, hyb⟩ := L.start_sound.back y hy
  have hbs := L.start_sound.opened_stack b hb
  refine ⟨?_, L.start_prefix, L.met_prefix.subset (mem_met_enter.2 (.inr rfl)), L.low_reached,
    new ++ [i], by rw [e, List.append_assoc, List.singleton_append], hnew, hedge⟩
  refine { L.sound with opened_stack := ?_, closed := ?_, back := ?_, forth := ?_ }
  · exact fun a ha => L.sound.opened_stack a (List.mem_cons_of_mem _ ha)
  · exact fun x hx hxo y hy => L.closed hx hxo hy
  · intro x hx
    obtain ⟨a, ha, hle, hxa⟩ := L.sound.back x hx
    rcases List.mem_cons.1 ha with rfl | ha
    -- What reached `i` now has to reach a rule that is still open.
    · refine ⟨b, hb, ?_, hxa.trans (hiy.trans hyb)⟩
      rw [L.number_self] at hle
      rw [L.number_eq hbs]
      omega
    · exact ⟨a, ha, hle, hxa⟩
  · exact fun a ha => L.sound.forth a (List.mem_cons_of_mem _ ha)

/-! ## Closing a component -/

/-- The rules met since the start that are on the stack. -/
def Since (start t : Traversal) (x : Nat) : Prop := x ∈ t.stack ∧ x ∉ start.stack

theorem Looking.since_iff (L : Looking g opened i start [] low t) {new : List Nat}
    (e : t.stack = new ++ i :: start.stack) {x : Nat} : Since start t x ↔ x ∈ new ++ [i] := by
  have hnodup := L.sound.stack_nodup
  rw [e, List.nodup_append, List.nodup_cons] at hnodup
  obtain ⟨-, ⟨his, -⟩, hapart⟩ := hnodup
  rw [Since, e, List.mem_append, List.mem_cons, List.mem_append, List.mem_singleton]
  constructor
  · rintro ⟨hx | rfl | hx, hxs⟩
    · exact .inl hx
    · exact .inr rfl
    · exact absurd hx hxs
  · rintro (hx | rfl)
    · exact ⟨.inl hx, fun hxs => hapart x hx x (List.mem_cons_of_mem _ hxs) rfl⟩
    · exact ⟨.inr (.inl rfl), his⟩

theorem Looking.since_fresh (L : Looking g opened i start [] low t) {x : Nat} (hx : Since start t x) :
    x ∉ start.met := by
  obtain ⟨new, e, hnew, -⟩ := L.exists_entered
  exact hnew x ((L.since_iff e).1 hx)

theorem Looking.since_low (L : Looking g opened i start [] low t) {x y : Nat} (hx : Since start t x)
    (hy : y ∈ g.dependsOn x) (hys : y ∈ start.stack) : low ≤ start.number y := by
  obtain ⟨new, e, -, hedge⟩ := L.exists_entered
  exact hedge x ((L.since_iff e).1 hx) y hy hys

theorem Looking.not_since (L : Looking g opened i start [] low t) {a : Nat} (ha : a ∈ opened) :
    ¬ Since start t a :=
  fun h => h.2 (L.start_sound.opened_stack a ha)

section
variable (L : Looking g opened i start [] low t) (hlow : low = start.met.length)
include L hlow

/-- No edge leads from the rules met since to the stack of the start. -/
theorem Looking.since_out {x y : Nat} (hx : Since start t x) (hy : y ∈ g.dependsOn x) :
    Since start t y ∨ y ∈ t.components.flatten := by
  have hxo : x ∉ opened := fun ho => L.not_since ho hx
  have hmet : y ∈ t.met := L.closed (L.sound.stack_met hx.1) hxo hy
  rcases (L.sound.met_iff y).1 hmet with hs | hc
  · refine .inl ⟨hs, fun hys => ?_⟩
    have hle := L.since_low hx hy hys
    have hlt := number_lt (L.start_sound.stack_met hys)
    omega
  · exact .inr hc

theorem Looking.since_reaches {x y : Nat} (hx : Since start t x) (hxy : g.Reaches x y) :
    Since start t y ∨ y ∈ t.components.flatten := by
  induction hxy with
  | refl => exact .inl hx
  | tail _ hyz ih =>
    rcases ih with hy | hy
    · exact L.since_out hlow hy hyz
    · exact .inr (L.sound.given.closed _ hy _ hyz)

/-- Every rule met since reaches `i`, the only open one among them, and is reached by it. -/
theorem Looking.since_self {x : Nat} (hx : Since start t x) : g.Reaches x i ∧ g.Reaches i x := by
  constructor
  · obtain ⟨a, ha, -, hxa⟩ := L.sound.back x hx.1
    rcases List.mem_cons.1 ha with rfl | ha
    · exact hxa
    -- The other open rules were met before, and no path leads there.
    · rcases L.since_reaches hlow hx hxa with hc | hc
      · exact absurd hc (L.not_since ha)
      · exact absurd hc (L.sound.not_given a (L.mem_stack (L.start_sound.opened_stack a ha)))
  · apply L.sound.forth i (List.mem_cons_self ..) x hx.1
    rw [L.number_self]
    exact le_number_of_grown L.start_prefix (L.since_fresh hx)

theorem Looking.since_iff_reaches {x y : Nat} (hx : Since start t x) :
    Since start t y ↔ g.Reaches x y ∧ g.Reaches y x := by
  constructor
  · intro hy
    have hx' := L.since_self hlow hx
    have hy' := L.since_self hlow hy
    exact ⟨hx'.1.trans hy'.2, hy'.1.trans hx'.2⟩
  · rintro ⟨hxy, hyx⟩
    refine (L.since_reaches hlow hx hxy).resolve_right fun hc => ?_
    exact L.sound.not_given x hx.1 (L.sound.given.reaches hc hyx)

end

theorem close_of_stack (new rest : List Nat) (e : t.stack = new ++ i :: rest) (h : i ∉ new) :
    t.close g.size i = { t with
      stack := rest
      components := t.components ++ [(List.range g.size).filter (i :: new).contains] } := by
  have hp : ∀ x ∈ new, decide (x ≠ i) = true := by
    intro x hx
    rw [decide_eq_true_eq]
    rintro rfl
    exact h hx
  have hstop : decide (i ≠ i) = false := by simp
  rw [Traversal.close, e, List.takeWhile_append_of_pos hp, List.dropWhile_append_of_pos hp,
    List.takeWhile_cons, List.dropWhile_cons, hstop]
  simp

/-- A rule that reaches none met earlier closes the class of what was met since. -/
theorem Looking.close (L : Looking g opened i start [] low t) (hlow : low = start.met.length) :
    Visited g opened i start low (t.close g.size i) := by
  obtain ⟨new, e, -⟩ := L.exists_entered
  have hsince : ∀ {x}, Since start t x ↔ x ∈ i :: new := by
    intro x
    rw [L.since_iff e, List.mem_append, List.mem_singleton, List.mem_cons, or_comm]
  have hin : i ∉ new := by
    have hnodup := L.sound.stack_nodup
    rw [e, List.nodup_append] at hnodup
    exact fun h => hnodup.2.2 i h i (List.mem_cons_self ..) rfl
  have hclass : ∀ {x}, x ∈ (List.range g.size).filter (i :: new).contains ↔ Since start t x := by
    intro x
    have hlt : Since start t x → x < g.size := fun hx => L.sound.met_lt x (L.sound.stack_met hx.1)
    simp only [List.mem_filter, List.mem_range, List.contains_iff_mem, ← hsince]
    exact and_iff_right_of_imp hlt
  have hstack : ∀ {x}, x ∈ t.stack ↔ x ∈ start.stack ∨ Since start t x := by
    intro x
    have hmem : x ∈ start.stack → x ∈ t.stack := L.mem_stack
    unfold Since
    tauto
  rw [close_of_stack new start.stack e hin]
  refine ⟨?_, L.start_prefix, L.met_prefix.subset (mem_met_enter.2 (.inr rfl)), by omega,
    [], rfl, by simp, by simp⟩
  have hnum : ∀ {x}, x ∈ start.stack → List.idxOf x t.met = start.number x := L.number_eq
  refine ⟨L.sound.met_nodup, L.sound.met_lt, L.start_sound.stack_nodup, ?_, ?_,
    L.start_sound.opened_stack, fun x hx hxo y hy => L.closed hx hxo hy, ?_, ?_, ?_⟩
  · intro x
    rw [L.sound.met_iff, hstack, List.flatten_concat, List.mem_append, hclass, or_assoc,
      or_comm (a := Since start t x)]
  · intro x hx hc
    rw [List.flatten_concat, List.mem_append, hclass] at hc
    rcases hc with hc | hc
    · exact L.sound.not_given x (L.mem_stack hx) hc
    · exact hc.2 hx
  · intro x hx
    obtain ⟨a, ha, hle, hxa⟩ := L.start_sound.back x hx
    refine ⟨a, ha, ?_, hxa⟩
    simp only [number, hnum hx, hnum (L.start_sound.opened_stack a ha)]
    exact hle
  · intro a ha x hx hle
    simp only [number, hnum hx, hnum (L.start_sound.opened_stack a ha)] at hle
    exact L.start_sound.forth a ha x hx hle
  · refine L.sound.given.concat ?_ ?_ ?_ ?_ ?_
    · exact List.ne_nil_of_mem (hclass.2 (hsince.2 (List.mem_cons_self ..)))
    · exact List.pairwise_lt_range.filter _
    · exact fun x hx => L.sound.not_given x (hclass.1 hx).1
    · intro x hx y
      rw [hclass] at hx ⊢
      exact L.since_iff_reaches hlow hx
    · intro x hx y hy
      rw [hclass] at hx ⊢
      exact L.since_out hlow hx hy

/-! ## The traversal -/

theorem visitSpec (depth : Nat) : VisitSpec g depth := by
  induction depth with
  | zero =>
    intro opened i t h fresh hi _ hd
    -- All rules have been met, so there is no fresh one.
    have hsub : i :: t.met ⊆ List.range g.size := by
      intro x hx
      rcases List.mem_cons.1 hx with rfl | hx
      · exact List.mem_range.2 hi
      · exact List.mem_range.2 (h.met_lt x hx)
    have hle := ((List.nodup_cons.2 ⟨fresh, h.met_nodup⟩).subperm hsub).length_le
    rw [List.length_cons, List.length_range] at hle
    omega
  | succ depth ih =>
    intro opened i t h fresh hi hr hd
    have L := Looking.look ih hd (g.dependsOn i) t.met.length (t.enter i) (fun _ hj => hj)
      (.entered h fresh hi hr)
    unfold Traversal.visit
    dsimp only
    split
    · exact L.close ‹_›
    · exact L.leave (Nat.lt_of_le_of_ne L.low_le ‹_›)

theorem sound_start : Traversal.start.Sound g [] := by
  have hgiven : g.Given [] :=
    ⟨List.nodup_nil, List.not_mem_nil, by simp, by simp, by simp, List.Pairwise.nil⟩
  constructor <;> simp [Traversal.start, hgiven]

theorem Sound.run (is : List Nat) (hi : ∀ i ∈ is, i < g.size) (h : t.Sound g []) :
    (run g is t).Sound g [] ∧ t.met <+: (run g is t).met ∧ ∀ i ∈ is, i ∈ (run g is t).met := by
  induction is generalizing t with
  | nil => exact ⟨h, List.prefix_rfl, by simp⟩
  | cons i is ih =>
    have htail : ∀ j ∈ is, j < g.size := fun j hj => hi j (List.mem_cons_of_mem _ hj)
    unfold Traversal.run
    by_cases hmet : i ∈ t.met
    · rw [number?_of_mem hmet, Option.isSome_some, if_pos rfl]
      obtain ⟨hs, hp, hall⟩ := ih htail h
      exact ⟨hs, hp, List.forall_mem_cons.2 ⟨hp.subset hmet, hall⟩⟩
    · rw [number?_of_not_mem hmet, Option.isSome_none, if_neg Bool.false_ne_true]
      have V := visitSpec g.size [] i t h hmet (hi i (List.mem_cons_self ..)) (by simp)
        (Nat.le_add_left ..)
      obtain ⟨hs, hp, hall⟩ := ih htail V.sound
      exact ⟨hs, V.met_prefix.trans hp, List.forall_mem_cons.2 ⟨hp.subset V.mem_met, hall⟩⟩

end

end Traversal

namespace DependencyGraph

/-- No rule depends on itself, through any number of rules. -/
def Acyclic (g : DependencyGraph) : Prop :=
  ∀ x, ¬ Relation.TransGen (fun x y => y ∈ g.dependsOn x) x x

theorem components_given (g : DependencyGraph) :
    g.Given g.components ∧ g.components.flatten.Perm (List.range g.size) := by
  obtain ⟨h, -, hall⟩ := Traversal.Sound.run (g := g) (List.range g.size)
    (fun _ hi => List.mem_range.1 hi) Traversal.sound_start
  refine ⟨h.given, (List.perm_ext_iff_of_nodup h.given.nodup List.nodup_range).2 fun x => ?_⟩
  rw [List.mem_range]
  constructor
  · exact fun hx => h.met_lt x ((h.met_iff x).2 (.inr hx))
  · intro hx
    refine ((h.met_iff x).1 (hall x (List.mem_range.2 hx))).resolve_left fun hs => ?_
    obtain ⟨a, ha, -⟩ := h.back x hs
    exact absurd ha List.not_mem_nil

theorem Acyclic.eq_of_reaches {g : DependencyGraph} (h : g.Acyclic) {x y : Nat}
    (hxy : g.Reaches x y) (hyx : g.Reaches y x) : x = y := by
  rcases Relation.reflTransGen_iff_eq_or_transGen.1 hxy with e | htrans
  · exact e.symm
  · exact absurd (htrans.trans_left hyx) (h x)

theorem Given.singleton {g : DependencyGraph} {cs : List (List Nat)} (h : g.Given cs) (ha : g.Acyclic)
    {c : List Nat} (hc : c ∈ cs) : ∃ x, c = [x] := by
  obtain _ | ⟨x, _ | ⟨y, c⟩⟩ := c
  · exact absurd hc h.not_nil
  · exact ⟨x, rfl⟩
  · have hy := (h.classes _ hc x (List.mem_cons_self ..) y).1 (by simp)
    have hlt : x < y := (List.pairwise_cons.1 (h.ascending _ hc)).1 y (List.mem_cons_self ..)
    exact absurd (ha.eq_of_reaches hy.1 hy.2) (Nat.ne_of_lt hlt)

/-- `x` depends on `y`, through one or more edges. -/
def Depends (g : DependencyGraph) : Nat → Nat → Prop := Relation.TransGen fun x y => y ∈ g.dependsOn x

theorem Given.not_depends_self {g : DependencyGraph} {cs : List (List Nat)} (h : g.Given cs) {x : Nat}
    (hx : [x] ∈ cs) (none : x ∉ g.dependsOn x) : ¬ g.Depends x x := by
  intro hxx
  -- The first rule on the way back to `x` is of its component, hence `x` itself.
  obtain ⟨y, hxy, hyx⟩ := Relation.TransGen.head'_iff.1 hxx
  have hy := (h.classes [x] hx x (List.mem_singleton_self x) y).2 ⟨.single hxy, hyx⟩
  rw [List.mem_singleton.1 hy] at hxy
  exact none hxy

/-- The first components depend on nothing but themselves. -/
theorem Given.left {g : DependencyGraph} {first later : List (List Nat)} (h : g.Given (first ++ later)) :
    g.Given first where
  nodup := by
    have nodup := h.nodup
    rw [List.flatten_append] at nodup
    exact nodup.of_append_left
  not_nil hnil := h.not_nil (List.mem_append_left _ hnil)
  ascending c hc := h.ascending c (List.mem_append_left _ hc)
  classes c hc := h.classes c (List.mem_append_left _ hc)
  closed x hx y hy := by
    have hmem : y ∈ (first ++ later).flatten :=
      h.closed x (by rw [List.flatten_append]; exact List.mem_append_left _ hx) y hy
    rw [List.flatten_append, List.mem_append] at hmem
    refine hmem.resolve_right fun hlater => ?_
    obtain ⟨c, hc, hxc⟩ := List.mem_flatten.1 hx
    obtain ⟨d, hd, hyd⟩ := List.mem_flatten.1 hlater
    exact (List.pairwise_append.1 h.ordered).2.2 c hc d hd x hxc y hyd hy
  ordered := (List.pairwise_append.1 h.ordered).1

theorem Given.exists_map_singleton {g : DependencyGraph} {cs : List (List Nat)} (h : g.Given cs)
    (ha : g.Acyclic) : ∃ order : List Nat, cs = order.map (fun x => [x]) := by
  refine ⟨cs.map fun c => c.headD 0, ?_⟩
  have hc : ∀ c ∈ cs, ((fun x => [x]) ∘ fun c => c.headD 0) c = id c := by
    intro c hc
    obtain ⟨x, rfl⟩ := h.singleton ha hc
    rfl
  rw [List.map_map, List.map_congr_left hc, List.map_id]

/-- The components are the classes of rules that reach each other, and each comes after those it
depends on; with no cycles every stratum is one rule. -/
theorem components_correct (g : DependencyGraph) :
    g.components.flatten.Perm (List.range g.size) ∧
    (∀ c ∈ g.components, c ≠ [] ∧ c.Pairwise (· < ·)) ∧
    (∀ x < g.size, ∀ y < g.size,
      (∃ c ∈ g.components, x ∈ c ∧ y ∈ c) ↔ g.Reaches x y ∧ g.Reaches y x) ∧
    (∀ (m n : Nat) (c d : List Nat), g.components[m]? = some c → g.components[n]? = some d →
      ∀ x ∈ c, ∀ y ∈ d, y ∈ g.dependsOn x → n ≤ m) ∧
    (g.Acyclic → ∀ rules, ∃ order : List Nat, order.Perm (List.range g.size) ∧
      (stratify rules g).map Stratum.members = order.map (fun x => [x]) ∧
      order.Pairwise fun x y => y ∉ g.dependsOn x) := by
  obtain ⟨h, hperm⟩ := components_given g
  refine ⟨hperm, ?_, ?_, ?_, ?_⟩
  · exact fun c hc => ⟨fun e => h.not_nil (e ▸ hc), h.ascending c hc⟩
  · intro x hx y _
    obtain ⟨c, hc, hxc⟩ := List.mem_flatten.1 (hperm.mem_iff.2 (List.mem_range.2 hx))
    constructor
    · rintro ⟨d, hd, hxd, hyd⟩
      exact (h.classes d hd x hxd y).1 hyd
    · exact fun hxy => ⟨c, hc, hxc, (h.classes c hc x hxc y).2 hxy⟩
  · intro m n c d hm hn x hx y hy hxy
    by_contra hlt
    obtain ⟨hm', rfl⟩ := List.getElem?_eq_some_iff.1 hm
    obtain ⟨hn', rfl⟩ := List.getElem?_eq_some_iff.1 hn
    exact List.pairwise_iff_getElem.1 h.ordered m n hm' hn' (Nat.not_le.1 hlt) x hx y hy hxy
  · intro ha rules
    obtain ⟨order, e⟩ := h.exists_map_singleton ha
    have hord := h.ordered
    rw [e] at hperm hord
    refine ⟨order, ?_, ?_, ?_⟩
    · rwa [← List.flatMap_def, List.flatMap_singleton'] at hperm
    · rw [← e, stratify, List.map_map]
      exact List.map_id _
    · rw [List.pairwise_map] at hord
      exact hord.imp fun h => h _ (List.mem_singleton_self _) _ (List.mem_singleton_self _)

/-- Rule 0 depends on rule 2, and that on rule 1. -/
def bent : DependencyGraph where
  edges := [[2], [], [1]]
  inRange := by decide

theorem bent_acyclic : bent.Acyclic := by
  have hedge : ∀ x y, y ∈ bent.dependsOn x → 2 * x % 3 < 2 * y % 3 := by
    intro x y hy
    obtain _ | _ | _ | x := x <;> simp [bent, dependsOn] at hy <;> simp [hy]
  have hpath : ∀ x y, Relation.TransGen (fun x y => y ∈ bent.dependsOn x) x y →
      2 * x % 3 < 2 * y % 3 := by
    intro x y h
    induction h with
    | single h => exact hedge _ _ h
    | tail _ h ih => exact Nat.lt_trans ih (hedge _ _ h)
  exact fun x h => Nat.lt_irrefl _ (hpath x x h)

theorem components_correct_bent : bent.Acyclic ∧ ∃ order : List Nat, order.Perm [0, 1, 2] ∧
    (stratify [] bent).map Stratum.members = order.map (fun x => [x]) ∧
    order.Pairwise fun x y => y ∉ bent.dependsOn x :=
  ⟨bent_acyclic, (components_correct bent).2.2.2.2 bent_acyclic []⟩

end DependencyGraph

end TripleChain
