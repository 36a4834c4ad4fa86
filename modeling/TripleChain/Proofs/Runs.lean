import TripleChain.Proofs.Passes

/-!
# What holds of a run

A statement about the value of a run is proved along the steps of the run. Besides the value one may
ask that the run comes to one, or look only at runs that report no event of some kind.
-/

namespace TripleChain

namespace Run

/-- What holds of the value of a run, if it comes to one. -/
def Ensures {α : Type} (x : Run α) (P : α → Prop) : Prop := ∀ a, x.result = .ok a → P a

/-- What holds of the value of a run, which a `total` run comes to. -/
structure Ends {α : Type} (total : Prop) (x : Run α) (P : α → Prop) : Prop where
  ensures : x.Ensures P
  succeeds : total → ∃ a, x.result = .ok a

/-- What holds of the value of a run that reports admissible events only. -/
def Yields {α : Type} (ok : Event → Prop) (x : Run α) (P : α → Prop) : Prop :=
  ∀ a, x.result = .ok a → (∀ e ∈ x.events, ok e) → P a

section
variable {α β : Type} {P : α → Prop} {Q : β → Prop} {total : Prop} {ok : Event → Prop}

theorem ensures_pure {a : α} (h : P a) : Ensures (Pure.pure a : Run α) P := by
  intro b hb
  obtain rfl := Except.ok.inj hb
  exact h

theorem ends_pure {a : α} (h : P a) : Ends total (Pure.pure a : Run α) P :=
  ⟨ensures_pure h, fun _ => ⟨a, rfl⟩⟩

theorem Ends.bind {x : Run α} {f : α → Run β} (h : Ends total x P) (hf : ∀ a, P a → Ends total (f a) Q) :
    Ends total (x >>= f) Q := by
  constructor
  · intro b hb
    rw [result_bind] at hb
    obtain ⟨a, ha, hb⟩ := bind_eq_ok.1 hb
    exact (hf a (h.ensures a ha)).ensures b hb
  · intro ht
    obtain ⟨a, ha⟩ := h.succeeds ht
    obtain ⟨b, hb⟩ := (hf a (h.ensures a ha)).succeeds ht
    exact ⟨b, by rw [result_bind, ha, ok_bind, hb]⟩

theorem ends_lift {r : Except Fault α} (h : ∀ a, r = .ok a → P a) (ht : total → ∃ a, r = .ok a) :
    Ends total (liftM r : Run α) P := ⟨h, ht⟩

theorem ends_report (e : Event) : Ends total (report e) fun _ => True :=
  ⟨fun _ _ => trivial, fun _ => ⟨(), rfl⟩⟩

theorem events_bind {x : Run α} {f : α → Run β} {a : α} (h : x.result = .ok a) :
    (x >>= f).events = x.events ++ (f a).events := by
  show (Run.bind x f).events = _
  unfold Run.bind
  rw [h]

theorem yields_pure {a : α} (h : P a) : Yields ok (Pure.pure a : Run α) P :=
  fun b hb _ => ensures_pure h b hb

theorem Yields.bind {x : Run α} {f : α → Run β} (h : Yields ok x P) (hf : ∀ a, P a → Yields ok (f a) Q) :
    Yields ok (x >>= f) Q := by
  intro b hb he
  rw [result_bind] at hb
  obtain ⟨a, ha, hb⟩ := bind_eq_ok.1 hb
  rw [events_bind ha] at he
  have hP := h a ha fun e hx => he e (List.mem_append_left _ hx)
  exact hf a hP b hb fun e hy => he e (List.mem_append_right _ hy)

theorem yields_lift {r : Except Fault α} (h : ∀ a, r = .ok a → P a) : Yields ok (liftM r : Run α) P :=
  fun a ha _ => h a ha

theorem yields_report (e : Event) : Yields ok (report e) fun _ => ok e :=
  fun _ _ h => h e (List.mem_singleton_self e)

theorem Yields.and {x : Run α} {P' : α → Prop} (h : Yields ok x P) (h' : x.Ensures P') :
    Yields ok x fun a => P a ∧ P' a := fun a ha he => ⟨h a ha he, h' a ha⟩

end

end Run

end TripleChain
