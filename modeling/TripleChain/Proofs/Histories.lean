import TripleChain.Proofs.Idempotence

/-!
# Histories of a reasoner

Whatever is asked of a reasoner, and whether it is refused or not, nothing that is there is lost or moved,
and what runs have added is among the facts (`Reasoner.Sound.step`). A run adds what it derived one triple
after the other, and none of them is refused: each has been taken into a closure before
(`hasVar_of_infer`). So a run either fails and changes nothing, or adds all that is new
(`Reasoner.after_new`).
-/

namespace TripleChain

/-! ## What insertion keeps -/

namespace Graph

variable {g g' : Graph}

theorem toList_add {t : Triple} (h : g.add t = .ok g') :
    g'.toList = if t ∈ g.toList then g.toList else g.toList ++ [t] := by
  unfold add at h
  split at h
  · obtain rfl := Except.ok.inj h
    exact toList_insert ..
  · cases h

theorem prefix_add {t : Triple} (h : g.add t = .ok g') : g.toList <+: g'.toList := by
  rw [toList_add h]
  split
  · exact List.prefix_refl _
  · exact List.prefix_append _ _

theorem toList_addAll {ts : List Triple} (nodup : ts.Nodup) (new : ∀ t ∈ ts, t ∉ g.toList)
    (h : g.addAll ts = .ok g') : g'.toList = g.toList ++ ts := by
  induction ts generalizing g with
  | nil =>
    obtain rfl := Except.ok.inj h
    exact (List.append_nil _).symm
  | cons t ts ih =>
    obtain ⟨ht, nodup⟩ := List.nodup_cons.1 nodup
    rw [addAll, List.foldlM_cons] at h
    obtain ⟨g₁, hg₁, h⟩ := bind_eq_ok.1 h
    have hlist : g₁.toList = g.toList ++ [t] := by
      rw [toList_add hg₁, if_neg (new t (List.mem_cons_self ..))]
    rw [ih nodup (fun u hu => ?_) h, hlist, List.append_assoc, List.singleton_append]
    rw [hlist, List.mem_append, List.mem_singleton, not_or]
    exact ⟨new u (List.mem_cons_of_mem _ hu), fun e => ht (e ▸ hu)⟩

end Graph

theorem OrderedSet.toList_insertAll {α : Type} [DecidableEq α] {s : OrderedSet α} {l : List α}
    (nodup : l.Nodup) (new : ∀ a ∈ l, a ∉ s) : (s.insertAll l).toList = s.toList ++ l := by
  induction l generalizing s with
  | nil => exact (List.append_nil _).symm
  | cons a l ih =>
    obtain ⟨ha, nodup⟩ := List.nodup_cons.1 nodup
    have hlist : (s.insert a).toList = s.toList ++ [a] := by
      rw [toList_insert]
      exact if_neg (new a (List.mem_cons_self ..))
    rw [insertAll_cons, ih nodup (fun b hb => ?_), hlist, List.append_assoc, List.singleton_append]
    rw [mem_insert, not_or]
    exact ⟨new b (List.mem_cons_of_mem _ hb), fun e => ha (e ▸ hb)⟩

/-! ## What is derived has no variable -/

theorem Evaluates.hasVar_of_found {config : Config} {rules : List Rule} {g : DependencyGraph} {facts : Graph}
    {es : List Evaluated} (h : Evaluates config rules g facts es) :
    ∀ e ∈ es, ∀ t ∈ e.found, t.hasVar = false := by
  induction h with
  | nil => exact fun e he => absurd he List.not_mem_nil
  | @cons s facts grown found later _ grows _ ih =>
    exact List.forall_mem_cons.2 ⟨fun t ht => grown.noVar t ((grows t).2 (.inr ht)), ih⟩

/-- Whatever the rules are, a run that comes to its end gives only triples that a graph takes. -/
theorem hasVar_of_infer {config : Config} {facts : List Triple} {rules : List Rule} {D : OrderedSet Triple}
    (h : (infer facts rules config).result = .ok D) : ∀ t ∈ D, t.hasVar = false := by
  obtain ⟨start, es, -, hes, -, mem⟩ := infer_evaluates h
  intro t ht
  obtain ⟨e, he, ht⟩ := (mem t).1 ht
  exact hes.hasVar_of_found e he t ht

namespace Reasoner

/-! ## Calls -/

inductive Call where
  | addFact (t : Triple)
  | addRule (rule : Rule)
  | addTriple (t : Triple)
  | load (ts : List Triple)
  | run

/-- Adds derived triples one after the other, up to the first one that is refused, and counts the new
ones. -/
def keepNew : Reasoner → List Triple → (added : Nat) → Reasoner × Except Fault Nat
  | r, [], added => (r, .ok added)
  | r, t :: ts, added =>
    match r.facts.add t with
    | .error e => (r, .error e)
    | .ok facts =>
      if t ∈ r.facts.toList then keepNew r ts added
      else keepNew { r with facts := facts, inferred := r.inferred.insert t } ts (added + 1)

/-- A run that changes the reasoner as it goes. -/
def runInPlace (r : Reasoner) : Reasoner × Except Fault Nat :=
  match (infer r.facts.toList r.rules.toList r.config).result with
  | .error e => (r, .error e)
  | .ok derived => r.keepNew derived.toList 0

/-- The reasoner that a call leaves, also where the call is refused. -/
def step (r : Reasoner) : Call → Reasoner
  | .addFact t => (r.addFact t).toOption.getD r
  | .addRule rule => r.addRule rule
  | .addTriple t => (r.addTriple t).toOption.getD r
  | .load ts => (r.load ts).1
  | .run => r.runInPlace.1

def after (r : Reasoner) (calls : List Call) : Reasoner := calls.foldl step r

def newAmong (r : Reasoner) (D : OrderedSet Triple) : List Triple := D.toList.filter (· ∉ r.facts.toList)

/-! ## Invariants -/

/-- No fact has a variable, no rule is there twice, and what runs have added is among the facts. -/
structure Sound (r : Reasoner) : Prop where
  noVar : ∀ t ∈ r.facts.toList, t.hasVar = false
  distinct : r.rules.toList.Nodup
  inferred : ∀ t ∈ r.inferred, t ∈ r.facts.toList

/-- Nothing is lost or moved from `r` to `r'`. -/
structure Grows (r r' : Reasoner) : Prop where
  facts : r.facts.toList <+: r'.facts.toList
  rules : r.rules.toList <+: r'.rules.toList
  inferred : r.inferred.toList <+: r'.inferred.toList
  config : r'.config = r.config

/-- From `r` to `r'` just these facts have been added, by a run. -/
structure Adds (r r' : Reasoner) (ts : List Triple) : Prop where
  facts : r'.facts.toList = r.facts.toList ++ ts
  inferred : r'.inferred.toList = r.inferred.toList ++ ts
  rules : r'.rules = r.rules
  config : r'.config = r.config

variable {r r' r'' : Reasoner}

theorem sound_of_inferred (h : ∀ t ∈ r.inferred, t ∈ r.facts.toList) : r.Sound :=
  ⟨r.facts.noVar, r.rules.nodup, h⟩

theorem Grows.refl (r : Reasoner) : r.Grows r :=
  ⟨List.prefix_refl _, List.prefix_refl _, List.prefix_refl _, rfl⟩

theorem Grows.trans (h : r.Grows r') (h' : r'.Grows r'') : r.Grows r'' :=
  ⟨h.facts.trans h'.facts, h.rules.trans h'.rules, h.inferred.trans h'.inferred, h'.config.trans h.config⟩

/-- Nothing of `r` is lost or moved in `r'`, and the invariant is kept. -/
def Extends (r r' : Reasoner) : Prop := (r.Sound → r'.Sound) ∧ r.Grows r'

theorem Extends.refl (r : Reasoner) : r.Extends r := ⟨id, .refl r⟩

theorem Extends.trans (h : r.Extends r') (h' : r'.Extends r'') : r.Extends r'' :=
  ⟨h'.1 ∘ h.1, h.2.trans h'.2⟩

theorem extends_addFact {t : Triple} (h : r.addFact t = .ok r') : r.Extends r' := by
  unfold addFact at h
  cases hadd : r.facts.add t with
  | error e =>
    rw [hadd] at h
    cases h
  | ok facts =>
    rw [hadd] at h
    obtain rfl := Except.ok.inj h
    have more := Graph.prefix_add hadd
    exact ⟨fun sound => sound_of_inferred fun u hu => more.subset (sound.inferred u hu),
      more, List.prefix_refl _, List.prefix_refl _, rfl⟩

theorem extends_addRule (r : Reasoner) (rule : Rule) : r.Extends (r.addRule rule) :=
  ⟨fun sound => sound_of_inferred sound.inferred, List.prefix_refl _, r.rules.prefix_insertAll [rule],
    List.prefix_refl _, rfl⟩

theorem extends_addTriple {t : Triple} (h : r.addTriple t = .ok r') : r.Extends r' := by
  unfold addTriple at h
  split at h
  · cases hrule : Rule.ofTriple t with
    | error e =>
      rw [hrule] at h
      cases h
    | ok rule =>
      rw [hrule] at h
      obtain rfl := Except.ok.inj h
      exact r.extends_addRule rule
  · exact extends_addFact h

theorem extends_addRules (rules : List Rule) : r.Extends (rules.foldl addRule r) := by
  induction rules generalizing r with
  | nil => exact .refl r
  | cons rule rules ih => exact (r.extends_addRule rule).trans ih

theorem extends_addFacts (ts : List Triple) : r.Extends (r.addFacts ts).1 := by
  induction ts generalizing r with
  | nil => exact .refl r
  | cons t ts ih =>
    unfold addFacts
    cases h : r.addFact t with
    | error e => exact .refl r
    | ok r' => exact (extends_addFact h).trans ih

theorem extends_load (ts : List Triple) : r.Extends (r.load ts).1 := by
  unfold load
  cases separate ts with
  | error e => exact .refl r
  | ok p => exact (extends_addRules p.1.toList).trans (extends_addFacts p.2)

/-! ## Runs -/

theorem newAmong_eq (r : Reasoner) (D : OrderedSet Triple) :
    r.newAmong D = D.toList.filter fun t => !r.facts.contains t := by
  refine List.filter_congr fun t _ => ?_
  rw [Bool.eq_iff_iff, decide_eq_true_iff, Bool.not_eq_true', ← Bool.not_eq_true, Graph.contains_iff]

/-- Triples without variables are all taken, one by one as at once. -/
theorem keepNew_eq {ts : List Triple} (nodup : ts.Nodup) (noVar : ∀ t ∈ ts, t.hasVar = false) (r : Reasoner)
    (added : Nat) : ∃ facts, r.facts.addAll (ts.filter (· ∉ r.facts.toList)) = .ok facts ∧
      r.keepNew ts added = ({ r with
        facts := facts
        inferred := r.inferred.insertAll (ts.filter (· ∉ r.facts.toList)) },
        .ok (added + (ts.filter (· ∉ r.facts.toList)).length)) := by
  induction ts generalizing r added with
  | nil => exact ⟨r.facts, rfl, rfl⟩
  | cons t ts ih =>
    obtain ⟨hnew, nodup⟩ := List.nodup_cons.1 nodup
    obtain ⟨ht, noVar⟩ := List.forall_mem_cons.1 noVar
    have hadd : r.facts.add t = .ok (r.facts.insert t ht) := dif_pos ht
    rw [keepNew, hadd]
    by_cases old : t ∈ r.facts.toList
    · obtain ⟨facts, hfacts, eq⟩ := ih nodup noVar r added
      rw [List.filter_cons_of_neg (by simpa using old)]
      exact ⟨facts, hfacts, (if_pos old).trans eq⟩
    · let r₁ : Reasoner := { r with facts := r.facts.insert t ht, inferred := r.inferred.insert t }
      -- The triple that has just become a fact is not among those that follow.
      have same : ts.filter (· ∉ r₁.facts.toList) = ts.filter (· ∉ r.facts.toList) := by
        refine List.filter_congr fun u hu => ?_
        have hne : u ≠ t := fun e => hnew (e ▸ hu)
        rw [Graph.toList_insert, if_neg old]
        simp [hne]
      obtain ⟨facts, hfacts, eq⟩ := ih nodup noVar r₁ (added + 1)
      rw [same] at hfacts eq
      rw [List.filter_cons_of_pos (by simpa using old)]
      refine ⟨facts, ?_, (if_neg old).trans (eq.trans ?_)⟩
      · rw [Graph.addAll, List.foldlM_cons, hadd]
        exact hfacts
      · rw [List.length_cons, Nat.add_assoc, Nat.add_comm 1]
        rfl

/-- A run in place leaves what a run gives, and the reasoner as it was if the run fails. -/
theorem runInPlace_eq (r : Reasoner) : r.runInPlace = match r.run.result with
    | .ok (r', n) => (r', .ok n)
    | .error e => (r, .error e) := by
  rw [result_run, runInPlace]
  cases h : (infer r.facts.toList r.rules.toList r.config).result with
  | error e => rfl
  | ok D =>
    obtain ⟨facts, hfacts, eq⟩ := keepNew_eq D.nodup (hasVar_of_infer h) r 0
    rw [ok_bind, ← newAmong_eq, newAmong, hfacts]
    exact eq.trans (by rw [Nat.zero_add]; rfl)

theorem runInPlace_of_error {e : Fault}
    (h : (infer r.facts.toList r.rules.toList r.config).result = .error e) :
    r.runInPlace = (r, .error e) := by
  rw [runInPlace, h]

theorem runInPlace_of_ok (sound : r.Sound) {D : OrderedSet Triple}
    (h : (infer r.facts.toList r.rules.toList r.config).result = .ok D) :
    ∃ r', r.runInPlace = (r', .ok (r.newAmong D).length) ∧ r.Adds r' (r.newAmong D) := by
  obtain ⟨facts, hfacts, eq⟩ := keepNew_eq D.nodup (hasVar_of_infer h) r 0
  have nodup : (r.newAmong D).Nodup := D.nodup.filter _
  have new : ∀ t ∈ r.newAmong D, t ∉ r.facts.toList := fun t ht => of_decide_eq_true (List.mem_filter.1 ht).2
  have inferred : (r.inferred.insertAll (r.newAmong D)).toList = r.inferred.toList ++ r.newAmong D :=
    OrderedSet.toList_insertAll nodup fun t ht old => new t ht (sound.inferred t old)
  refine ⟨{ r with facts := facts, inferred := r.inferred.insertAll (r.newAmong D) }, ?_,
    Graph.toList_addAll nodup new hfacts, inferred, rfl, rfl⟩
  rw [runInPlace, h]
  exact eq.trans (by rw [Nat.zero_add]; rfl)

theorem Adds.sound {ts : List Triple} (h : r.Adds r' ts) (sound : r.Sound) : r'.Sound := by
  refine sound_of_inferred fun t ht => ?_
  rw [OrderedSet.mem_def, h.inferred, List.mem_append] at ht
  rw [h.facts, List.mem_append]
  exact ht.imp_left (sound.inferred t)

theorem Adds.grows {ts : List Triple} (h : r.Adds r' ts) : r.Grows r' := by
  constructor
  case facts =>
    rw [h.facts]
    exact List.prefix_append _ _
  case rules => exact ⟨[], by rw [h.rules, List.append_nil]⟩
  case inferred =>
    rw [h.inferred]
    exact List.prefix_append _ _
  case config => exact h.config

/-! ## Sequences of calls -/

theorem Sound.step (sound : r.Sound) (c : Call) : (r.step c).Sound ∧ r.Grows (r.step c) := by
  have of {r' : Reasoner} (h : r.Extends r') : r'.Sound ∧ r.Grows r' := ⟨h.1 sound, h.2⟩
  cases c with
  | addFact t =>
    cases h : r.addFact t with
    | error e =>
      rw [Reasoner.step, h]
      exact of (.refl r)
    | ok r' =>
      rw [Reasoner.step, h]
      exact of (extends_addFact h)
  | addRule rule => exact of (r.extends_addRule rule)
  | addTriple t =>
    cases h : r.addTriple t with
    | error e =>
      rw [Reasoner.step, h]
      exact of (.refl r)
    | ok r' =>
      rw [Reasoner.step, h]
      exact of (extends_addTriple h)
  | load ts => exact of (extends_load ts)
  | run =>
    cases h : (infer r.facts.toList r.rules.toList r.config).result with
    | error e =>
      rw [Reasoner.step, runInPlace_of_error h]
      exact of (.refl r)
    | ok D =>
      obtain ⟨r', eq, adds⟩ := runInPlace_of_ok sound h
      rw [Reasoner.step, eq]
      exact ⟨adds.sound sound, adds.grows⟩

theorem Sound.after (sound : r.Sound) (calls : List Call) :
    (r.after calls).Sound ∧ r.Grows (r.after calls) := by
  induction calls generalizing r with
  | nil => exact ⟨sound, .refl r⟩
  | cons c calls ih =>
    obtain ⟨next, grows⟩ := sound.step c
    exact ⟨(ih next).1, grows.trans (ih next).2⟩

theorem sound_new (config : Config) : (new config).Sound :=
  sound_of_inferred fun _ ht => absurd ht List.not_mem_nil

/-- A run fails as the inference does and changes nothing, or it adds what the inference gives and is no
fact yet. -/
structure RunsWhole (r : Reasoner) : Prop where
  fails : ∀ e, (infer r.facts.toList r.rules.toList r.config).result = .error e →
    r.run.result = .error e ∧ r.runInPlace = (r, .error e)
  adds : ∀ D, (infer r.facts.toList r.rules.toList r.config).result = .ok D →
    ∃ r', r.run.result = .ok (r', (r.newAmong D).length) ∧
      r.runInPlace = (r', .ok (r.newAmong D).length) ∧ r.Adds r' (r.newAmong D)

theorem Sound.runsWhole (sound : r.Sound) : r.RunsWhole := by
  constructor
  · intro e h
    refine ⟨?_, runInPlace_of_error h⟩
    rw [result_run, h]
    rfl
  · intro D h
    obtain ⟨r', hrun, adds⟩ := runInPlace_of_ok sound h
    refine ⟨r', ?_, hrun, adds⟩
    have eq := r.runInPlace_eq
    rw [hrun] at eq
    cases hresult : r.run.result with
    | error e =>
      rw [hresult] at eq
      cases (Prod.mk.inj eq).2
    | ok p =>
      rw [hresult] at eq
      obtain ⟨rfl, hn⟩ := Prod.mk.inj eq
      rw [Except.ok.inj hn]

/-- After any calls, refused ones among them, no fact has a variable, no rule is there twice, and what runs
added is among the facts; further calls lose and move nothing; and a run adds all that is new or, where it
fails, nothing. -/
theorem after_new (config : Config) (calls more : List Call) :
    ((new config).after calls).Sound ∧
    ((new config).after calls).Grows (((new config).after calls).after more) ∧
    ((new config).after calls).RunsWhole :=
  have sound := ((sound_new config).after calls).1
  ⟨sound, (sound.after more).2, sound.runsWhole⟩

/-- A fact is refused, a document is taken up to a triple with a variable, and a run adds three paths. Then
a rule is added whose conclusion is bound to something else than a formula, and a run changes nothing. -/
theorem after_new_refused :
    let link (x y : String) : Triple := ⟨.iri x, .iri "next", .iri y⟩
    let loose : Triple := ⟨.var "x", .iri "next", .iri "d"⟩
    let calls : List Call := [.addFact loose, .addTriple (link "a" "b"),
      .load [link "b" "c", loose, link "c" "d"]] ++ reachRules.map .addRule
    let marked : Rule := ⟨.quoting [⟨.iri "a", .iri "next", .var "y"⟩], .forward, .var "y"⟩
    let r := new.after calls
    let later := calls ++ [.run, .addRule marked]
    let stuck := new.after later
    r.facts.toList = [link "a" "b", link "b" "c"] ∧
      (∃ r' ts, r.runInPlace = (r', .ok 3) ∧ r.Adds r' ts ∧ ts.length = 3) ∧
      stuck.facts.size = 5 ∧ ∃ e, stuck.runInPlace = (stuck, .error e) := by
  intro link loose calls marked r later stuck
  have facts : r.facts.toList = [link "a" "b", link "b" "c"] := by decide +kernel
  have count : (infer r.facts.toList r.rules.toList r.config).result.toOption.map
      (fun D => (r.newAmong D).length) = some 3 := by decide +kernel
  have size : stuck.facts.size = 5 := by decide +kernel
  have fails : (infer stuck.facts.toList stuck.rules.toList stuck.config).result.toOption.map (·.size) =
      none := by decide +kernel
  have wholeOnce : r.RunsWhole := (after_new {} calls []).2.2
  have wholeStuck : stuck.RunsWhole := (after_new {} later []).2.2
  clear_value r stuck
  refine ⟨facts, ?_, size, ?_⟩
  · obtain ⟨D, hD, hn⟩ := exists_ok_of_map count
    obtain ⟨r', -, inPlace, adds⟩ := wholeOnce.adds D hD
    exact ⟨r', _, hn ▸ inPlace, adds, hn⟩
  · cases h : (infer stuck.facts.toList stuck.rules.toList stuck.config).result with
    | error e => exact ⟨e, (wholeStuck.fails e h).2⟩
    | ok D =>
      rw [h] at fails
      cases fails

end Reasoner

end TripleChain
