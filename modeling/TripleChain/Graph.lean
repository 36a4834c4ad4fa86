import Std.Data.TreeMap.Lemmas
import TripleChain.Fault
import TripleChain.Mask

/-!
# Graphs

A graph holds facts, each once and in the order of their insertion: triples without a variable
in a position. For each position it knows the facts that have a given term there, quoted
formulas aside. Main statement: a query returns the facts its mask admits, in order.
-/

namespace TripleChain

/-- For each term, the triples that have it in one position. -/
abbrev Column := Std.TreeMap Term (Array Triple)

/-- Adds a triple under the term it has in the position, unless that is a formula. -/
def Column.add (c : Column) (v : Term) (t : Triple) : Column :=
  if v.isFormula then c else c.alter v fun ts => some ((ts.getD #[]).push t)

theorem Column.getD_add (c : Column) (v : Term) (t : Triple) {w : Term} (h : w.isFormula = false) :
    ((c.add v t).getD w #[]) = if v = w then (c.getD w #[]).push t else c.getD w #[] := by
  unfold Column.add
  by_cases e : v = w
  · subst e
    rw [h, if_neg (by simp), Std.TreeMap.getD_alter]
    simp [Std.TreeMap.getD_eq_getD_getElem?]
  · rw [if_neg e]
    split
    · rfl
    · rw [Std.TreeMap.getD_alter, if_neg]
      exact fun h => e (Std.LawfulEqOrd.eq_of_compare h)

/-- One column for each position. -/
structure Columns where
  subjects : Column
  predicates : Column
  objects : Column

namespace Columns

def empty : Columns := ⟨∅, ∅, ∅⟩

def get (c : Columns) : Position → Column
  | .subject => c.subjects
  | .predicate => c.predicates
  | .object => c.objects

def add (c : Columns) (t : Triple) : Columns :=
  ⟨c.subjects.add t.subject t, c.predicates.add t.predicate t, c.objects.add t.object t⟩

theorem get_add (c : Columns) (t : Triple) (p : Position) :
    (c.add t).get p = (c.get p).add (t.get p) t := by cases p <;> rfl

end Columns

/-- Facts in the order of their insertion. -/
structure Graph where
  facts : Array Triple
  columns : Columns
  nodup : facts.toList.Nodup
  noVar : ∀ t ∈ facts.toList, t.hasVar = false
  indexed : ∀ p v, v.isFormula = false →
    ((columns.get p).getD v #[]).toList = facts.toList.filter fun t => t.get p = v

namespace Graph

def empty : Graph where
  facts := #[]
  columns := .empty
  nodup := List.nodup_nil
  noVar := nofun
  indexed p v _ := by cases p <;> simp [Columns.empty, Columns.get]

instance : EmptyCollection Graph := ⟨empty⟩

instance : Inhabited Graph := ⟨empty⟩

def toList (g : Graph) : List Triple := g.facts.toList

def size (g : Graph) : Nat := g.facts.size

/-- The facts with the term that the mask fixes in position `p`, if there are fewer of them than
in `best`. A formula is fixed in vain. -/
def narrow (g : Graph) (m : Mask) (best : Option (Array Triple)) (p : Position) :
    Option (Array Triple) :=
  match m.get? p with
  | none => best
  | some v =>
    if v.isFormula then best
    else
      let found := (g.columns.get p).getD v #[]
      match best with
      | none => some found
      | some old => if found.size < old.size then some found else best

/-- The facts to look through for a mask that fixes positions. -/
def candidates (g : Graph) (m : Mask) : Option (Array Triple) :=
  Position.all.foldl (g.narrow m) none

/-- The facts that the mask admits. -/
def query (g : Graph) (m : Mask) : List Triple :=
  ((g.candidates m).getD g.facts).toList.filter m.admits

/-- The facts with the term that the mask fixes in one of its positions. -/
def IsColumn (g : Graph) (m : Mask) (found : Array Triple) : Prop :=
  ∃ p v, m.get? p = some v ∧ found.toList = g.toList.filter fun t => t.get p = v

theorem isColumn_narrow {g : Graph} {m : Mask} {best : Option (Array Triple)} {p : Position}
    (h : ∀ a, best = some a → g.IsColumn m a) {a : Array Triple} (ha : g.narrow m best p = some a) :
    g.IsColumn m a := by
  unfold narrow at ha
  split at ha
  · exact h a ha
  · next v hv =>
    split at ha
    · exact h a ha
    · next hf =>
      have mine : g.IsColumn m ((g.columns.get p).getD v #[]) :=
        ⟨p, v, hv, g.indexed p v (by simpa using hf)⟩
      dsimp only at ha
      split at ha
      · exact Option.some.inj ha ▸ mine
      · split at ha
        · exact Option.some.inj ha ▸ mine
        · exact h a ha

theorem isColumn_candidates {g : Graph} {m : Mask} {a : Array Triple}
    (h : g.candidates m = some a) : g.IsColumn m a := by
  have start : ∀ a, (none : Option (Array Triple)) = some a → g.IsColumn m a :=
    fun _ e => by cases e
  exact isColumn_narrow (fun _ => isColumn_narrow fun _ => isColumn_narrow start) h

/-- The index answers as a scan would. -/
theorem query_eq_filter (g : Graph) (m : Mask) : g.query m = g.toList.filter m.admits := by
  unfold query
  cases h : g.candidates m with
  | none => rfl
  | some found =>
    obtain ⟨p, v, hv, eq⟩ := isColumn_candidates h
    rw [Option.getD_some, eq, List.filter_filter]
    refine List.filter_congr fun t _ => ?_
    cases ha : m.admits t with
    | false => rfl
    | true => simp [Mask.admits_iff.1 ha p v hv]

theorem mem_query {g : Graph} {m : Mask} {t : Triple} :
    t ∈ g.query m ↔ t ∈ g.toList ∧ m.admits t = true := by
  rw [query_eq_filter, List.mem_filter]

def contains (g : Graph) (t : Triple) : Bool := !(g.query (.exactly t)).isEmpty

theorem contains_iff {g : Graph} {t : Triple} : g.contains t = true ↔ t ∈ g.toList := by
  rw [contains, Bool.not_eq_true', List.isEmpty_eq_false_iff_exists_mem]
  simp only [mem_query, Mask.admits_exactly, exists_eq_right]

/-- Adds a fact at the end, unless it is present. -/
def insert (g : Graph) (t : Triple) (h : t.hasVar = false) : Graph :=
  if m : g.contains t then g
  else
    { facts := g.facts.push t
      columns := g.columns.add t
      nodup := by
        rw [Array.toList_push, List.nodup_append]
        refine ⟨g.nodup, by simp, fun u hu v hv e => m ?_⟩
        rw [List.mem_singleton] at hv
        exact contains_iff.2 (hv ▸ e ▸ hu)
      noVar := fun u hu => by
        rw [Array.toList_push, List.mem_append, List.mem_singleton] at hu
        rcases hu with hu | rfl
        · exact g.noVar u hu
        · exact h
      indexed := fun p v hv => by
        rw [Columns.get_add, Column.getD_add _ _ _ hv, Array.toList_push, List.filter_append]
        by_cases e : t.get p = v
        · rw [if_pos e, Array.toList_push, g.indexed p v hv]; simp [e]
        · rw [if_neg e, g.indexed p v hv]; simp [e] }

theorem toList_insert (g : Graph) (t : Triple) (h : t.hasVar = false) :
    (g.insert t h).toList = if t ∈ g.toList then g.toList else g.toList ++ [t] := by
  unfold insert
  by_cases m : t ∈ g.toList
  · rw [dif_pos (contains_iff.2 m), if_pos m]
  · rw [dif_neg (fun c => m (contains_iff.1 c)), if_neg m]
    exact Array.toList_push

/-- Adds a triple, which must not have a variable in a position. -/
def add (g : Graph) (t : Triple) : Except Fault Graph :=
  if h : t.hasVar = false then .ok (g.insert t h) else .error (.variableInFact t)

/-- Adds triples, none of which may have a variable in a position. -/
def addAll (g : Graph) (ts : List Triple) : Except Fault Graph := ts.foldlM add g

/-- The graph of the given facts. -/
def ofList (ts : List Triple) : Except Fault Graph := empty.addAll ts

/-- Whether two graphs hold the same facts, in whatever order. -/
def sameFacts (g h : Graph) : Bool := g.size = h.size && g.toList.all h.contains

end Graph

end TripleChain
