import TripleChain.Interchange.Terms
import TripleChain.Stratum.Basic

/-!
# Reports

Rules and triples written for a reader, with short names for their blank nodes, and the strata
and dependencies of a list of rules. The names follow the order of appearance, so that rules that
differ only in labels, such as minted ones, are written alike.
-/

namespace TripleChain

/-- The short name with a number: the letters, then the letters with one, with two, and so on. -/
def shortName (n : Nat) : String :=
  let letter := (Char.ofNat ('a'.toNat + n % 26)).toString
  if n < 26 then letter else letter ++ toString (n / 26)

/-- The blank nodes among slots, in order of appearance. -/
def blanksOf (slots : List Term) : OrderedSet Term := .ofList (slots.filter Term.isBlank)

/-- The short name of a label among the blank nodes that appear in a text. -/
def nameAmong (blanks : OrderedSet Term) (label : String) : String :=
  shortName (blanks.toList.idxOf (.blank label))

/-- The rule with short names for its blank nodes. -/
def Rule.shortText (r : Rule) : String :=
  let (first, arrow, second) := match r.direction with
    | .forward => (r.condition, " => ", r.conclusion)
    | .backward => (r.conclusion, " <= ", r.condition)
  let name := nameAmong (blanksOf (first.slots ++ second.slots))
  first.textWith name ++ arrow ++ second.textWith name

/-- The triples on lines of their own, with short names for their blank nodes. -/
def Triple.linesText (ts : List Triple) : String :=
  let name := nameAmong (blanksOf (ts.flatMap Triple.slots))
  String.join (ts.map fun t => t.textWith name ++ " .\n")

namespace Report

/-- Sets the value of a key; a new key comes last. -/
def set {κ ν : Type} [DecidableEq κ] (k : κ) (v : ν) : List (κ × ν) → List (κ × ν)
  | [] => [(k, v)]
  | (k', v') :: es => if k' = k then (k', v) :: es else (k', v') :: set k v es

/-- The values of keys, the last one where a key is repeated. -/
def toMap {κ ν : Type} [DecidableEq κ] (es : List (κ × ν)) : List (κ × ν) :=
  es.foldl (fun m e => set e.1 e.2 m) []

/-- The rules with the given numbers. -/
def select (rules : List Rule) (members : List Nat) : List Rule :=
  members.filterMap fun i => rules[i]?

def strataOf (rules : List Rule) : List Stratum := stratify rules (.ofRules rules)

/-- The strata as sets of rules. -/
def strata (rules : List Rule) : List (OrderedSet Rule) :=
  (strataOf rules).map fun s => .ofList (select rules s.members)

/-- For every rule, the rules that can feed it. -/
def dependencies (rules : List Rule) : List (Rule × OrderedSet Rule) :=
  let g := DependencyGraph.ofRules rules
  toMap (rules.zipIdx.map fun (r, i) => (r, .ofList (select rules (g.dependsOn i))))

/-- For every rule as it is written, the kind of its stratum. -/
def kinds (rules : List Rule) : List (String × Stratum.Kind) :=
  toMap ((strataOf rules).flatMap fun s =>
    (select rules s.members).map fun r => (r.shortText, s.kind))

/-- The strata with their levels, kinds and rules, as an indented JSON text. -/
def strataText (rules : List Rule) : String :=
  (Interchange.Value.list ((strataOf rules).zipIdx.map fun (s, level) =>
    .object [("level", .natural level), ("kind", s.kind.toValue),
      ("rules", .list ((select rules s.members).map fun r => .text r.shortText))])).indented 0

end Report

end TripleChain
