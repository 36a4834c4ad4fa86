import TripleChain.Cursor
import TripleChain.Inference.Closure

/-!
# Reasoners

Facts and rules that are added one by one or as a document, and whose consequences are put among
the facts when the reasoner is run.
-/

namespace TripleChain

structure Reasoner where
  facts : Graph
  rules : OrderedSet Rule
  /-- The facts that runs have added. -/
  inferred : OrderedSet Triple
  config : Config

namespace Reasoner

/-- A reasoner that knows nothing. -/
def new (config : Config := {}) : Reasoner := ⟨∅, ∅, ∅, config⟩

def addFact (r : Reasoner) (t : Triple) : Except Fault Reasoner :=
  (r.facts.add t).map fun facts => { r with facts := facts }

def addRule (r : Reasoner) (rule : Rule) : Reasoner := { r with rules := r.rules.insert rule }

/-- Adds an implication as a rule and any other triple as a fact. -/
def addTriple (r : Reasoner) (t : Triple) : Except Fault Reasoner :=
  if t.isImplication then (Rule.ofTriple t).map r.addRule else r.addFact t

/-- Adds facts up to the first one that is refused. -/
def addFacts : Reasoner → List Triple → Reasoner × Except Fault Unit
  | r, [] => (r, .ok ())
  | r, t :: ts =>
    match r.addFact t with
    | .ok r => addFacts r ts
    | .error e => (r, .error e)

/-- Adds a document, its rules before its facts. If a rule is malformed nothing is added. -/
def load (r : Reasoner) (ts : List Triple) : Reasoner × Except Fault Unit :=
  match separate ts with
  | .error e => (r, .error e)
  | .ok (rules, facts) => (rules.toList.foldl addRule r).addFacts facts

/-- Adds what the rules derive to the facts, and tells how many triples are new. -/
def run (r : Reasoner) : Run (Reasoner × Nat) := do
  Run.report (.started r.rules.size r.facts.size)
  let derived ← infer r.facts.toList r.rules.toList r.config
  let new := derived.toList.filter fun t => !r.facts.contains t
  let facts ← r.facts.addAll new
  return ({ r with facts := facts, inferred := r.inferred.insertAll new }, new.length)

/-- All bindings under which the patterns hold. -/
def query (r : Reasoner) (patterns : List Triple) : Answers :=
  (Store.graph r.facts).answers r.config patterns

/-- Whether the patterns hold under some bindings; the first answer decides. -/
def ask (r : Reasoner) (patterns : List Triple) : Except Fault Bool :=
  let start := Cursor.start r.config.patience (.graph r.facts) (r.config.order patterns) ∅
  match start.step with
  | .found _ _ => .ok true
  | .exhausted => .ok false
  | .cut => .error .outOfPatience

end Reasoner

end TripleChain
