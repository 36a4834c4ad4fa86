/-!
# Configuration

How rules are evaluated.
-/

namespace TripleChain

structure Config where
  /-- Whether clauses are put in order before they are matched. -/
  reorderClauses : Bool := true
  /-- The most rounds that rules feeding each other are evaluated. -/
  roundLimit : Option Nat := none
  /-- Where nothing else bounds the evaluation: how many scopes may be open inside one another,
  and how many rounds a rule with a variable conclusion may take. -/
  patience : Nat := 10000
deriving DecidableEq, Repr

namespace Config

def withReorderClauses (c : Config) (value : Bool) : Config := { c with reorderClauses := value }

def withRoundLimit (c : Config) (limit : Nat) : Config := { c with roundLimit := some limit }

/-- The rounds allowed where `bound` would do. -/
def rounds (c : Config) (bound : Nat) : Nat :=
  match c.roundLimit with
  | none => bound
  | some limit => min bound limit

theorem rounds_le (c : Config) (bound : Nat) : c.rounds bound ≤ bound := by
  unfold rounds
  split
  · exact Nat.le_refl _
  · exact Nat.min_le_left ..

end Config

end TripleChain
