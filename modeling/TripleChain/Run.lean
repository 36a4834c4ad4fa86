import TripleChain.Stratum.Basic

/-!
# Runs

An evaluation reports what it does: it gives a list of events beside its value or its fault.
Main statements: the value of a sequence of runs depends on their values alone, and the events
of the part before a fault are kept.
-/

namespace TripleChain

/-- What an evaluation reports. -/
inductive Event where
  /-- A document's rules are about to be run. -/
  | started (rules facts : Nat)
  | stratum (level : Nat) (stratum : Stratum)
  /-- How many triples a negative rule could derive, and how many its negations block. -/
  | negated (r : Rule) (candidates blocked : Nat)
  | guarded (r : Rule) (guard : Formula) (instances rounds : Nat)
  | round (number : Nat) (r : Rule) (added : Nat)
  /-- A bounded rule still derived new triples in its last round. -/
  | roundsExhausted (bound : Nat) (r : Rule)
  | limitReached (r : Rule)
  | walk (rules : List Nat) (passes : Nat)
  | passesExhausted (bound : Nat)
  /-- A rule of a cycle added triples in a pass. -/
  | rescheduled (pass rule added : Nat)

namespace Event

inductive Level where
  | warning
  | debug
  | trace
deriving DecidableEq, Repr

def Level.text : Level → String
  | warning => "WARN"
  | debug => "DEBUG"
  | trace => "TRACE"

def level : Event → Level
  | roundsExhausted _ _ | limitReached _ | passesExhausted _ => .warning
  | started _ _ | stratum _ _ | guarded _ _ _ _ | walk _ _ => .debug
  | negated _ _ _ | round _ _ _ | rescheduled _ _ _ => .trace

def numbersText (ns : List Nat) : String := "[" ++ ", ".intercalate (ns.map toString) ++ "]"

def message : Event → String
  | started rules facts =>
    "running " ++ toString rules ++ " rules over " ++ toString facts ++ " facts"
  | stratum level s =>
    "stratum " ++ toString level ++ ": " ++ s.kind.text ++ " over rules " ++ numbersText s.members
  | negated r candidates blocked =>
    "negative rule " ++ r.text ++ ": " ++ toString candidates ++ " candidates, " ++
      toString blocked ++ " blocked"
  | guarded r guard instances rounds =>
    "guarded rule " ++ r.text ++ ": guard " ++ guard.text ++ " with " ++ toString instances ++
      " instances, " ++ toString rounds ++ " rounds"
  | round number r added =>
    "round " ++ toString number ++ " of " ++ r.text ++ ": " ++ toString added ++ " new triples"
  | roundsExhausted bound r =>
    "round bound " ++ toString bound ++ " of " ++ r.text ++ " exhausted before a fixpoint"
  | limitReached r => "round limit reached for " ++ r.text
  | walk rules passes =>
    "mutual stratum walk " ++ numbersText rules ++ ": " ++ toString passes ++ " passes"
  | passesExhausted bound =>
    "pass bound " ++ toString bound ++ " of mutual stratum exhausted before a fixpoint"
  | rescheduled pass rule added =>
    "pass " ++ toString pass ++ ": rule " ++ toString rule ++ " added " ++ toString added ++
      ", rescheduling its triggers"

/-- The event as a line of a log. -/
def line (e : Event) : String := e.level.text ++ " " ++ e.message

end Event

/-- A value or a fault, and what was reported on the way. -/
structure Run (α : Type) where
  events : List Event
  result : Except Fault α

namespace Run
variable {α β : Type}

def pure (a : α) : Run α := ⟨[], .ok a⟩

def bind (x : Run α) (f : α → Run β) : Run β :=
  match x.result with
  | .ok a =>
    let y := f a
    ⟨x.events ++ y.events, y.result⟩
  | .error e => ⟨x.events, .error e⟩

instance : Monad Run where
  pure := pure
  bind := bind

def report (e : Event) : Run Unit := ⟨[e], .ok ()⟩

def fail (e : Fault) : Run α := ⟨[], .error e⟩

instance : MonadLift (Except Fault) Run := ⟨fun r => ⟨[], r⟩⟩

@[simp] theorem result_pure (a : α) : (Pure.pure a : Run α).result = .ok a := rfl

@[simp] theorem result_bind (x : Run α) (f : α → Run β) :
    (x >>= f).result = x.result.bind fun a => (f a).result := by
  show (bind x f).result = _
  unfold bind
  cases x.result <;> rfl

@[simp] theorem result_lift (r : Except Fault α) : (liftM r : Run α).result = r := rfl

@[simp] theorem result_report (e : Event) : (report e).result = .ok () := rfl

@[simp] theorem result_fail (e : Fault) : (fail e : Run α).result = .error e := rfl

end Run

end TripleChain
