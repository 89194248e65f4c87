/-
  Switchyard.Status — the lifecycle states of a job, a node or a split branch.

  The states form a closed set with upper-case names. `rank` orders them by severity,
  from `completed`, the mildest end, to `unknown`, the worst. `upgradeTo` combines the
  states of two parts into the one reported for both: once either is past `started`
  the more severe one, else a completed part over one still at work.
-/

namespace Switchyard

/-- Lifecycle state of a job attempt or of a node outcome. -/
inductive Status where
  | starting
  | started
  | stopping
  | stopped
  | completed
  | failed
  | abandoned
  | unknown
  deriving DecidableEq, Repr, Inhabited

namespace Status

def all : List Status :=
  [.starting, .started, .stopping, .stopped, .completed, .failed, .abandoned, .unknown]

def name : Status → String
  | .starting => "STARTING"
  | .started => "STARTED"
  | .stopping => "STOPPING"
  | .stopped => "STOPPED"
  | .completed => "COMPLETED"
  | .failed => "FAILED"
  | .abandoned => "ABANDONED"
  | .unknown => "UNKNOWN"

def ofName? (s : String) : Option Status := all.find? fun status => status.name = s

def unknownName (s : String) : String := "unknown batch status: '" ++ s ++ "'"

theorem ofName?_name (s : Status) : ofName? s.name = some s := by
  cases s <;> decide

/-- Severity; `completed` is the mildest outcome, `unknown` the worst. -/
def rank : Status → Nat
  | .completed => 0
  | .starting => 1
  | .started => 2
  | .stopping => 3
  | .stopped => 4
  | .failed => 5
  | .abandoned => 6
  | .unknown => 7

/-- An attempt in this state still holds its instance. -/
def isRunning : Status → Bool
  | .starting | .started | .stopping => true
  | _ => false

/-- `failed` or anything more severe. -/
def isUnsuccessful (s : Status) : Bool := rank .failed ≤ s.rank

/-- A later attempt may take the instance up again. -/
def isRestartable : Status → Bool
  | .failed | .stopped => true
  | _ => false

def moreSevere (a b : Status) : Status := if b.rank ≤ a.rank then a else b

/-- The state reported for two parts together. -/
def upgradeTo (a b : Status) : Status :=
  if rank .started < a.rank ∨ rank .started < b.rank then moreSevere a b
  else if a = .completed ∨ b = .completed then .completed
  else moreSevere a b

end Status

end Switchyard
