import Switchyard.Dict
import Switchyard.Exit

/-
  Switchyard.Outcome — what a visit to a node and the traversal of a flow came to.

  `FlowOutcome` keeps enough of a flow for a later attempt to take it up: where it may
  begin again, what it saw last, and the outcomes of the branches of every split it
  visited. `Failure` is an end the engine itself decided on, with no rule to route it.
-/

namespace Switchyard

/-- Why the engine failed a flow without a transition saying so. -/
inductive Failure where
  | unresolvedTransition (node exitCode : String)
  | unknownStep (node step : String)
  | unknownDecider (node decider : String)
  | visitLimitExceeded (node : String) (limit : Nat)
  deriving DecidableEq, Repr, Inhabited

namespace Failure

def node : Failure → String
  | .unresolvedTransition node _ => node
  | .unknownStep node _ => node
  | .unknownDecider node _ => node
  | .visitLimitExceeded node _ => node

def message : Failure → String
  | .unresolvedTransition node exitCode =>
    "unresolved transition: node '" ++ node ++ "' exited with '" ++ exitCode ++ "' and no pattern matched"
  | .unknownStep node step => "node '" ++ node ++ "' references unregistered step '" ++ step ++ "'"
  | .unknownDecider node decider => "node '" ++ node ++ "' references unregistered decider '" ++ decider ++ "'"
  | .visitLimitExceeded node limit =>
    "node visit limit of " ++ toString limit ++ " exceeded at node '" ++ node ++ "'"

end Failure

structure NodeOutcome where
  node : String
  status : Status
  exit : Exit
  deriving DecidableEq, Repr, Inhabited

/-- The end of a flow, with what a later attempt needs to take it up. -/
structure FlowOutcome where
  flow : String
  status : Status
  exit : Exit
  /-- The nodes that did not fail, in the order of their visits. -/
  completed : List String := []
  lastNode : Option String := none
  lastExit : Option Exit := none
  /-- Where the next attempt begins; only a failed or stopped flow has one. -/
  restartNode : Option String := none
  failure : Option Failure := none
  /-- The branch outcomes of each split, by the split's node. -/
  splits : Dict (List FlowOutcome) := ⟨[]⟩

instance : Inhabited FlowOutcome := ⟨{ flow := "", status := default, exit := default }⟩

/-- The last visit as an attempt that resumes sees it: node and exit are recorded, and
    the status is the one the exit's code stands for. -/
def lastOutcome? (node : Option String) (exit : Option Exit) : Option NodeOutcome :=
  match node, exit with
  | some node, some exit => some ⟨node, Status.ofExit exit, exit⟩
  | _, _ => none

end Switchyard
