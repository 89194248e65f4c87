import Switchyard.ExecutionId
import Switchyard.Identity
import Switchyard.Outcome

/-
  Switchyard.Event — what observers of running jobs are told.

  An attempt opens with `jobStarted` and, if it is sealed, closes with `jobFinished`.
  Every visit to a node, in the job's own flow or in a branch, opens with `nodeStarted`
  and closes with `nodeFinished`.
-/

namespace Switchyard

inductive Event where
  | jobStarted (id : ExecutionId) (instanceId : InstanceId) (job : String) (attempt : Nat) (startNode : String)
  | nodeStarted (id : ExecutionId) (flow node : String)
  | nodeFinished (id : ExecutionId) (flow node : String) (status : Status) (exit : Exit) (millis : Nat)
  | jobFinished (id : ExecutionId) (instanceId : InstanceId) (job : String) (status : Status) (exit : Exit)
      (millis : Nat)
  deriving DecidableEq, Repr, Inhabited

def Event.id : Event → ExecutionId
  | .jobStarted id .. => id
  | .nodeStarted id .. => id
  | .nodeFinished id .. => id
  | .jobFinished id .. => id

end Switchyard
