import Switchyard.Graph
import Switchyard.Record
import Switchyard.Text.Digits

/-
  Switchyard.Flow.Start — where a traversal begins, fresh or from what an earlier
  attempt left behind.

  A job's next attempt is decided from its latest record alone (`resolve`). Only a
  sealed attempt that failed or stopped is taken up, at the node its record names, with
  its context; the nodes before that one are not run again. A branch of a split is
  taken up from its outcome (`FlowStart.resume`) and falls back to its entry.
-/

namespace Switchyard

/-- The first node of a traversal and what it is told of the attempt before. -/
structure FlowStart where
  node : String
  /-- What the first node sees as the visit before it. -/
  last : Option NodeOutcome := none
  /-- Branch outcomes to reuse if the first node is a split. -/
  prior : Option (List FlowOutcome) := none
  deriving Inhabited

namespace FlowStart

def entry (g : Graph) : FlowStart := { node := g.entry }

/-- The node an outcome names, if the graph has it, and the entry otherwise. -/
def resumeNode (g : Graph) (previous : FlowOutcome) : String :=
  match previous.restartNode with
  | some node => if g.contains node then node else g.entry
  | none => g.entry

def resume (g : Graph) (previous : FlowOutcome) : FlowStart :=
  let node := resumeNode g previous
  { node
    last := lastOutcome? previous.lastNode previous.lastExit
    prior := previous.splits.get? node }

end FlowStart

structure StartPoint where
  attempt : Nat
  context : Context
  start : FlowStart
  deriving Inhabited

def StartPoint.isRestart (p : StartPoint) : Bool := 1 < p.attempt

inductive RestartError where
  | notRestartable (instanceId : InstanceId) (status : Status)
  | restartDisabled (job : String)
  | unfinished (instanceId : InstanceId) (attempt : Nat)
  | unknownRestartNode (flow node : String)
  /-- The numbers for attempts are used up; there is no answer, only a panic. -/
  | noAttemptLeft
  deriving DecidableEq, Repr, Inhabited

def RestartError.message : RestartError → String
  | .notRestartable instanceId status =>
    "job instance " ++ instanceId.text ++ " finished " ++ status.name ++ " and cannot be restarted"
  | .restartDisabled job => "job '" ++ job ++ "' does not allow restarts"
  | .unfinished instanceId attempt =>
    "job instance " ++ instanceId.text ++ " attempt " ++ toString attempt ++ " has not finished"
  | .unknownRestartNode flow node => "restart node '" ++ node ++ "' is not part of flow '" ++ flow ++ "'"
  | .noAttemptLeft => "attempt to add with overflow"

namespace StartPoint

def fresh (g : Graph) : StartPoint := { attempt := 1, context := Dict.empty, start := FlowStart.entry g }

def nextAttempt (r : Record) : Except RestartError Nat :=
  if r.attempt < Text.maxU32 then .ok (r.attempt + 1) else .error .noAttemptLeft

/-- The node a record says to begin at, else the last one it saw, else the entry. -/
def restartNode (g : Graph) (r : Record) : String := (r.restartNode <|> r.lastNode).getD g.entry

/-- How to go on from an instance's latest record; `restartable` is the job's say in
    it, which matters only if there is one. -/
def resolve (latest : Option Record) (g : Graph) (restartable : Bool) : Except RestartError StartPoint :=
  match latest with
  | none => .ok (fresh g)
  | some r =>
    if !r.isSealed then .error (.unfinished r.instanceId r.attempt)
    else if !r.status.isRestartable then .error (.notRestartable r.instanceId r.status)
    else if !restartable then .error (.restartDisabled r.job)
    else
      let node := restartNode g r
      if !g.contains node then .error (.unknownRestartNode g.name node)
      else
        (nextAttempt r).map fun attempt =>
          { attempt
            context := r.context
            start := { node, last := lastOutcome? r.lastNode r.lastExit, prior := r.branches.get? node } }

end StartPoint

end Switchyard
