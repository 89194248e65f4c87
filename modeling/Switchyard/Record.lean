import Switchyard.ExecutionId
import Switchyard.Identity
import Switchyard.Instant
import Switchyard.Outcome

/-
  Switchyard.Record — the durable record of one attempt of a job instance, and the live
  view of an attempt under way.

  A record is opened when the attempt starts, notes every node, and is sealed by the
  outcome of the flow or by being abandoned. A sealed record never changes again.
-/

namespace Switchyard

structure Record where
  id : ExecutionId
  instanceId : InstanceId
  job : String
  /-- The number of the attempt within its instance, from one. -/
  attempt : Nat
  parameters : Parameters := Dict.empty
  completed : List String := []
  lastNode : Option String := none
  lastExit : Option Exit := none
  /-- Absent while the attempt runs. -/
  finalStatus : Option Status := none
  finalExit : Option Exit := none
  restartNode : Option String := none
  failure : Option Failure := none
  /-- The branch outcomes of each split visited, by the split's node. -/
  branches : Dict (List FlowOutcome) := Dict.empty
  context : Context := Dict.empty
  started : Instant
  ended : Option Instant := none
  deriving Inhabited

namespace Record

def start (id : ExecutionId) (started : Instant) (instanceId : InstanceId) (job : String) (attempt : Nat)
    (parameters : Parameters) (context : Context) : Record :=
  { id, instanceId, job, attempt, parameters, context, started }

def isSealed (r : Record) : Bool := r.finalStatus.isSome

/-- The final status once sealed, and `started` before. -/
def status (r : Record) : Status := r.finalStatus.getD .started

def note (r : Record) (o : NodeOutcome) : Record :=
  if r.isSealed then r
  else
    { r with
      completed := if o.status = .failed then r.completed else r.completed ++ [o.node]
      lastNode := some o.node
      lastExit := some o.exit }

/-- Seal with the outcome of the job's flow; none if the record was sealed already. -/
def sealWith? (r : Record) (o : FlowOutcome) (now : Instant) : Option Record :=
  if r.isSealed then none
  else
    some { r with
      completed := o.completed
      lastNode := o.lastNode
      lastExit := o.lastExit
      finalStatus := some o.status
      finalExit := some o.exit
      restartNode := o.restartNode
      failure := o.failure
      branches := o.splits
      ended := some now }

/-- Seal an attempt that reached no end as `abandoned`; none if it was sealed already. -/
def abandon? (r : Record) (now : Instant) : Option Record :=
  if r.isSealed then none
  else
    some { r with
      finalStatus := some .abandoned
      finalExit := some (Exit.ofStatus .abandoned)
      ended := some now }

end Record

inductive Phase where
  | pending
  | runningNode
  | awaitingMatch
  | terminated
  deriving DecidableEq, Repr, Inhabited

def Phase.all : List Phase := [.pending, .runningNode, .awaitingMatch, .terminated]

def Phase.name : Phase → String
  | .pending => "PENDING"
  | .runningNode => "RUNNING_NODE"
  | .awaitingMatch => "AWAITING_MATCH"
  | .terminated => "TERMINATED"

def Phase.ofName? (s : String) : Option Phase := Phase.all.find? fun p => p.name = s

structure Snapshot where
  instanceId : InstanceId
  job : String
  attempt : Nat
  phase : Phase
  currentNode : Option String := none
  completed : List String := []
  lastExit : Option Exit := none
  status : Status
  deriving DecidableEq, Repr, Inhabited

/-- The view of an attempt that is not under way, from its record. -/
def Record.snapshot (r : Record) : Snapshot :=
  { instanceId := r.instanceId
    job := r.job
    attempt := r.attempt
    phase := if r.isSealed then .terminated else .pending
    currentNode := r.lastNode
    completed := r.completed
    lastExit := r.lastExit
    status := r.status }

end Switchyard
