import Switchyard.Config
import Switchyard.Flow.Progress
import Switchyard.Flow.Start
import Switchyard.Store.Error

/-
  Switchyard.Engine.Unit — steps and deciders, the units of work the engine calls.

  A unit is told about its visit (`Briefing`) and acts by a `Script`: it may ask the
  engine for things, wait, and end with a result, an error or a panic, or never end. Its
  own memory (`σ`) passes through it, and everything it asks may change the memory in
  between, because other units may run meanwhile. So a unit can do whatever a
  deterministic program with state can do; nothing else is assumed of it.

  `Request` and `Reply` are also what callers outside ask the engine.
-/

namespace Switchyard

/-- A job that can be run: its graph, whose name it has, and whether a failed or
    stopped instance may be run again. -/
structure Definition where
  graph : Graph
  restartable : Bool := true
  description : Option String := none

def Definition.name (d : Definition) : String := d.graph.name

structure Report where
  instanceId : InstanceId
  status : Status
  exit : Exit
  record : Record

def Report.isSuccess (r : Report) : Bool := r.status = .completed

structure CheckpointError where
  cause : StoreError
  deriving DecidableEq, Repr, Inhabited

def CheckpointError.message (e : CheckpointError) : String := "checkpoint repository error: " ++ e.cause.message

inductive FlowError where
  | checkpoint (e : CheckpointError)
  | unknownNode (flow node : String)
  deriving DecidableEq, Repr, Inhabited

def FlowError.message : FlowError → String
  | .checkpoint e => "checkpoint error: " ++ e.message
  | .unknownNode flow node => "flow '" ++ flow ++ "' has no node '" ++ node ++ "'"

inductive JobError where
  | unknownJob (job : String)
  | restart (e : RestartError)
  | alreadyRunning (instanceId : InstanceId)
  | noExecution (instanceId : InstanceId)
  | history (e : StoreError)
  | checkpoint (e : CheckpointError)
  | flow (e : FlowError)
  deriving DecidableEq, Repr, Inhabited

namespace JobError

def message : JobError → String
  | .unknownJob job => "unknown job '" ++ job ++ "'"
  | .restart e => e.message
  | .alreadyRunning instanceId => "job instance " ++ instanceId.text ++ " is already running"
  | .noExecution instanceId => "no execution recorded for job instance " ++ instanceId.text
  | .history e => "execution history error: " ++ e.message
  | .checkpoint e => e.message
  | .flow e => e.message

/-- The error's text and those of the errors that caused it, outermost first. An error
    that only passes another one on has the other's text and causes. -/
def chain : JobError → List String
  | .history e => [message (.history e), e.message]
  | .flow (.checkpoint e) => [message (.flow (.checkpoint e)), e.message]
  | e => [e.message]

end JobError

inductive Request where
  | run (job : String) (parameters : Parameters)
  | state (instanceId : InstanceId)
  | stop (instanceId : InstanceId)
  | abandon (instanceId : InstanceId)
  | history (instanceId : InstanceId)
  | recent (limit : Nat)
  | register (d : Definition)
  | jobs
  | job (name : String)
  | instanceId (job : String) (parameters : Parameters)
  | config
  /-- Cancel the traversal that the asking unit works in. -/
  | cancel

inductive Reply where
  | report (r : Except JobError Report)
  | state (s : Except JobError (Option Snapshot))
  | stopping (wasRunning : Bool)
  | record (r : Except JobError Record)
  | records (l : Except JobError (List Record))
  | latest (l : Except JobError (List Record))
  | definition (d : Definition)
  | definitions (l : List Definition)
  | lookup (d : Option Definition)
  | instanceId (id : InstanceId)
  | config (c : Config)
  | done
  /-- There is no engine to ask. -/
  | unavailable

structure Briefing where
  job : String
  instanceId : InstanceId
  id : ExecutionId
  attempt : Nat
  /-- The graph the node belongs to, the job's own or a branch's. -/
  flow : String
  node : String
  parameters : Parameters
  context : Context
  /-- The visit before this one, on a restart the last one of the attempt before. -/
  last : Option NodeOutcome

def Briefing.isRestart (b : Briefing) : Bool := 1 < b.attempt

/-- What a panic carries: a text, or something that is none. -/
inductive Payload where
  | text (s : String)
  | other
  deriving DecidableEq, Repr, Inhabited

def Payload.message : Payload → String
  | .text s => "panicked: " ++ s
  | .other => "panicked"

structure StepResult where
  status : Status
  exit : Exit
  updates : Context := Dict.empty
  deriving Inhabited

inductive Ending (α : Type) where
  | result (a : α)
  /-- An error and its causes, outermost first. -/
  | error (chain : List String)
  | panic (p : Payload)

/-- What a unit does, its memory passing through it. -/
inductive Script (σ α : Type) where
  | finish (memory : σ) (e : Ending α)
  | ask (memory : σ) (r : Request) (resume : Reply → σ → Script σ α)
  | wait (memory : σ) (millis : Nat) (resume : σ → Script σ α)
  | hang (memory : σ)

structure Units (σ : Type) where
  step : String → Option (Briefing → σ → Script σ StepResult)
  decider : String → Option (Briefing → σ → Script σ Exit)

end Switchyard
