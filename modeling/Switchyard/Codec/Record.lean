import Switchyard.Codec.Outcome
import Switchyard.Config
import Switchyard.Event
import Switchyard.Record

/-
  Switchyard.Codec.Record — parameters, contexts, records, live views, events and the
  configuration in JSON.

  Times are written in the form that ends in the letter for universal time and read in
  the loose form. Parameters, completed nodes and the context of a record are always
  written; an empty map of branches is not.
-/

namespace Switchyard

open Codec

namespace Parameter

def toJson (p : Parameter) : Json := .obj [("value", .str p.value), ("identifying", .bool p.identifying)]

def ofJson? (j : Json) : Option Parameter := do
  let f ← fields? ["value", "identifying"] j
  let value ← required f "value" text?
  let identifying ← defaulted f "identifying" true flag?
  some { value, identifying }

end Parameter

namespace Parameters

def toJson (p : Parameters) : Json := .obj (p.map Parameter.toJson).entries

def ofJson? : Json → Option Parameters := mapOf? Parameter.ofJson?

end Parameters

namespace Context

def toJson (c : Context) : Json := .obj c.entries

def ofJson? : Json → Option Context
  | .obj members => some ⟨Json.canonicalMembers members⟩
  | _ => none

end Context

def ExecutionId.ofJson? (j : Json) : Option ExecutionId := text? j >>= ExecutionId.parse?

def Instant.ofJson? (j : Json) : Option Instant := text? j >>= Instant.parseLoose?

def InstanceId.ofJson? (j : Json) : Option InstanceId := (text? j).map InstanceId.mk

namespace Record

def toJson (r : Record) : Json :=
  .obj ([("execution_id", .str r.id.text), ("instance_id", .str r.instanceId.text), ("job_name", .str r.job),
      ("attempt", .nat r.attempt), ("parameters", Parameters.toJson r.parameters),
      ("completed_nodes", ofTexts r.completed)] ++
    Json.optional "last_node" (r.lastNode.map .str) ++ Json.optional "last_exit" (r.lastExit.map Exit.toJson) ++
    Json.optional "final_status" (r.finalStatus.map Status.toJson) ++
    Json.optional "final_exit" (r.finalExit.map Exit.toJson) ++
    Json.optional "restart_node" (r.restartNode.map .str) ++ Json.optional "failure" (r.failure.map Failure.toJson) ++
    Json.optional "branches" (FlowOutcome.splitsJson? r.branches) ++
    [("context", Context.toJson r.context), ("started_at", .str r.started.zulu)] ++
    Json.optional "ended_at" (r.ended.map fun t => .str t.zulu))

def fieldNames : List String :=
  ["execution_id", "instance_id", "job_name", "attempt", "parameters", "completed_nodes", "last_node", "last_exit",
   "final_status", "final_exit", "restart_node", "failure", "branches", "context", "started_at", "ended_at"]

def ofJson? (j : Json) : Option Record := do
  let f ← fields? fieldNames j
  let id ← required f "execution_id" ExecutionId.ofJson?
  let instanceId ← required f "instance_id" InstanceId.ofJson?
  let job ← required f "job_name" text?
  let attempt ← required f "attempt" (natural? Text.maxU32)
  let parameters ← defaulted f "parameters" Dict.empty Parameters.ofJson?
  let completed ← defaulted f "completed_nodes" [] (listOf? text?)
  let lastNode ← optional f "last_node" text?
  let lastExit ← optional f "last_exit" Exit.ofJson?
  let finalStatus ← optional f "final_status" Status.ofJson?
  let finalExit ← optional f "final_exit" Exit.ofJson?
  let restartNode ← optional f "restart_node" text?
  let failure ← optional f "failure" Failure.ofJson?
  let branches ← defaulted f "branches" Dict.empty FlowOutcome.splitsOfJson?
  let context ← defaulted f "context" Dict.empty Context.ofJson?
  let started ← required f "started_at" Instant.ofJson?
  let ended ← optional f "ended_at" Instant.ofJson?
  some { id, instanceId, job, attempt, parameters, completed, lastNode, lastExit, finalStatus, finalExit, restartNode,
         failure, branches, context, started, ended }

end Record

namespace Phase

def toJson (p : Phase) : Json := .str p.name

def ofJson? : Json → Option Phase := named? ofName?

end Phase

namespace Snapshot

def toJson (s : Snapshot) : Json :=
  .obj ([("instance_id", .str s.instanceId.text), ("job_name", .str s.job), ("attempt", .nat s.attempt),
      ("state", s.phase.toJson)] ++
    Json.optional "current_node" (s.currentNode.map .str) ++
    [("completed_nodes", ofTexts s.completed)] ++
    Json.optional "last_exit" (s.lastExit.map Exit.toJson) ++
    [("status", s.status.toJson)])

def fieldNames : List String :=
  ["instance_id", "job_name", "attempt", "state", "current_node", "completed_nodes", "last_exit", "status"]

def ofJson? (j : Json) : Option Snapshot := do
  let f ← fields? fieldNames j
  let instanceId ← required f "instance_id" InstanceId.ofJson?
  let job ← required f "job_name" text?
  let attempt ← required f "attempt" (natural? Text.maxU32)
  let phase ← required f "state" Phase.ofJson?
  let currentNode ← optional f "current_node" text?
  let completed ← required f "completed_nodes" (listOf? text?)
  let lastExit ← optional f "last_exit" Exit.ofJson?
  let status ← required f "status" Status.ofJson?
  some { instanceId, job, attempt, phase, currentNode, completed, lastExit, status }

end Snapshot

namespace Event

def toJson : Event → Json
  | .jobStarted id instanceId job attempt startNode =>
    .obj [("type", .str "job_started"), ("execution_id", .str id.text), ("instance_id", .str instanceId.text),
      ("job_name", .str job), ("attempt", .nat attempt), ("start_node", .str startNode)]
  | .nodeStarted id flow node =>
    .obj [("type", .str "node_started"), ("execution_id", .str id.text), ("flow", .str flow), ("node", .str node)]
  | .nodeFinished id flow node status exit millis =>
    .obj [("type", .str "node_finished"), ("execution_id", .str id.text), ("flow", .str flow), ("node", .str node),
      ("status", status.toJson), ("exit", exit.toJson), ("duration_ms", .nat millis)]
  | .jobFinished id instanceId job status exit millis =>
    .obj [("type", .str "job_finished"), ("execution_id", .str id.text), ("instance_id", .str instanceId.text),
      ("job_name", .str job), ("status", status.toJson), ("exit", exit.toJson), ("duration_ms", .nat millis)]

def ofType? (j : Json) : String → Option Event
  | "job_started" => do
    let f ← objectFields? ["execution_id", "instance_id", "job_name", "attempt", "start_node"] j
    let id ← required f "execution_id" ExecutionId.ofJson?
    let instanceId ← required f "instance_id" InstanceId.ofJson?
    let job ← required f "job_name" text?
    let attempt ← required f "attempt" (natural? Text.maxU32)
    let startNode ← required f "start_node" text?
    some (.jobStarted id instanceId job attempt startNode)
  | "node_started" => do
    let f ← objectFields? ["execution_id", "flow", "node"] j
    let id ← required f "execution_id" ExecutionId.ofJson?
    let flow ← required f "flow" text?
    let node ← required f "node" text?
    some (.nodeStarted id flow node)
  | "node_finished" => do
    let f ← objectFields? ["execution_id", "flow", "node", "status", "exit", "duration_ms"] j
    let id ← required f "execution_id" ExecutionId.ofJson?
    let flow ← required f "flow" text?
    let node ← required f "node" text?
    let status ← required f "status" Status.ofJson?
    let exit ← required f "exit" Exit.ofJson?
    let millis ← required f "duration_ms" (natural? Text.maxU64)
    some (.nodeFinished id flow node status exit millis)
  | "job_finished" => do
    let f ← objectFields? ["execution_id", "instance_id", "job_name", "status", "exit", "duration_ms"] j
    let id ← required f "execution_id" ExecutionId.ofJson?
    let instanceId ← required f "instance_id" InstanceId.ofJson?
    let job ← required f "job_name" text?
    let status ← required f "status" Status.ofJson?
    let exit ← required f "exit" Exit.ofJson?
    let millis ← required f "duration_ms" (natural? Text.maxU64)
    some (.jobFinished id instanceId job status exit millis)
  | _ => none

def ofJson? (j : Json) : Option Event := do
  required (← objectFields? ["type"] j) "type" text? >>= ofType? j

end Event

namespace LogFormat

def name : LogFormat → String
  | .pretty => "pretty"
  | .json => "json"

def ofName? : String → Option LogFormat
  | "pretty" => some .pretty
  | "json" => some .json
  | _ => none

end LogFormat

namespace Config

def toJson (c : Config) : Json :=
  .obj ([("max_parallel_branches", .nat c.maxParallelBranches)] ++
    Json.optional "step_timeout_secs" (c.stepTimeout.map .nat) ++
    [("max_node_visits", .nat c.maxNodeVisits), ("max_sub_job_depth", .nat c.maxSubJobDepth),
     ("event_capacity", .nat c.eventCapacity)] ++
    Json.optional "database_url" (c.databaseUrl.map .str) ++
    [("logging", .obj [("format", .str c.logging.format.name), ("otel", .bool c.logging.otel)])])

def loggingOfJson? (j : Json) : Option Logging := do
  let f ← fields? ["format", "otel"] j
  let format ← defaulted f "format" .pretty (named? LogFormat.ofName?)
  let otel ← defaulted f "otel" false flag?
  some { format, otel }

def fieldNames : List String :=
  ["max_parallel_branches", "step_timeout_secs", "max_node_visits", "max_sub_job_depth", "event_capacity",
   "database_url", "logging"]

def ofJson? (j : Json) : Option Config := do
  let f ← fields? fieldNames j
  let maxParallelBranches ← defaulted f "max_parallel_branches" 0 (natural? Text.maxU64)
  let stepTimeout ← optional f "step_timeout_secs" (natural? Text.maxU64)
  let maxNodeVisits ← defaulted f "max_node_visits" 10000 (natural? Text.maxU32)
  let maxSubJobDepth ← defaulted f "max_sub_job_depth" 5 (natural? Text.maxU8)
  let eventCapacity ← defaulted f "event_capacity" 256 (natural? Text.maxU64)
  let databaseUrl ← optional f "database_url" text?
  let logging ← defaulted f "logging" {} loggingOfJson?
  some { maxParallelBranches, stepTimeout, maxNodeVisits, maxSubJobDepth, eventCapacity, databaseUrl, logging }

end Config

end Switchyard
