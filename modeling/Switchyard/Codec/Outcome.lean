import Switchyard.Codec.Shape
import Switchyard.Outcome
import Switchyard.Text.Digits
import Switchyard.Transition

/-
  Switchyard.Codec.Outcome — statuses, exit signals, transitions, failures and outcomes
  in JSON.

  What is optional and absent is left out, and so are an empty description and an empty
  map of splits. A transition's action and a failure's kind are named in the object
  that holds their own fields. Outcomes are read to the depth of the value they are
  read from, which no outcome in it exceeds.
-/

namespace Switchyard

open Codec

namespace Status

def toJson (s : Status) : Json := .str s.name

def ofJson? : Json → Option Status := named? ofName?

end Status

namespace Exit

def toJson (e : Exit) : Json :=
  .obj (("code", .str e.code) :: if e.description = "" then [] else [("description", .str e.description)])

def ofJson? (j : Json) : Option Exit := do
  let f ← fields? ["code", "description"] j
  let code ← required f "code" text?
  let description ← defaulted f "description" "" text?
  some { code, description }

end Exit

namespace Transition

def actionJson : Action → List (String × Json)
  | .goto target => [("action", .str "continue"), ("target", .str target)]
  | .complete => [("action", .str "end")]
  | .fail => [("action", .str "fail")]
  | .stop restart => [("action", .str "stop"), ("restart", .str restart)]

def toJson (t : Transition) : Json :=
  .obj (("pattern", .str t.pattern) :: actionJson t.action ++
    Json.optional "exit_code" (t.exitCode.map .str) ++ Json.optional "status" (t.status.map Status.toJson))

/-- Read an action by its name, or by its place among the four; `j` holds the fields it brings along. -/
def action? (j : Json) : Json → Option Action
  | .str "continue" | .int 0 => do (required (← objectFields? ["target"] j) "target" text?).map .goto
  | .str "end" | .int 1 => some .complete
  | .str "fail" | .int 2 => some .fail
  | .str "stop" | .int 3 => do (required (← objectFields? ["restart"] j) "restart" text?).map .stop
  | _ => none

def ofJson? (j : Json) : Option Transition := do
  let f ← objectFields? ["pattern", "action", "exit_code", "status"] j
  let pattern ← required f "pattern" text?
  let action ← required f "action" (action? j)
  let exitCode ← optional f "exit_code" text?
  let status ← optional f "status" Status.ofJson?
  some { pattern, action, exitCode, status }

end Transition

namespace Failure

def toJson : Failure → Json
  | .unresolvedTransition node exitCode =>
    .obj [("kind", .str "unresolved_transition"), ("node", .str node), ("exit_code", .str exitCode)]
  | .unknownStep node step => .obj [("kind", .str "unknown_step"), ("node", .str node), ("step", .str step)]
  | .unknownDecider node decider =>
    .obj [("kind", .str "unknown_decider"), ("node", .str node), ("decider", .str decider)]
  | .visitLimitExceeded node limit =>
    .obj [("kind", .str "visit_limit_exceeded"), ("node", .str node), ("limit", .nat limit)]

def ofKind? (j : Json) : String → Option Failure
  | "unresolved_transition" => do
    let f ← objectFields? ["node", "exit_code"] j
    some (.unresolvedTransition (← required f "node" text?) (← required f "exit_code" text?))
  | "unknown_step" => do
    let f ← objectFields? ["node", "step"] j
    some (.unknownStep (← required f "node" text?) (← required f "step" text?))
  | "unknown_decider" => do
    let f ← objectFields? ["node", "decider"] j
    some (.unknownDecider (← required f "node" text?) (← required f "decider" text?))
  | "visit_limit_exceeded" => do
    let f ← objectFields? ["node", "limit"] j
    some (.visitLimitExceeded (← required f "node" text?) (← required f "limit" (natural? Text.maxU32)))
  | _ => none

def ofJson? (j : Json) : Option Failure := do
  required (← objectFields? ["kind"] j) "kind" text? >>= ofKind? j

end Failure

namespace NodeOutcome

def toJson (o : NodeOutcome) : Json :=
  .obj [("node", .str o.node), ("status", o.status.toJson), ("exit", o.exit.toJson)]

def ofJson? (j : Json) : Option NodeOutcome := do
  let f ← fields? ["node", "status", "exit"] j
  let node ← required f "node" text?
  let status ← required f "status" Status.ofJson?
  let exit ← required f "exit" Exit.ofJson?
  some { node, status, exit }

end NodeOutcome

namespace FlowOutcome

mutual

def toJson : FlowOutcome → Json
  | ⟨flow, status, exit, completed, lastNode, lastExit, restartNode, failure, splits⟩ =>
    .obj ([("flow", .str flow), ("status", status.toJson), ("exit", exit.toJson),
        ("completed_nodes", ofTexts completed)] ++
      Json.optional "last_node" (lastNode.map .str) ++ Json.optional "last_exit" (lastExit.map Exit.toJson) ++
      Json.optional "restart_node" (restartNode.map .str) ++ Json.optional "failure" (failure.map Failure.toJson) ++
      Json.optional "splits" (splitsJson? splits))

/-- A map of branch outcomes; none for the empty one, which is not written. -/
def splitsJson? : Dict (List FlowOutcome) → Option Json
  | ⟨[]⟩ => none
  | ⟨e :: rest⟩ => some (.obj (entriesJson (e :: rest)))

def entriesJson : List (String × List FlowOutcome) → List (String × Json)
  | [] => []
  | (split, branches) :: rest => (split, .arr (branchesJson branches)) :: entriesJson rest

def branchesJson : List FlowOutcome → List Json
  | [] => []
  | o :: rest => o.toJson :: branchesJson rest

end

def fieldNames : List String :=
  ["flow", "status", "exit", "completed_nodes", "last_node", "last_exit", "restart_node", "failure", "splits"]

def read? : Nat → Json → Option FlowOutcome
  | 0, _ => none
  | fuel + 1, j => do
    let f ← fields? fieldNames j
    let flow ← required f "flow" text?
    let status ← required f "status" Status.ofJson?
    let exit ← required f "exit" Exit.ofJson?
    let completed ← defaulted f "completed_nodes" [] (listOf? text?)
    let lastNode ← optional f "last_node" text?
    let lastExit ← optional f "last_exit" Exit.ofJson?
    let restartNode ← optional f "restart_node" text?
    let failure ← optional f "failure" Failure.ofJson?
    let splits ← defaulted f "splits" ⟨[]⟩ (mapOf? (listOf? (read? fuel)))
    some { flow, status, exit, completed, lastNode, lastExit, restartNode, failure, splits }

def ofJson? (j : Json) : Option FlowOutcome := read? (j.depth + 1) j

def splitsOfJson? (j : Json) : Option (Dict (List FlowOutcome)) := mapOf? (listOf? ofJson?) j

end FlowOutcome

end Switchyard
