import Switchyard.Codec.Record
import Switchyard.Engine.Unit
import Switchyard.Json.Printer
import Switchyard.Text.Duration
import Switchyard.Text.Grid

/-
  Switchyard.Cli.Report — what the commands print: JSON for programs, and lines and
  tables for people.

  Lines are lists of text without their ends. A missing value is a hyphen.
-/

namespace Switchyard.Cli

abbrev Lines := List String

def Lines.text (l : Lines) : String := String.join (l.map (· ++ "\n"))

def jsonText (j : Json) : String := j.pretty 0 ++ "\n"

def productName : String := "batchflow"

def productVersion : String := "0.1.0"

def orHyphen (s : Option String) : String := s.getD "-"

/-! ## A run -/

def reportJson (r : Report) : Json :=
  .obj [("instance_id", .str r.instanceId.text), ("status", r.status.toJson), ("exit", r.exit.toJson),
    ("record", r.record.toJson)]

/-- The lines for the events of a run, up to the one that finishes its instance; `stops`
    are the nodes at which a stop was asked for. -/
def progress (id : InstanceId) (stops : List String) : List Event → Lines
  | [] => []
  | .jobStarted _ _ job attempt startNode :: rest =>
    ("  " ++ (if 1 < attempt then "Restarting" else "Starting") ++ " " ++ job ++ " (attempt " ++ toString attempt ++
      ") at '" ++ startNode ++ "'") :: progress id stops rest
  | .nodeStarted _ _ node :: rest =>
    if stops.contains node then ("  ! stop requested during '" ++ node ++ "'") :: progress id stops rest
    else progress id stops rest
  | .nodeFinished _ flow node status exit millis :: rest =>
    ("    " ++ Text.filled 24 (flow ++ "/" ++ node) ++ " " ++ Text.filled 10 status.name ++ " " ++ exit.code ++ " " ++
      Text.duration millis) :: progress id stops rest
  | .jobFinished _ finished _ _ _ _ :: rest => if finished = id then [] else progress id stops rest

def parameterFlags (p : Parameters) : String :=
  String.intercalate " " (p.identifying.map fun e => "--param " ++ e.1 ++ "=" ++ e.2)

def runLines (job : String) (r : Report) : Lines :=
  ["", "  * " ++ job ++ " attempt " ++ toString r.record.attempt ++ " finished " ++ r.status.name,
   "  Instance:  " ++ r.instanceId.text, "  Exit code: " ++ r.exit.code] ++
  (if r.exit.description = "" then [] else ["  Detail:    " ++ r.exit.description]) ++
  (match r.record.failure with
   | some f => ["  Failure:   " ++ f.message]
   | none => []) ++
  (match r.record.restartNode with
   | some node =>
     ["", "  Next run restarts at '" ++ node ++ "'.",
      "  Abandon instead: bflow abandon " ++ job ++ " " ++ parameterFlags r.record.parameters]
   | none => []) ++
  [""]

/-! ## The history of an instance -/

def historyJson (records : List Record) : Json := .arr (records.map Record.toJson)

def took (r : Record) : String :=
  match r.ended with
  | some ended => Text.duration (Instant.millisBetween r.started ended)
  | none => "running"

def historyGrid (records : List Record) : Text.Grid :=
  { header := ["Attempt", "Status", "Exit", "Nodes", "Restart At", "Started", "Took"]
    rows := records.map fun r =>
      [toString r.attempt, r.status.name, orHyphen (r.finalExit.map (·.code)), String.intercalate " > " r.completed,
       orHyphen r.restartNode, r.started.human, took r] }

def historyLines (job : String) (id : InstanceId) (short : String) (records : List Record) : Lines :=
  match records.getLast? with
  | none =>
    ["", "  No attempts recorded for " ++ job ++ " (" ++ short ++ ").", "  Start one with: bflow run " ++ job, ""]
  | some latest =>
    ["", "  " ++ job ++ " instance " ++ id.text] ++ (historyGrid records).lines ++
    (match latest.failure with
     | some f => ["  Last failure: " ++ f.message]
     | none => []) ++
    [""]

/-! ## The jobs -/

mutual

def graphJson : Graph → Json
  | ⟨name, entry, nodes⟩ => Json.object [("name", .str name), ("entry", .str entry), ("nodes", .arr (nodesJson nodes))]

def nodesJson : List (Node Graph) → List Json
  | [] => []
  | ⟨id, kind, transitions⟩ :: rest =>
    Json.object ([("id", .str id), ("kind", .str kind.label),
      ("transitions", .arr (transitions.map Transition.toJson))] ++ kindJson kind) :: nodesJson rest

def kindJson : NodeKind Graph → List (String × Json)
  | .step name => [("step", .str name)]
  | .decision decider => [("decider", .str decider)]
  | .split branches => [("branches", .arr (graphsJson branches))]
  | .subJob job keys => [("job", .str job), ("parameter_keys", Codec.ofTexts keys)]

def graphsJson : List Graph → List Json
  | [] => []
  | g :: rest => graphJson g :: graphsJson rest

end

def jobJson (d : Definition) : Json :=
  Json.object [("name", .str d.name), ("description", (d.description.map Json.str).getD .null),
    ("restartable", .bool d.restartable), ("graph", graphJson d.graph)]

def transitionText (t : Transition) : String :=
  let action := match t.action with
    | .goto target => "-> " ++ target
    | .complete => "end"
    | .fail => "fail"
    | .stop restart => "stop, restart at " ++ restart
  t.pattern ++ " " ++ action ++
    match t.exitCode with
    | some code => " (" ++ code ++ ")"
    | none => ""

def transitionsText (transitions : List Transition) : String :=
  if transitions.isEmpty then "(terminal)" else String.intercalate "\n" (transitions.map transitionText)

mutual

def graphRows (before : String) : Graph → List (List String)
  | ⟨_, _, nodes⟩ => nodeRows before nodes

def nodeRows (before : String) : List (Node Graph) → List (List String)
  | [] => []
  | ⟨id, kind, transitions⟩ :: rest =>
    [before ++ id, kind.label, runsText kind, transitionsText transitions] :: kindRows (before ++ id ++ "/") kind ++
      nodeRows before rest

def kindRows (before : String) : NodeKind Graph → List (List String)
  | .split branches => branchRows before branches
  | _ => []

def branchRows (before : String) : List Graph → List (List String)
  | [] => []
  | b :: rest => graphRows (before ++ b.name ++ "/") b ++ branchRows before rest

def runsText : NodeKind Graph → String
  | .step name => name
  | .decision decider => decider
  | .split branches => String.intercalate " | " (branches.map (·.name))
  | .subJob job _ => job

end

def jobGrid (d : Definition) : Text.Grid :=
  { header := ["Node", "Kind", "Runs", "Transitions"], rows := graphRows "" d.graph }

def jobLines (d : Definition) : Lines :=
  ["", "  " ++ d.name ++ " " ++ d.description.getD ""] ++ (jobGrid d).lines

/-! ## The latest attempts -/

def countOf (records : List Record) (s : Status) : Nat := records.countP (·.status = s)

def counts (records : List Record) : List (Status × Nat) :=
  (Status.all.map fun s => (s, countOf records s)).filter (0 < ·.2)

def statusJson (dataDir url : String) (jobs : List Definition) (records : List Record) : Json :=
  Json.object [("version", .str productVersion), ("data_dir", .str dataDir), ("database", .str url),
    ("jobs", Codec.ofTexts (jobs.map (·.name))),
    ("counts", Json.object ((counts records).map fun c => (c.1.name, .nat c.2))), ("recent", historyJson records)]

/-- A row of the table of latest attempts; none if the instance's identifier cannot be
    cut short. -/
def statusRow? (r : Record) : Option (List String) :=
  r.instanceId.short?.map fun short =>
    [r.job, short, toString r.attempt, r.status.name, orHyphen r.lastNode, r.started.human]

def statusHeading : Lines :=
  ["", "  * " ++ productName ++ " v" ++ productVersion, "", "  ── Recent attempts ──"]

def recentLines (rows : List (List String)) (records : List Record) : Lines :=
  if records.isEmpty then ["  None yet."]
  else
    (Text.Grid.mk ["Job", "Instance", "Attempt", "Status", "Last Node", "Started"] rows).lines ++
      (counts records).map fun c => "  " ++ Text.filled 10 c.1.name ++ " " ++ toString c.2

def systemLines (dataDir url : String) : Lines :=
  ["", "  ── System ──", "  Data dir: " ++ dataDir, "  Database: " ++ url, ""]

/-! ## Abandoning an instance -/

def abandonQuestion (job short : String) : String :=
  "Abandon " ++ job ++ " instance " ++ short ++ "? It can never be restarted."

def abandonLines (job short : String) (r : Record) : Lines :=
  ["", "  * " ++ job ++ " instance " ++ short ++ " is now " ++ r.status.name ++ " (attempt " ++ toString r.attempt ++ ")",
   ""]

end Switchyard.Cli
