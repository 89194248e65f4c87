import Switchyard.Engine.Unit
import Switchyard.Graph.Build

/-
  Switchyard.Demo — two jobs to try the engine with, and their units.

  `etl` extracts rows, leaves early if there are none, enriches them in two branches,
  loads them and launches `archive` for the day. Every step waits a little, notes its
  attempt in the context and completes, unless it is the one that is to fail.
-/

namespace Switchyard.Demo

/-! ## The jobs -/

def next (target : String) : List Transition := [.fail "FAILED", .goto "*" target]

def step (name : String) (transitions : List Transition) : Node Graph := ⟨name, .step name, transitions⟩

def branch (name unit : String) : Graph := ⟨name, unit, [step unit []]⟩

def etl : Graph.Declaration :=
  { name := "etl"
    nodes :=
      [step "extract" (next "check"),
       ⟨"check", .decision "row_count",
        [{ Transition.complete "EMPTY" with exitCode := some "NOTHING_TO_LOAD" }, .goto "*" "enrich"]⟩,
       ⟨"enrich", .split [branch "geo" "geocode", branch "fx" "rates"], next "load"⟩,
       step "load" (next "archive"),
       ⟨"archive", .subJob "archive" ["date"], [.fail "FAILED", .complete "*"]⟩] }

def archive : Graph.Declaration :=
  { name := "archive"
    nodes := [step "compress" (next "upload"), step "upload" [.fail "FAILED", .complete "*"]] }

/-- The jobs, if both graphs are sound. -/
def jobs : Except Graph.Fault (List Definition) := do
  let etl ← etl.build
  let archive ← archive.build
  return [{ graph := etl, description := some "extract, enrich in parallel, load, then archive" },
          { graph := archive, description := some "compress and upload one day of output" }]

/-! ## The units -/

/-- How the units behave on one run: which step fails, how long each one takes, and the
    node at which a stop of an instance is asked for. -/
structure Plan where
  failAt : Option String := none
  delayMillis : Nat := 0
  stopAt : Option (String × InstanceId) := none
  deriving Repr

abbrev Stops := List String

def stepNames : List String := ["extract", "geocode", "rates", "load", "compress", "upload"]

def defaultRows : Nat := 1000

def rows (p : Parameters) : Except Text.NumberFault Nat :=
  match p.value? "rows" with
  | some raw => Text.readNatural Text.maxU64 raw
  | none => .ok defaultRows

def stepEnding (plan : Plan) (name : String) (b : Briefing) : Ending StepResult :=
  if plan.failAt = some name then
    .result { status := .failed, exit := Exit.failed.withDescription "failure injected by --fail-at" }
  else
    let updates : Context := Dict.empty.insert (name ++ ".attempt") (.nat b.attempt)
    let completed (updates : Context) : StepResult := { status := .completed, exit := Exit.completed, updates }
    if name = "extract" then
      match rows b.parameters with
      | .ok n => .result (completed (updates.insert "rows" (.nat n)))
      | .error fault => .error [fault.message]
    else .result (completed updates)

def rowCount (b : Briefing) : Exit :=
  let n := match b.context.get? "rows" with
    | some (.int n) => if n ≤ Text.maxU64 then n.toNat else 0
    | _ => 0
  { code := if n = 0 then "EMPTY" else "HAS_ROWS", description := toString n ++ " rows" }

def stoppingAt {α : Type} (plan : Plan) (b : Briefing) (m : Stops) (next : Stops → Script Stops α) :
    Script Stops α :=
  match plan.stopAt with
  | none => next m
  | some (node, id) =>
    if b.node = node then
      .ask m (.stop id) fun reply m =>
        match reply with
        | .stopping true => next (node :: m)
        | _ => next m
    else next m

def units (plan : Plan) : Units Stops :=
  { step := fun name =>
      if name ∈ stepNames then
        some fun b m => stoppingAt plan b m fun m =>
          .wait m plan.delayMillis fun m => .finish m (stepEnding plan name b)
      else none
    decider := fun name =>
      if name = "row_count" then
        some fun b m => stoppingAt plan b m fun m => .finish m (.result (rowCount b))
      else none }

end Switchyard.Demo
