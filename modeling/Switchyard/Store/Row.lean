import Switchyard.Codec.Record
import Switchyard.Json.Reader
import Switchyard.Store.Error

/-
  Switchyard.Store.Row — a record as a row of text columns, and back.

  Structured values are stored as JSON, statuses by name and times in the form with an
  offset; what is absent is null. Reading a row checks the columns in a fixed order and
  reports the first that does not read. The text that stands for a JSON value in its
  column is a parameter (`Json.Form`); a table holds compact text.
-/

namespace Switchyard

structure Row where
  executionId : String
  instanceId : String
  job : String
  attempt : Int
  parameters : String
  completed : String
  lastNode : Option String
  lastExit : Option String
  finalStatus : Option String
  finalExit : Option String
  restartNode : Option String
  failure : Option String
  branches : String
  context : String
  started : String
  ended : Option String
  deriving DecidableEq, Repr, Inhabited

/-- A way to put JSON values in text. -/
structure Json.Form where
  write : Json → String
  read? : String → Option Json

def Json.Form.compact : Json.Form := ⟨Json.compact, Json.parse?⟩

namespace Row

/-- The row of a record, its JSON columns in a given form. -/
def ofRecordIn (form : Json.Form) (r : Record) : Row :=
  { executionId := r.id.text
    instanceId := r.instanceId.text
    job := r.job
    attempt := r.attempt
    parameters := form.write (Parameters.toJson r.parameters)
    completed := form.write (Codec.ofTexts r.completed)
    lastNode := r.lastNode
    lastExit := r.lastExit.map fun e => form.write e.toJson
    finalStatus := r.finalStatus.map Status.name
    finalExit := r.finalExit.map fun e => form.write e.toJson
    restartNode := r.restartNode
    failure := r.failure.map fun f => form.write f.toJson
    branches := form.write (.obj (FlowOutcome.entriesJson r.branches.entries))
    context := form.write (Context.toJson r.context)
    started := r.started.offset
    ended := r.ended.map Instant.offset }

def ofRecord (r : Record) : Row := ofRecordIn .compact r

def damaged (detail : String) : StoreError := .query detail

def structured {α : Type} (form : Json.Form) (column : String) (read : Json → Option α) (raw : String) :
    Except StoreError α :=
  match form.read? raw >>= read with
  | some v => .ok v
  | none => .error (damaged ("invalid " ++ column ++ " JSON: malformed value"))

def structured? {α : Type} (form : Json.Form) (column : String) (read : Json → Option α) :
    Option String → Except StoreError (Option α)
  | none => .ok none
  | some raw => (structured form column read raw).map some

def statusColumn : Option String → Except StoreError (Option Status)
  | none => .ok none
  | some s =>
    match Status.ofName? s with
    | some status => .ok (some status)
    | none => .error (damaged ("invalid final_status: " ++ Status.unknownName s))

def idColumn (s : String) : Except StoreError ExecutionId :=
  match ExecutionId.parse? s with
  | some id => .ok id
  | none => .error (damaged "invalid UUID: malformed value")

def attemptColumn (n : Int) : Except StoreError Nat :=
  if 0 ≤ n ∧ n ≤ Text.maxU32 then .ok n.toNat else .error (damaged ("invalid attempt: " ++ toString n))

def timeColumn (s : String) : Except StoreError Instant :=
  match Instant.parse? s with
  | some t => .ok t
  | none => .error (damaged "invalid datetime: malformed value")

def timeColumn? : Option String → Except StoreError (Option Instant)
  | none => .ok none
  | some s => (timeColumn s).map some

def toRecordIn (form : Json.Form) (row : Row) : Except StoreError Record := do
  let finalStatus ← statusColumn row.finalStatus
  let parameters ← structured form "parameters" Parameters.ofJson? row.parameters
  let completed ← structured form "completed_nodes" (Codec.listOf? Codec.text?) row.completed
  let branches ← structured form "branches" FlowOutcome.splitsOfJson? row.branches
  let context ← structured form "context" Context.ofJson? row.context
  let lastExit ← structured? form "last_exit" Exit.ofJson? row.lastExit
  let finalExit ← structured? form "final_exit" Exit.ofJson? row.finalExit
  let failure ← structured? form "failure" Failure.ofJson? row.failure
  let id ← idColumn row.executionId
  let attempt ← attemptColumn row.attempt
  let started ← timeColumn row.started
  let ended ← timeColumn? row.ended
  .ok { id, instanceId := ⟨row.instanceId⟩, job := row.job, attempt, parameters, completed, lastNode := row.lastNode,
        lastExit, finalStatus, finalExit, restartNode := row.restartNode, failure, branches, context, started, ended }

def toRecord (row : Row) : Except StoreError Record := row.toRecordIn .compact

end Row

end Switchyard
