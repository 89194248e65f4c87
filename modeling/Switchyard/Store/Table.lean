import Switchyard.Store.Row
import Switchyard.Store.Shelf

/-
  Switchyard.Store.Table — a history as rows of a table.

  A row is identified by its attempt's identifier, and an instance has one row per
  attempt number, counted from one. Appending a record whose identifier is there
  replaces the columns that change while an attempt runs and keeps the instance, job,
  attempt, parameters and start of the first. `overwrite` sets one column of a row by
  hand, under the same constraints.
-/

namespace Switchyard

/-- The rows in the order they were first appended. -/
structure Table where
  rows : List Row

namespace Table

def empty : Table := ⟨[]⟩

def attemptBelowOne : String := "error returned from database: (code: 275) CHECK constraint failed: attempt >= 1"

def attemptUnique : String :=
  "UNIQUE constraint failed: execution_records.instance_id, execution_records.attempt"

/-- The columns that a later append of one attempt replaces. -/
def update (old new : Row) : Row :=
  { new with
    executionId := old.executionId
    instanceId := old.instanceId
    job := old.job
    attempt := old.attempt
    parameters := old.parameters
    started := old.started }

def append (t : Table) (r : Record) : Except AppendFailure Table :=
  let row := Row.ofRecord r
  if row.attempt < 1 then .error (.refused (.query attemptBelowOne))
  else if t.rows.any (·.executionId = row.executionId) then
    .ok ⟨t.rows.map fun old => if old.executionId = row.executionId then update old row else old⟩
  else if t.rows.any (fun old => old.instanceId = row.instanceId ∧ old.attempt = row.attempt) then
    .error (.refused (.conflict attemptUnique))
  else .ok ⟨t.rows ++ [row]⟩

def ofInstance (t : Table) (id : InstanceId) : List Row :=
  sortBy (fun a b => a.attempt < b.attempt) (t.rows.filter (·.instanceId = id.text))

def latest? (t : Table) (id : InstanceId) : Except StoreError (Option Record) :=
  match (t.ofInstance id).getLast? with
  | none => .ok none
  | some row => row.toRecord.map some

def list (t : Table) (id : InstanceId) : Except StoreError (List Record) := (t.ofInstance id).mapM Row.toRecord

/-- The later text first, then the higher attempt. -/
def newer (a b : Row) : Bool :=
  if a.started = b.started then b.attempt < a.attempt else b.started < a.started

def recent (t : Table) (limit : Nat) : Except StoreError (List Record) :=
  ((sortBy newer t.rows.reverse).take limit).mapM Row.toRecord

/-! ## Setting a column by hand -/

inductive Cell where
  | null
  | text (s : String)
  | integer (n : Int)
  deriving DecidableEq, Repr

def Cell.asText : Cell → Option String
  | .null => none
  | .text s => some s
  | .integer n => some (toString n)

/-- A row with one column set; none if the column may not be null or is none of the
    row's. -/
def setColumn (row : Row) (column : String) (cell : Cell) : Option Row :=
  match column with
  | "execution_id" => cell.asText.map fun s => { row with executionId := s }
  | "instance_id" => cell.asText.map fun s => { row with instanceId := s }
  | "job_name" => cell.asText.map fun s => { row with job := s }
  | "attempt" =>
    match cell with
    | .integer n => some { row with attempt := n }
    | .text s => s.toInt?.map fun n => { row with attempt := n }
    | .null => none
  | "parameters" => cell.asText.map fun s => { row with parameters := s }
  | "completed_nodes" => cell.asText.map fun s => { row with completed := s }
  | "last_node" => some { row with lastNode := cell.asText }
  | "last_exit" => some { row with lastExit := cell.asText }
  | "final_status" => some { row with finalStatus := cell.asText }
  | "final_exit" => some { row with finalExit := cell.asText }
  | "restart_node" => some { row with restartNode := cell.asText }
  | "failure" => some { row with failure := cell.asText }
  | "branches" => cell.asText.map fun s => { row with branches := s }
  | "context" => cell.asText.map fun s => { row with context := s }
  | "started_at" => cell.asText.map fun s => { row with started := s }
  | "ended_at" => some { row with ended := cell.asText }
  | _ => none

/-- Set one column of the row with an identifier; the text of the constraint that
    forbids it otherwise. -/
def overwrite (t : Table) (executionId column : String) (cell : Cell) : Except String Table :=
  match t.rows.find? (·.executionId = executionId) with
  | none => .ok t
  | some old =>
    match setColumn old column cell with
    | none =>
      .error ("error returned from database: (code: 1299) NOT NULL constraint failed: execution_records." ++ column)
    | some new =>
      let others := t.rows.filter (·.executionId ≠ executionId)
      if new.attempt < 1 then .error attemptBelowOne
      else if others.any (·.executionId = new.executionId) then
        .error ("error returned from database: (code: 1555) " ++
          "UNIQUE constraint failed: execution_records.execution_id")
      else if others.any (fun row => row.instanceId = new.instanceId ∧ row.attempt = new.attempt) then
        .error ("error returned from database: (code: 2067) " ++ attemptUnique)
      else .ok ⟨t.rows.map fun row => if row.executionId = executionId then new else row⟩

end Table

end Switchyard
