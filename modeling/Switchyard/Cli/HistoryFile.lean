import Switchyard.Json.Reader
import Switchyard.Store.Table

/-
  Switchyard.Cli.HistoryFile — a history as the text of a file: a JSON array of records
  in the order they were first appended.

  Reading appends the records one by one, so a text that breaks a rule of the table is
  refused.
-/

namespace Switchyard.Table

/-- The records of a table as text; the first damaged row is reported. -/
def toText (t : Table) : Except StoreError String := do
  let records ← t.rows.mapM Row.toRecord
  .ok ((Json.arr (records.map Record.toJson)).pretty 0 ++ "\n")

def appendAll : Table → List Record → Option Table
  | t, [] => some t
  | t, r :: rest =>
    match t.append r with
    | .ok t => appendAll t rest
    | .error _ => none

def ofText? (s : String) : Option Table :=
  Json.parse? s >>= Codec.listOf? Record.ofJson? >>= appendAll Table.empty

end Switchyard.Table
