/-
  Switchyard.Store.Error — why the history refuses a call.

  A refusal never leaves a trace in the store. An append can also break off because the
  text of its refusal cannot be written: it would cut an instance's identifier inside a
  character.
-/

namespace Switchyard

inductive StoreError where
  | connection
  | query (detail : String)
  | notFound
  | conflict (detail : String)
  deriving DecidableEq, Repr, Inhabited

def StoreError.message : StoreError → String
  | .connection => "database connection error"
  | .query detail => "query error: " ++ detail
  | .notFound => "entity not found"
  | .conflict detail => "conflict: " ++ detail

/-- How an append ends that stores nothing. -/
inductive AppendFailure where
  | refused (e : StoreError)
  /-- The refusal has no text. -/
  | unwritable
  deriving DecidableEq, Repr, Inhabited

end Switchyard
