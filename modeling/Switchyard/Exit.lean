import Switchyard.Status

/-
  Switchyard.Exit — the exit signal a node hands back: a free routing code and a
  description for people.

  Only the code takes part in routing, compared as it is written. By convention it
  starts out as the name of a status, and a unit or a transition may replace it.
  `Status.ofExit` is the convention read backwards: the status a code stands for.
-/

namespace Switchyard

/-- Routing key and description of a finished node or flow. -/
structure Exit where
  code : String
  description : String := ""
  deriving DecidableEq, Repr, Inhabited

namespace Exit

def completed : Exit := ⟨"COMPLETED", ""⟩
def failed : Exit := ⟨"FAILED", ""⟩
def stopped : Exit := ⟨"STOPPED", ""⟩
def unknown : Exit := ⟨"UNKNOWN", ""⟩
def noop : Exit := ⟨"NOOP", ""⟩
def executing : Exit := ⟨"EXECUTING", ""⟩

/-- The signal a status stands for; a running one is still executing. -/
def ofStatus (s : Status) : Exit := if s.isRunning then executing else ⟨s.name, ""⟩

def withDescription (e : Exit) (description : String) : Exit := { e with description }

/-- Append to the description, after a semicolon if there is one already. -/
def addDescription (e : Exit) (extra : String) : Exit :=
  if extra = "" then e
  else if e.description = "" then { e with description := extra }
  else { e with description := e.description ++ "; " ++ extra }

def replaceCode (e : Exit) (code : String) : Exit := { e with code }

def isRunning (e : Exit) : Bool := e.code = executing.code || e.code = unknown.code

def isFailed (e : Exit) : Bool := e.code = failed.code

def text (e : Exit) : String :=
  if e.description = "" then e.code else e.code ++ " (" ++ e.description ++ ")"

end Exit

/-- The status a routing code stands for: its own name for the three codes that name
    an end other than success, and success for every other code. -/
def Status.ofExit (e : Exit) : Status :=
  if e.code = Exit.failed.code then .failed
  else if e.code = Exit.stopped.code then .stopped
  else if e.code = Exit.unknown.code then .unknown
  else .completed

end Switchyard
