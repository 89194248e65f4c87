/-
  Switchyard.Config — the limits and settings the engine runs under.

  Every setting has a default, so an empty configuration is valid. A limit of no
  parallel branches means that all branches of a split may run at once.
-/

namespace Switchyard

inductive LogFormat where
  | pretty
  | json
  deriving DecidableEq, Repr, Inhabited

structure Logging where
  format : LogFormat := .pretty
  otel : Bool := false
  deriving DecidableEq, Repr, Inhabited

structure Config where
  maxParallelBranches : Nat := 0
  /-- How long a step or a decider may take, in seconds. -/
  stepTimeout : Option Nat := none
  /-- Visits to nodes per traversal of a flow. -/
  maxNodeVisits : Nat := 10000
  /-- How deep jobs may launch one another. -/
  maxSubJobDepth : Nat := 5
  eventCapacity : Nat := 256
  databaseUrl : Option String := none
  logging : Logging := {}
  deriving DecidableEq, Repr, Inhabited

namespace Config

/-- A path with a name under it; only a path that ends in a slash gets no other. -/
def join (path name : String) : String :=
  if path = "" then name
  else if path.toList.getLast? = some '/' then path ++ name
  else path ++ "/" ++ name

/-- The directory for configuration and history: as the environment names it, else a
    hidden directory at home, else one where the program runs. -/
def dataDir (named : Option String) (home : Option String) : String :=
  match named with
  | some dir => if dir = "" then underHome home else dir
  | none => underHome home
where
  underHome : Option String → String
    | some home => join home ".batchflow"
    | none => ".batchflow"

def historyUrl (c : Config) (dataDir : String) : String :=
  match c.databaseUrl with
  | some url => url
  | none => "sqlite://" ++ join dataDir "batchflow.db"

def dropStarts (start : List Char) : Nat → List Char → List Char
  | 0, cs => cs
  | n + 1, cs => if start.isPrefixOf cs then dropStarts start n (cs.drop start.length) else cs

/-- What a history's URL names: the part behind the scheme and before the parameters. -/
def historyName (url : String) : String :=
  let cs := url.toList
  let cs := dropStarts "//".toList cs.length (dropStarts "sqlite:".toList cs.length cs)
  String.ofList (cs.takeWhile (· ≠ '?'))

/-- Is the history kept in memory, so that it begins empty and ends with the program? -/
def forgetsHistory (c : Config) : Bool := c.databaseUrl.any fun url => historyName url = ":memory:"

end Config

end Switchyard
