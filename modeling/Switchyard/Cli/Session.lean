import Switchyard.Cli.Arguments
import Switchyard.Cli.Report
import Switchyard.Demo
import Switchyard.Engine.Runner

/-
  Switchyard.Cli.Session — carrying out one command of the command line.

  A command works on a history and a configuration that are given to it, and answers
  with the text it prints, the code the program ends with and the history it leaves. The
  program ends with 0, with 1 after an error or a run that did not complete, with 2 if
  the arguments were misused, and with 101 after a panic.

  Whoever watches a run reads every event as it is published, so the lines of progress
  are those of all events. The steps' delays pass on the engine's clock only.
-/

namespace Switchyard.Cli

structure Session where
  dataDir : String
  config : Config
  history : Table
  now : Instant
  /-- The time in milliseconds since 1970. -/
  nowMillis : Nat
  /-- What the operator says when asked; none if there is nobody to ask. -/
  confirmed : Option Bool := none

structure Result where
  code : Nat
  stdout : String := ""
  stderr : String := ""
  history : Table

def stepDelay : Nat := 150

namespace Session

abbrev Engine := Runner Demo.Stops

def engine (s : Session) (plan : Demo.Plan) : Engine := { config := s.config, units := Demo.units plan }

def world (s : Session) (jobs : List Definition) : World Demo.Stops :=
  { repository := { store := .table (if s.config.forgetsHistory then Table.empty else s.history) }
    jobs := Dict.ofList (jobs.map fun d => (d.name, d))
    bus := (Bus.ofCapacity s.config.eventCapacity).subscribe
    clock := { origin := s.now, originMillis := s.nowMillis }
    memory := [] }

def historyOf (s : Session) (w : World Demo.Stops) : Table :=
  match w.repository.store with
  | .table t => if s.config.forgetsHistory then s.history else t
  | .shelf _ => s.history

def done (s : Session) (stdout : String) : Result := { code := 0, stdout, history := s.history }

def failed (s : Session) (message : String) (stdout : String := "") : Result :=
  { code := 1, stdout, stderr := "Error: " ++ message ++ "\n", history := s.history }

def panicked (s : Session) (stdout : String := "") : Result := { code := 101, stdout, history := s.history }

/-- Ask the engine and go on with its answer, in the session that this leaves. -/
def asking (s : Session) (plan : Demo.Plan) (q : Request) (next : Session → World Demo.Stops → Reply → Result) :
    Result :=
  match Demo.jobs with
  | .error fault => s.failed fault.message
  | .ok jobs =>
    let (r, w) := (Runner.request (s.engine plan) q).run (s.world jobs)
    let s := { s with history := s.historyOf w }
    match r with
    | .ok reply => next s w reply
    | .error _ => s.panicked

/-- The short form of an instance's identifier, which is in hexadecimal. -/
def shortOf (id : InstanceId) : String := id.short?.getD id.text

def run (s : Session) (i : Invocation) (t : Target) (failAt stopAt : Option String) : Result :=
  let id := InstanceId.derive t.job t.parameters
  let plan : Demo.Plan := { failAt, delayMillis := stepDelay, stopAt := stopAt.map fun node => (node, id) }
  s.asking plan (.run t.job t.parameters) fun s w reply =>
    match reply with
    | .report (.ok r) =>
      let stdout :=
        if i.json then jsonText (reportJson r)
        else if i.quiet then ""
        else (progress id w.memory w.bus.published.toList ++ runLines t.job r).text
      { code := if r.isSuccess then 0 else 1, stdout, history := s.history }
    | .report (.error e) => s.failed e.message
    | _ => s.panicked

def showHistory (s : Session) (i : Invocation) (t : Target) : Result :=
  let id := InstanceId.derive t.job t.parameters
  s.asking {} (.history id) fun s _ reply =>
    match reply with
    | .records (.ok records) =>
      s.done (if i.json then jsonText (historyJson records) else (historyLines t.job id (shortOf id) records).text)
    | .records (.error e) => s.failed e.message
    | _ => s.panicked

def showJobs (s : Session) (i : Invocation) : Result :=
  s.asking {} .jobs fun s _ reply =>
    match reply with
    | .definitions jobs =>
      s.done (if i.json then jsonText (.arr (jobs.map jobJson)) else Lines.text (jobs.flatMap jobLines ++ [""]))
    | _ => s.panicked

def abandon (s : Session) (i : Invocation) (t : Target) : Result :=
  let id := InstanceId.derive t.job t.parameters
  s.asking {} (.abandon id) fun s _ reply =>
    match reply with
    | .record (.ok r) =>
      s.done (if i.json then jsonText r.toJson else (abandonLines t.job (shortOf id) r).text)
    | .record (.error e) => s.failed e.message
    | _ => s.panicked

def question? (i : Invocation) : Option String :=
  match i.command with
  | .abandon t force =>
    if force || i.json then none
    else some (abandonQuestion t.job (shortOf (InstanceId.derive t.job t.parameters)))
  | _ => none

def showStatus (s : Session) (i : Invocation) (limit : Nat) : Result :=
  let url := s.config.historyUrl s.dataDir
  s.asking {} (.recent limit) fun s w reply =>
    match reply with
    | .latest (.ok records) =>
      if i.json then s.done (jsonText (statusJson s.dataDir url w.jobs.values records))
      else
        match records.mapM statusRow? with
        | some rows => s.done (statusHeading ++ recentLines rows records ++ systemLines s.dataDir url).text
        | none => s.panicked statusHeading.text
    | .latest (.error e) => s.failed e.message
    | _ => s.panicked

def completionLine (s : Shell) : String :=
  let words := String.intercalate " " (commandNames ++ ["help"])
  match s with
  | .bash => "complete -W '" ++ words ++ "' " ++ program
  | .fish => "complete -c " ++ program ++ " -f -a '" ++ words ++ "'"
  | .zsh => "compctl -k '(" ++ words ++ ")' " ++ program
  | .elvish => "set edit:completion:arg-completer[" ++ program ++ "] = \x7b|@args| put " ++ words ++ " \x7d"
  | .powershell =>
    "Register-ArgumentCompleter -Native -CommandName " ++ program ++ " -ScriptBlock \x7b -split '" ++ words ++ "' \x7d"

def needsEngine : Command → Bool
  | .completions _ => false
  | _ => true

/-- Carry out a command. There is no engine whose bus is larger than a bus may be. -/
def carryOut (s : Session) (i : Invocation) : Result :=
  if needsEngine i.command && Bus.maxCapacity < s.config.eventCapacity then s.panicked
  else
    match i.command with
    | .completions shell => s.done (completionLine shell ++ "\n")
    | .run t failAt stopAt => s.run i t failAt stopAt
    | .history t => s.showHistory i t
    | .jobs => s.showJobs i
    | .status limit => s.showStatus i limit
    | .abandon t _ =>
      if (question? i).isSome then
        match s.confirmed with
        | none => s.failed "IO error: not a terminal"
        | some false => s.done "  Cancelled.\n"
        | some true => s.abandon i t
      else s.abandon i t

def usage : String :=
  "Usage: " ++ program ++ " [--json] [--quiet] [-v...] <" ++ String.intercalate "|" commandNames ++ ">\n"

def answer (s : Session) (args : List String) : Result :=
  match ask args with
  | .run i => s.carryOut i
  | .version name => s.done (name ++ " " ++ productVersion ++ "\n")
  | .help => s.done usage
  | .misuse => { code := 2, stderr := usage, history := s.history }

end Session

end Switchyard.Cli
