import Switchyard.Cli.HistoryFile
import Switchyard.Cli.Session
import Switchyard.Config.File
import Std.Time.DateTime

/-
  Switchyard.Main — the command line program.

  It finds the data directory, reads the configuration and the history from it, carries
  out the command, and writes back the history and what the command prints. The operator
  is asked only if the command has a question and somebody is at the terminal.
-/

open Switchyard

def readBytes? (path : String) : IO (Option ByteArray) := do
  try
    return some (← IO.FS.readBinFile path)
  catch _ => return none

def readHistory (path : String) : IO Table := do
  match (← readBytes? path) >>= String.fromUTF8? with
  | none => return Table.empty
  | some s =>
    match Table.ofText? s with
    | some t => return t
    | none => throw (IO.userError ("the history in " ++ path ++ " does not read"))

def writeHistory (path : String) (t : Table) : IO Unit := do
  match t.toText with
  | .ok s => IO.FS.writeFile path s
  | .error e => throw (IO.userError e.message)

/-- Ask a question that is answered with yes or no; none if nobody is there. -/
def confirm (question : String) : IO (Option Bool) := do
  let input ← IO.getStdin
  if !(← input.isTty) then return none
  IO.eprint (question ++ " [y/N] ")
  let line ← input.getLine
  return some (line.trimAscii.toString.toLower = "y")

def confirmation (args : List String) : IO (Option Bool) := do
  match Cli.ask args with
  | .run i =>
    match Cli.Session.question? i with
    | some q => confirm q
    | none => return none
  | _ => return none

def finish (r : Cli.Result) : IO UInt32 := do
  IO.print r.stdout
  IO.eprint r.stderr
  return UInt32.ofNat r.code

def serve (args : List String) : IO UInt32 := do
  let dataDir := Config.dataDir (← IO.getEnv "BATCHFLOW_DATA_DIR") (← IO.getEnv "HOME")
  IO.FS.createDirAll dataDir
  let config := Config.ofFile (← readBytes? (Config.join dataDir "config.toml"))
  let path := Config.historyName (config.historyUrl dataDir)
  let now ← Std.Time.Timestamp.now
  let nanos := now.toNanosecondsSinceUnixEpoch.val
  let session : Cli.Session :=
    { dataDir, config
      history := ← if config.forgetsHistory then pure Table.empty else readHistory path
      now := Instant.ofSeconds (nanos / nanosPerSecond) (nanos % nanosPerSecond).toNat
      nowMillis := (nanos / nanosPerMilli).toNat
      confirmed := ← confirmation args }
  let r := session.answer args
  if !config.forgetsHistory then writeHistory path r.history
  finish r

/-- Only a command needs the data directory. -/
def main (args : List String) : IO UInt32 := do
  try
    match Cli.ask args with
    | .run _ => serve args
    | _ => finish (Cli.Session.answer { dataDir := "", config := {}, history := Table.empty, now := default, nowMillis := 0 } args)
  catch e =>
    IO.eprintln ("Error: " ++ toString e)
    return 1
