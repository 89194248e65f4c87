import Switchyard.Engine.Executor

/-
  Switchyard.Engine.Runner — running jobs by name, and everything else the engine can be
  asked.

  A run claims its instance first and gives the claim back however it ends. Under the
  claim it decides from the latest record where to begin, stores a new record and walks
  the job's graph. A run that is refused before its record is stored changes nothing.
  A node that launches another job runs it the same way, one level deeper.

  An instance is abandoned by sealing its latest attempt if that one reached no end, and
  otherwise by a further attempt that is sealed from the start (`abandoned`).

  Runs nest where a unit or a launching node asks for another run. `run` has room for a
  number of levels; every level is a run under the claim of an instance of its own.
-/

namespace Switchyard

structure Runner (σ : Type) where
  config : Config
  units : Units σ

/-- The record that abandons an instance, from its latest one: that record itself sealed,
    or the next attempt. -/
def abandoned (id : InstanceId) (latest : Record) (fresh : ExecutionId) (now : Instant) :
    Except RestartError Record :=
  match latest.abandon? now with
  | some r => .ok r
  | none =>
    if !latest.status.isRestartable then .error (.notRestartable id latest.status)
    else
      (StartPoint.nextAttempt latest).map fun attempt =>
        let marker := Record.start fresh now id latest.job attempt latest.parameters latest.context
        (marker.abandon? now).getD marker

namespace Runner

variable {σ α : Type}

abbrev Run (σ : Type) := (depth : Nat) → (job : String) → Parameters → Act σ (Except JobError Report)

/-- A refusal to begin; the one without an answer breaks off. -/
def refuse (e : RestartError) : Act σ (Except JobError α) :=
  match e with
  | .noAttemptLeft => .broken (.panic (.text RestartError.noAttemptLeft.message))
  | e => return .error (.restart e)

/-! ## Claims -/

def isClaimed (id : InstanceId) : Act σ Bool := Act.find fun w => w.running.contains id.text

def claim? (id : InstanceId) : Act σ (Option Token) := Act.update fun w =>
  if w.running.contains id.text then (none, w)
  else (some w.tokens, { w with tokens := w.tokens + 1, running := w.running.insert id.text w.tokens })

/-- Give an instance back; the live view of its attempt goes with the claim. -/
def release (id : InstanceId) : Act σ Unit :=
  Act.change fun w => { w with running := w.running.erase id.text, live := w.live.erase id.text }

def releasing (id : InstanceId) (x : Act σ α) : Act σ α := do
  let r ← Act.attempt x
  release id
  match r with
  | .ok a => return a
  | .error h => .broken h

/-! ## Requests -/

def state (id : InstanceId) : Act σ (Except JobError (Option Snapshot)) := do
  match ← Checkpoint.snapshot? id with
  | some s => return .ok (some s)
  | none =>
    match ← Act.loadLatest id with
    | .ok latest => return .ok (latest.map Record.snapshot)
    | .error e => return .error (.history e)

/-- Ask a running instance to stop before its next node; false if it is not running. -/
def stop (id : InstanceId) : Act σ Bool := do
  match ← Act.find fun w => w.running.get? id.text with
  | none => return false
  | some t =>
    Act.cancel t
    Checkpoint.setStatus id .stopping
    return true

def abandon (id : InstanceId) : Act σ (Except JobError Record) := do
  if ← isClaimed id then return .error (.alreadyRunning id)
  match ← Act.loadLatest id with
  | .error e => return .error (.history e)
  | .ok none => return .error (.noExecution id)
  | .ok (some latest) =>
    let now ← Act.now
    let fresh ← Act.freshId
    match abandoned id latest fresh now with
    | .error e => refuse e
    | .ok r =>
      match ← Act.append r with
      | .ok () => return .ok r
      | .error e => return .error (.history e)

def history (id : InstanceId) : Act σ (Except JobError (List Record)) := do
  return (← Act.list id).mapError .history

def recent (limit : Nat) : Act σ (Except JobError (List Record)) := do
  return (← Act.listRecent limit).mapError .history

def register (d : Definition) : Act σ Unit :=
  Act.change fun w => { w with jobs := w.jobs.insert d.name d }

def job? (name : String) : Act σ (Option Definition) := Act.find fun w => w.jobs.get? name

def handle (r : Runner σ) (run : Run σ) : Request → Act σ Reply
  | .run job parameters => return .report (← run 0 job parameters)
  | .state id => return .state (← state id)
  | .stop id => return .stopping (← stop id)
  | .abandon id => return .record (← abandon id)
  | .history id => return .records (← history id)
  | .recent limit => return .latest (← recent limit)
  | .register d => do
    register d
    return .definition d
  | .jobs => return .definitions (← Act.find fun w => w.jobs.values)
  | .job name => return .lookup (← job? name)
  | .instanceId job parameters => return .instanceId (InstanceId.derive job parameters)
  | .config => return .config r.config
  | .cancel => return .done

/-! ## Running a job -/

/-- Launch a job for a node: a run whose report is cut down to status and exit. -/
def launch (run : Run σ) : Launch σ := fun job parameters depth => do
  match ← run depth job parameters with
  | .ok report => return .ok (report.status, report.exit)
  | .error e => return .error e.chain

def executor (r : Runner σ) (run : Run σ) (record : Record) (depth : Nat) (t : Token) : Executor σ :=
  { config := r.config
    units := r.units
    launch := some (launch run)
    answer := r.handle run
    scope :=
      { job := record.job
        instanceId := record.instanceId
        id := record.id
        attempt := record.attempt
        parameters := record.parameters
        depth
        token := t } }

/-- Walk the graph of an attempt whose record is stored. -/
def drive (r : Runner σ) (run : Run σ) (d : Definition) (start : FlowStart) (record : Record) (depth : Nat)
    (t : Token) : Act σ (Except JobError Report) := do
  Act.publish (.jobStarted record.id record.instanceId record.job record.attempt start.node)
  let before ← Act.waited
  match ← (r.executor run record depth t).execute d.graph start record with
  | (.error e, _) => return .error (.flow e)
  | (.ok outcome, record) =>
    let after ← Act.waited
    Act.publish (.jobFinished record.id record.instanceId record.job outcome.status outcome.exit (after - before))
    return .ok { instanceId := record.instanceId, status := outcome.status, exit := outcome.exit, record }

/-- Decide where an instance begins and open its next attempt. -/
def begin? (d : Definition) (id : InstanceId) (parameters : Parameters) :
    Act σ (Except JobError (FlowStart × Record)) := do
  match ← Act.loadLatest id with
  | .error e => return .error (.history e)
  | .ok latest =>
    match StartPoint.resolve latest d.graph d.restartable with
    | .error e => refuse e
    | .ok point =>
      let fresh ← Act.freshId
      let now ← Act.now
      let record := Record.start fresh now id d.name point.attempt parameters point.context
      match ← Checkpoint.openAttempt record with
      | .error e => return .error (.checkpoint e)
      | .ok () => return .ok (point.start, record)

def attemptOver (r : Runner σ) (inner : Run σ) (d : Definition) (id : InstanceId) (depth : Nat) (t : Token)
    (parameters : Parameters) : Act σ (Except JobError Report) := do
  match ← begin? d id parameters with
  | .error e => return .error e
  | .ok (start, record) => r.drive inner d start record depth t

def runOver (r : Runner σ) (inner : Run σ) : Run σ := fun depth job parameters => do
  match ← job? job with
  | none => return .error (.unknownJob job)
  | some d =>
    let id := InstanceId.derive d.name parameters
    match ← claim? id with
    | none => return .error (.alreadyRunning id)
    | some t => releasing id (r.attemptOver inner d id depth t parameters)

def run (r : Runner σ) : (levels : Nat) → Run σ
  | 0, _, _, _ => .broken .tooDeep
  | levels + 1, depth, job, parameters => r.runOver (r.run levels) depth job parameters

/-- Room for nested runs, more than any program asks for. -/
def ampleLevels : Nat := 100000

def request (r : Runner σ) (q : Request) : Act σ Reply := r.handle (r.run ampleLevels) q

end Runner

end Switchyard
