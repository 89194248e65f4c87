import Switchyard.Engine.Act

/-
  Switchyard.Engine.Checkpoint — keeping an attempt's record in the history and its live
  view up to date.

  A record is stored when the attempt opens, after every node, and when it is sealed.
  The live view follows a record only once that record is stored; it appears when the
  attempt opens and goes when it is sealed or given up.
-/

namespace Switchyard.Checkpoint

variable {σ : Type}

def persist (r : Record) : Act σ (Except CheckpointError Unit) := do
  match ← Act.append r with
  | .ok () => return .ok ()
  | .error e => return .error ⟨e⟩

def opened (r : Record) : Snapshot :=
  { instanceId := r.instanceId
    job := r.job
    attempt := r.attempt
    phase := .pending
    lastExit := r.lastExit
    status := r.status }

def changeLive (id : InstanceId) (f : Snapshot → Snapshot) : Act σ Unit :=
  Act.change fun w => { w with live := w.live.modify id.text f }

def openAttempt (r : Record) : Act σ (Except CheckpointError Unit) := do
  match ← persist r with
  | .ok () =>
    Act.change fun w => { w with live := w.live.insert r.instanceId.text (opened r) }
    return .ok ()
  | .error e => return .error e

/-- Store the record after a node and follow it in the live view. -/
def node (r : Record) : Act σ (Except CheckpointError Unit) := do
  match ← persist r with
  | .ok () =>
    changeLive r.instanceId fun s => { s with completed := r.completed, lastExit := r.lastExit }
    return .ok ()
  | .error e => return .error e

def discard (id : InstanceId) : Act σ Unit := Act.change fun w => { w with live := w.live.erase id.text }

def sealed (r : Record) : Act σ (Except CheckpointError Unit) := do
  match ← persist r with
  | .ok () =>
    discard r.instanceId
    return .ok ()
  | .error e => return .error e

def setPhase (id : InstanceId) (phase : Phase) (node : Option String) : Act σ Unit :=
  changeLive id fun s => { s with phase, currentNode := node <|> s.currentNode }

def setStatus (id : InstanceId) (status : Status) : Act σ Unit := changeLive id fun s => { s with status }

def snapshot? (id : InstanceId) : Act σ (Option Snapshot) := Act.find fun w => w.live.get? id.text

end Switchyard.Checkpoint
