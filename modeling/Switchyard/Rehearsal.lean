import Switchyard.Engine.Runner

/-
  Switchyard.Rehearsal — jobs with scripted units, which act as they are told and note
  every call.

  A unit's script lists a behaviour per visit, the last one for all later visits. Visits
  are counted by instance, flow and node, so a restart goes on in the script. On entry a
  unit notes what it was told. Then it runs its errands, cancels, waits, hangs, panics
  or fails, whichever of these its behaviour has, in this order, and otherwise ends with
  the result it is to give.

  An errand is a request to the engine, made out for the unit's own instance, or the
  reason (`ε`) why there is no such request. What came of the errands is noted when all
  are done.
-/

namespace Switchyard.Rehearsal

/-- Something a unit asks the engine, given its own instance. -/
abbrev Errand (ε : Type) := InstanceId → Except ε Request

inductive Choice where
  /-- The text under a key of the context, else a code made from the visit before. -/
  | key (key : String)
  /-- `DONE` once the number under a key has reached a bound, and `AGAIN` before. -/
  | atLeast (key : String) (bound : Nat)
  | exit (code : String)
  deriving Repr

structure Behaviour (ε : Type) where
  errands : Option (List (Errand ε)) := none
  cancels : Bool := false
  waits : Option Nat := none
  hangs : Bool := false
  panics : Option Payload := none
  fails : Option (List String) := none
  description : Option String := none
  /-- The name of the status that a step reports. -/
  status : String := Status.completed.name
  exit : Option String := none
  additions : List String := []
  set : Context := Dict.empty
  /-- A key of the context whose number the step raises by one. -/
  count : Option String := none
  /-- A key whose value is a parameter's number raised by one, as text. -/
  raise : Option String := none
  choice : Choice := .exit Exit.completed.code

structure Note (ε : Type) where
  job : String
  flow : String
  unit : String
  node : String
  /-- The number of the visit. -/
  call : Nat
  attempt : Nat
  isRestart : Bool
  last : Option NodeOutcome
  context : Context
  /-- What came of the errands. -/
  did : Option (List (Except ε Reply)) := none

/-- The memory that scripted units and the scripted launcher share. -/
structure Notebook (ε : Type) where
  visits : List ((String × String × String) × Nat) := []
  notes : Array (Note ε) := #[]
  launches : List (String × Parameters × Nat) := []

variable {ε α : Type}

namespace Notebook

def raiseVisits (k : String × String × String) :
    List ((String × String × String) × Nat) → Nat × List ((String × String × String) × Nat)
  | [] => (1, [(k, 1)])
  | (key, n) :: rest =>
    if key = k then (n + 1, (key, n + 1) :: rest)
    else
      let (m, rest) := raiseVisits k rest
      (m, (key, n) :: rest)

/-- Count a visit and note the call; its place among the notes and its number. -/
def enter (m : Notebook ε) (unit : String) (b : Briefing) : Nat × Nat × Notebook ε :=
  let (call, visits) := raiseVisits (b.instanceId.text, b.flow, b.node) m.visits
  let note : Note ε :=
    { job := b.job, flow := b.flow, unit, node := b.node, call, attempt := b.attempt, isRestart := b.isRestart
      last := b.last, context := b.context }
  (m.notes.size, call, { m with visits, notes := m.notes.push note })

def done (m : Notebook ε) (place : Nat) (did : List (Except ε Reply)) : Notebook ε :=
  { m with notes := m.notes.modify place fun n => { n with did := some did } }

end Notebook

/-! ## What a visit does -/

/-- The `n`th behaviour, counted from one; past the end the last, and none is idle. -/
def behaviourAt (script : List (Behaviour ε)) (n : Nat) : Behaviour ε :=
  (script[n - 1]? <|> script.getLast?).getD {}

def errands (place : Nat) (own : InstanceId) (next : Notebook ε → Script (Notebook ε) α) :
    List (Except ε Reply) → List (Errand ε) → Notebook ε → Script (Notebook ε) α
  | did, [], m => next (m.done place did.reverse)
  | did, e :: rest, m =>
    match e own with
    | .error reason => errands place own next (.error reason :: did) rest m
    | .ok r => .ask m r fun reply m => errands place own next (.ok reply :: did) rest m

def ending (b : Behaviour ε) (result : Ending α) : Ending α :=
  match b.panics, b.fails with
  | some p, _ => .panic p
  | none, some chain => .error chain
  | none, none => result

def afterWait (b : Behaviour ε) (result : Ending α) (m : Notebook ε) : Script (Notebook ε) α :=
  if b.hangs then .hang m else .finish m (ending b result)

def afterCancel (b : Behaviour ε) (result : Ending α) (m : Notebook ε) : Script (Notebook ε) α :=
  match b.waits with
  | some millis => .wait m millis (afterWait b result)
  | none => afterWait b result m

def afterErrands (b : Behaviour ε) (result : Ending α) (m : Notebook ε) : Script (Notebook ε) α :=
  if b.cancels then .ask m .cancel fun _ m => afterCancel b result m else afterCancel b result m

def visit (unit : String) (script : List (Behaviour ε)) (result : Behaviour ε → Briefing → Ending α) (b : Briefing)
    (m : Notebook ε) : Script (Notebook ε) α :=
  let (place, call, m) := m.enter unit b
  let behaviour := behaviourAt script call
  let result := result behaviour b
  match behaviour.errands with
  | some es => errands place b.instanceId (afterErrands behaviour result) [] es m
  | none => afterErrands behaviour result m

/-! ## Results -/

def numberAt (c : Context) (key : String) : Nat :=
  match c.get? key with
  | some (.int n) => if n ≤ Text.maxU64 then n.toNat else 0
  | _ => 0

def parameterNumber (p : Parameters) (key : String) : Nat :=
  match (p.value? key).map (Text.readNatural Text.maxU32) with
  | some (.ok n) => n
  | _ => 0

def updates (behaviour : Behaviour ε) (b : Briefing) : Context :=
  let c := behaviour.set
  let c := match behaviour.count with
    | some key => c.insert key (.nat (numberAt b.context key + 1))
    | none => c
  match behaviour.raise with
  | some key => c.insert key (.str (toString (parameterNumber b.parameters key + 1)))
  | none => c

def stepExit (behaviour : Behaviour ε) (status : Status) : Exit :=
  let e := Exit.ofStatus status
  let e := match behaviour.exit with
    | some code => e.replaceCode code
    | none => e
  let e := match behaviour.description with
    | some text => e.withDescription text
    | none => e
  behaviour.additions.foldl Exit.addDescription e

def stepResult (behaviour : Behaviour ε) (b : Briefing) : Ending StepResult :=
  match Status.ofName? behaviour.status with
  | none => .error [Status.unknownName behaviour.status]
  | some status => .result { status, exit := stepExit behaviour status, updates := updates behaviour b }

/-- The code for a key that the context does not have. -/
def codeAfter : Option NodeOutcome → String
  | some o => "AFTER_" ++ o.status.name ++ "_" ++ o.exit.code
  | none => "NONE"

def chosenCode (c : Choice) (b : Briefing) : String :=
  match c with
  | .key key => (b.context.text? key).getD (codeAfter b.last)
  | .atLeast key bound => if bound ≤ numberAt b.context key then "DONE" else "AGAIN"
  | .exit code => code

def deciderResult (behaviour : Behaviour ε) (b : Briefing) : Ending Exit :=
  .result { code := chosenCode behaviour.choice b, description := behaviour.description.getD "" }

def units (steps deciders : Dict (List (Behaviour ε))) : Units (Notebook ε) :=
  { step := fun name => (steps.get? name).map fun script => visit name script stepResult
    decider := fun name => (deciders.get? name).map fun script => visit name script deciderResult }

/-! ## One flow without a runner -/

inductive LaunchEnd where
  | ends (status : Status) (exit : Exit)
  | panics (text : String)
  deriving Repr

def launcher (script : Dict LaunchEnd) : Launch (Notebook ε) := fun job parameters depth => do
  Act.change fun w => { w with memory := { w.memory with launches := (job, parameters, depth) :: w.memory.launches } }
  match script.get? job with
  | none => return .error ["no script for '" ++ job ++ "'"]
  | some (.ends status exit) => return .ok (status, exit)
  | some (.panics text) => .broken (.panic (.text text))

/-- An executor without a runner to ask. -/
def executor (config : Config) (units : Units (Notebook ε)) (launches : Option (Dict LaunchEnd)) (record : Record)
    (depth : Nat) : Executor (Notebook ε) :=
  { config
    units
    launch := launches.map launcher
    answer := fun _ => return .unavailable
    scope :=
      { job := record.job
        instanceId := record.instanceId
        id := record.id
        attempt := record.attempt
        parameters := record.parameters
        depth
        token := 0 } }

def tracked (ex : Executor (Notebook ε)) (g : Graph) (start : FlowStart) (record : Record) :
    Act (Notebook ε) (Except FlowError FlowOutcome × Record) := do
  match ← Checkpoint.openAttempt record with
  | .error e => return (.error (.checkpoint e), record)
  | .ok () => ex.execute g start record

def untracked (ex : Executor (Notebook ε)) (g : Graph) (start : FlowStart) (context : Context) :
    Act (Notebook ε) (Except FlowError Traversal) := do
  return (← ex.traverseGraph g start context none).1

end Switchyard.Rehearsal
