import Switchyard.Engine.Checkpoint
import Switchyard.Flow.Split

/-
  Switchyard.Engine.Executor — walking a flow graph for one attempt.

  The executor visits a node, turns whatever it produced into a visit, folds that into
  the progress and follows the route, until the flow ends. A node is visited at most as
  often as the visit limit leaves room, so `loop` ends; with a limit that is the greatest
  number there is for a count it ends in a panic (`exceed`).

  Whatever a unit or a launched job does wrong — an error, a panic, a deadline passed —
  becomes a failed visit with its text, which is routed like any other. Only a record
  that cannot be kept breaks a traversal off.

  The job's own flow is tracked: its record is stored after every node and its live view
  follows. The branches of a split are walked without a record, to the depth that splits
  are nested in the graph.

  Branches are tasks that run at the same time. `walkBranches` takes them one after the
  other, and `Act.run` leaves no room for other calls either. What is proved over `Act.Yields`
  or `Act.Goes`, over the tasks of a split (`Split.Tasks`) and over several runners
  (`Cluster`) holds for every interleaving: how a split is joined, how outcomes look, what is
  told, noted and handed on node by node, where a stop takes effect, that no node is
  missing, and that attempts exclude each other. What is proved of `Act.run` and `Act.Passes`
  holds for calls that do not overlap: `history_orderly`, `finished_stays`, `writes_ahead`,
  `refused_or_reported`, `claims_given_back`, `failures_contained`, the bounds on visits and
  on nesting, and what a restart does over again.
-/

namespace Switchyard

structure Scope where
  job : String
  instanceId : InstanceId
  id : ExecutionId
  attempt : Nat
  parameters : Parameters
  /-- How many launches this job is inside of; none for one that was asked for. -/
  depth : Nat
  token : Token

/-- What a launched job came to, or the texts of what went wrong. -/
abbrev Launch (σ : Type) := String → Parameters → Nat → Act σ (Except (List String) (Status × Exit))

structure Executor (σ : Type) where
  config : Config
  units : Units σ
  /-- How to launch a job, if that is possible here. -/
  launch : Option (Launch σ)
  /-- Whom units ask. -/
  answer : Request → Act σ Reply
  scope : Scope

namespace Executor

variable {σ α : Type}

abbrev BranchWalk (σ : Type) := Graph → FlowStart → Context → Act σ BranchEnd

/-! ## Units -/

def remember (m : σ) : Act σ Unit := Act.change fun w => { w with memory := m }

def memory : Act σ σ := Act.find fun w => w.memory

def reply (ex : Executor σ) : Request → Act σ Reply
  | .cancel => do
    Act.cancel ex.scope.token
    return .done
  | r => ex.answer r

def perform (ex : Executor σ) : Script σ α → Act σ (Except (List String) α)
  | .finish m e => do
    remember m
    match e with
    | .result a => return .ok a
    | .error chain => return .error chain
    | .panic p => .broken (.panic p)
  | .ask m r resume => do
    remember m
    let answer ← ex.reply r
    let m ← memory
    perform ex (resume answer m)
  | .wait m millis resume => do
    remember m
    Act.wait millis
    let m ← memory
    perform ex (resume m)
  | .hang m => do
    remember m
    Act.forever

def catchPanic (x : Act σ α) : Act σ (Except Payload α) := do
  match ← Act.attempt x with
  | .ok a => return .ok a
  | .error (.panic p) => return .error p
  | .error h => .broken h

def chainText (chain : List String) : String := String.intercalate ": " chain

/-- A unit under its deadline; every way it can fail becomes a text. -/
def guarded (ex : Executor σ) (s : Script σ α) : Act σ (Except String α) := do
  match ← catchPanic (Act.within ex.config.stepTimeout (perform ex s)) with
  | .error p => return .error p.message
  | .ok none => return .error ("timed out after " ++ toString (ex.config.stepTimeout.getD 0) ++ "s")
  | .ok (some (.error chain)) => return .error (chainText chain)
  | .ok (some (.ok a)) => return .ok a

def briefing (ex : Executor σ) (g : Graph) (node : Node Graph) (p : Progress) : Briefing :=
  { job := ex.scope.job
    instanceId := ex.scope.instanceId
    id := ex.scope.id
    attempt := ex.scope.attempt
    flow := g.name
    node := node.id
    parameters := ex.scope.parameters
    context := p.context
    last := p.last }

def visitStep (ex : Executor σ) (g : Graph) (node : Node Graph) (p : Progress) (name : String) : Act σ Visit := do
  match ex.units.step name with
  | none => return Visit.ofFailure (.unknownStep node.id name)
  | some unit =>
    let m ← memory
    match ← guarded ex (unit (briefing ex g node p) m) with
    | .ok r => return { status := r.status, exit := r.exit, updates := r.updates }
    | .error text => return Visit.failed text

def visitDecision (ex : Executor σ) (g : Graph) (node : Node Graph) (p : Progress) (name : String) : Act σ Visit := do
  match ex.units.decider name with
  | none => return Visit.ofFailure (.unknownDecider node.id name)
  | some unit =>
    let m ← memory
    match ← guarded ex (unit (briefing ex g node p) m) with
    | .ok exit => return { status := Status.ofExit exit, exit }
    | .error text => return Visit.failed text

/-! ## Launched jobs -/

/-- One level deeper, up to the greatest level there is a number for. -/
def deeper (depth : Nat) : Nat := min (depth + 1) Text.maxU8

def visitSubJob (ex : Executor σ) (p : Progress) (job : String) (keys : List String) : Act σ Visit := do
  match ex.launch with
  | none => return Visit.failed ("no job launcher available for sub-job '" ++ job ++ "'")
  | some launch =>
    let depth := deeper ex.scope.depth
    if ex.config.maxSubJobDepth < depth then
      return Visit.failed ("sub-job depth limit of " ++ toString ex.config.maxSubJobDepth ++ " reached")
    let parameters := Parameters.extract p.context ex.scope.parameters keys
    match ← catchPanic (launch job parameters depth) with
    | .ok (.ok (status, exit)) => return { status, exit }
    | .ok (.error chain) => return Visit.failed (chainText chain)
    | .error payload => return Visit.failed payload.message

/-! ## Splits -/

/-- When no branch is left to begin: the split never ends if one of its branches never
    does. -/
def allBegun (halted : List Halt) : Act σ (List (Nat × BranchEnd)) :=
  match halted.getLast? with
  | some h => .broken h
  | none => return []

/-- Do branches that never end hold every place there is? -/
def isFull (ex : Executor σ) (halted : List Halt) : Bool :=
  ex.config.maxParallelBranches ≠ 0 && ex.config.maxParallelBranches ≤ halted.length

/-- Walk branches one after the other. A branch that never ends holds its place among
    those that may run at once; the others still run while there is a place. -/
def walkBranches (ex : Executor σ) (walk : BranchWalk σ) (context : Context) :
    List Halt → List (Nat × Graph × FlowStart) → Act σ (List (Nat × BranchEnd))
  | halted, [] => allBegun halted
  | halted, (i, branch, start) :: rest => do
    if ex.isFull halted then allBegun halted
    else
      match ← Act.attempt (walk branch start context) with
      | .ok e =>
        let ends ← walkBranches ex walk context halted rest
        return (i, e) :: ends
      | .error (.panic _) =>
        let ends ← walkBranches ex walk context halted rest
        return (i, .panicked) :: ends
      | .error h => walkBranches ex walk context (h :: halted) rest

def maxPlaces : Nat := Text.maxU64 / 8

def tooManyPlaces : Payload :=
  .text ("a semaphore may not have more than MAX_PERMITS permits (" ++ toString maxPlaces ++ ")")

def visitSplit (ex : Executor σ) (walk : BranchWalk σ) (p : Progress) (branches : List Graph)
    (prior : Option (List FlowOutcome)) : Act σ Visit := do
  if maxPlaces < ex.config.maxParallelBranches then Act.broken (.panic tooManyPlaces)
  let plans := Split.plan prior branches
  let ends ← walkBranches ex walk p.context [] (Split.toRun branches plans)
  return Split.join branches plans p.context ends

/-! ## Walking a graph -/

def visit (ex : Executor σ) (walk : BranchWalk σ) (g : Graph) (node : Node Graph) (p : Progress)
    (prior : Option (List FlowOutcome)) : Act σ Visit :=
  match node.kind with
  | .step name => visitStep ex g node p name
  | .decision decider => visitDecision ex g node p decider
  | .split branches => visitSplit ex walk p branches prior
  | .subJob job keys => visitSubJob ex p job keys

/-- Where a traversal stands: the next node, what it is told of earlier branches, and
    the record if the flow is the job's own. -/
structure Position where
  progress : Progress
  node : String
  prior : Option (List FlowOutcome)
  record : Option Record

def setPhase (ex : Executor σ) (record : Option Record) (phase : Phase) (node : Option String) : Act σ Unit :=
  match record with
  | some _ => Checkpoint.setPhase ex.scope.instanceId phase node
  | none => pure ()

def noted (r : Record) (p : Progress) (o : NodeOutcome) : Record :=
  { r.note o with context := p.context, branches := p.splits }

/-- Store the record after a node, if there is one. The record has the node in it even
    if it could not be stored. -/
def keep (record : Option Record) (p : Progress) (o : NodeOutcome) :
    Act σ (Except CheckpointError Unit × Option Record) := do
  match record with
  | none => return (.ok (), none)
  | some r =>
    let r := noted r p o
    return (← Checkpoint.node r, some r)

abbrev Walked := Except FlowError Traversal × Option Record

def ended (ex : Executor σ) (record : Option Record) (p : Progress) (o : FlowOutcome) : Act σ Walked := do
  setPhase ex record .terminated none
  return (.ok { outcome := o, context := p.context, updates := p.updates }, record)

def enter (ex : Executor σ) (g : Graph) (node : Node Graph) (record : Option Record) : Act σ Nat := do
  setPhase ex record .runningNode (some node.id)
  Act.publish (.nodeStarted ex.scope.id g.name node.id)
  Act.waited

inductive Turn where
  | done (w : Walked)
  | onward (pos : Position)

/-- Tell that a node finished, fold its visit in, keep the record, and see where the
    node leads. -/
def leave (ex : Executor σ) (g : Graph) (node : Node Graph) (pos : Position) (started : Nat) (v : Visit) :
    Act σ Turn := do
  let finished ← Act.waited
  Act.publish (.nodeFinished ex.scope.id g.name node.id v.status v.exit (finished - started))
  let p := pos.progress.apply node.id v
  match ← keep pos.record p ⟨node.id, v.status, v.exit⟩ with
  | (.error e, record) => return .done (.error (.checkpoint e), record)
  | (.ok (), record) =>
    match v.failure with
    | some failure => return .done (← ended ex record p (p.engineFailure node.id failure))
    | none =>
      setPhase ex record .awaitingMatch none
      let stopping ← Act.isCancelled ex.scope.token
      match p.route node v stopping with
      | .finish o => return .done (← ended ex record p o)
      | .goto target => return .onward { progress := p, node := target, prior := none, record }

def countOverflow : Payload := .text "attempt to add with overflow"

/-- The visit to this node would exceed the limit, which ends the flow. If the limit is the
    greatest number that visits are counted with, the count overflows instead. -/
def exceed (ex : Executor σ) (node : Node Graph) (pos : Position) : Act σ Walked :=
  if ex.config.maxNodeVisits < Text.maxU32 then
    let failure := .visitLimitExceeded node.id ex.config.maxNodeVisits
    ended ex pos.record pos.progress (pos.progress.engineFailure node.id failure)
  else .broken (.panic countOverflow)

/-- Visit nodes until the flow ends, at most `room` of them. -/
def loop (ex : Executor σ) (walk : BranchWalk σ) (g : Graph) : (room : Nat) → Position → Act σ Walked
  | room, pos => do
    match g.node? pos.node with
    | none => return (.error (.unknownNode g.name pos.node), pos.record)
    | some node =>
      match room with
      | 0 => exceed ex node pos
      | room + 1 =>
        let started ← enter ex g node pos.record
        let v ← visit ex walk g node pos.progress pos.prior
        match ← leave ex g node pos started v with
        | .done walked => return walked
        | .onward next => loop ex walk g room next

def traverse (ex : Executor σ) (walk : BranchWalk σ) (g : Graph) (start : FlowStart) (context : Context)
    (record : Option Record) : Act σ Walked := do
  setPhase ex record .pending none
  loop ex walk g ex.config.maxNodeVisits
    { progress := Progress.start g.name context start.last, node := start.node, prior := start.prior, record }

/-- Walk a branch whose own splits are nested no deeper than `levels`. -/
def walkBranch (ex : Executor σ) : (levels : Nat) → BranchWalk σ
  | 0, _, _, _ => return .lost
  | levels + 1, g, start, context => do
    match ← traverse ex (walkBranch ex levels) g start context none with
    | (.ok t, _) => return .finished t
    | (.error e, _) => return .aborted e.message

def traverseGraph (ex : Executor σ) (g : Graph) (start : FlowStart) (context : Context) (record : Option Record) :
    Act σ Walked :=
  traverse ex (walkBranch ex g.nesting) g start context record

/-- Run an attempt: traverse the job's graph, then seal the record and store it. -/
def execute (ex : Executor σ) (g : Graph) (start : FlowStart) (record : Record) :
    Act σ (Except FlowError FlowOutcome × Record) := do
  match ← traverseGraph ex g start record.context (some record) with
  | (.error e, kept) => return (.error e, kept.getD record)
  | (.ok t, kept) =>
    let r := { kept.getD record with context := t.context }
    let now ← Act.now
    let r := (r.sealWith? t.outcome now).getD r
    match ← Checkpoint.sealed r with
    | .ok () => return (.ok t.outcome, r)
    | .error e => return (.error (.checkpoint e), r)

end Executor

end Switchyard
