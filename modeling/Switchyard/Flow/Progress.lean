import Switchyard.Context
import Switchyard.Graph
import Switchyard.Outcome

/-
  Switchyard.Flow.Progress — what a traversal has done so far, and where a finished node
  leads.

  `Visit` is what one visit to a node produced. `apply` folds it in: its entries are
  written over the context and collected, its branches are kept, and its node counts as
  completed unless it failed. `route` then decides, in this order: a stop that has been
  asked for ends the flow at a node that stopped, or whose branches did; a leaf ends it
  by its own exit; the most specific matching rule ends it or leads on, and a stop that
  has been asked for ends it in front of the node it would lead to. An exit that no
  rule matches fails the flow.
-/

namespace Switchyard

/-- What one visit to a node produced, before it is routed. -/
structure Visit where
  status : Status
  exit : Exit
  updates : Context := Dict.empty
  /-- The branch outcomes, if the node is a split. -/
  branches : Option (List FlowOutcome) := none
  /-- An end the engine decides on whatever the rules say. -/
  failure : Option Failure := none
  deriving Inhabited

namespace Visit

def failed (description : String) : Visit := { status := .failed, exit := Exit.failed.withDescription description }

def ofFailure (f : Failure) : Visit := { failed f.message with failure := some f }

def anyBranchStopped (v : Visit) : Bool := (v.branches.getD []).any (·.status = .stopped)

end Visit

structure Progress where
  flow : String
  context : Context
  /-- The entries written by this traversal. -/
  updates : Context := Dict.empty
  completed : List String := []
  last : Option NodeOutcome := none
  splits : Dict (List FlowOutcome) := Dict.empty
  deriving Inhabited

inductive Next where
  | finish (o : FlowOutcome)
  | goto (node : String)
  deriving Inhabited

namespace Progress

def start (flow : String) (context : Context) (last : Option NodeOutcome) : Progress := { flow, context, last }

def apply (p : Progress) (node : String) (v : Visit) : Progress :=
  { p with
    context := p.context.merge v.updates
    updates := p.updates.merge v.updates
    completed := if v.status = .failed then p.completed else p.completed ++ [node]
    last := some ⟨node, v.status, v.exit⟩
    splits := match v.branches with
      | some branches => p.splits.insert node branches
      | none => p.splits }

/-- End the flow. A place to begin again is kept only if the flow may be restarted. -/
def finish (p : Progress) (status : Status) (exit : Exit) (restart : Option String) (failure : Option Failure) :
    FlowOutcome :=
  { flow := p.flow
    status
    exit
    completed := p.completed
    lastNode := p.last.map (·.node)
    lastExit := p.last.map (·.exit)
    restartNode := if status.isRestartable then restart else none
    failure
    splits := p.splits }

def lastDescription (p : Progress) : String := (p.last.map (·.exit.description)).getD ""

def ruled (p : Progress) (node : String) (t : Transition) : FlowOutcome :=
  let (status, code, restart) :=
    match t.action with
    | .complete => (Status.completed, Exit.completed.code, node)
    | .fail => (Status.failed, Exit.failed.code, node)
    | .stop restart => (Status.stopped, Exit.stopped.code, restart)
    | .goto target => (Status.completed, Exit.completed.code, target)
  let exit : Exit := { code := t.exitCode.getD code, description := p.lastDescription }
  p.finish (t.status.getD status) exit (some restart) none

/-- The end at a leaf: the node's own exit, and the status its exit and status tell. -/
def leaf (p : Progress) (node : String) : FlowOutcome :=
  match p.last with
  | none => p.finish .completed Exit.completed (some node) none
  | some o =>
    if o.exit.isFailed || o.status.isUnsuccessful then p.finish .failed o.exit (some node) none
    else if o.exit.code = Exit.stopped.code then p.finish .stopped o.exit (some node) none
    else p.finish .completed o.exit (some node) none

def engineFailure (p : Progress) (node : String) (f : Failure) : FlowOutcome :=
  p.finish .failed (Exit.failed.withDescription f.message) (some node) (some f)

def unresolved (p : Progress) (node code : String) : FlowOutcome :=
  p.finish .failed (Exit.failed.withDescription (Transition.noMatch code)) (some node)
    (some (.unresolvedTransition node code))

def stopRequested (p : Progress) (restart : String) : FlowOutcome :=
  p.finish .stopped (Exit.stopped.withDescription "stop requested") (some restart) none

/-- Where a node leads that has just been folded in; `stopping` tells whether a stop
    has been asked for. -/
def route (p : Progress) (node : Node Graph) (v : Visit) (stopping : Bool) : Next :=
  if stopping && (v.status = .stopped || v.anyBranchStopped) then .finish (p.stopRequested node.id)
  else if node.isLeaf then .finish (p.leaf node.id)
  else
    match Transition.choose v.exit.code node.transitions with
    | none => .finish (p.unresolved node.id v.exit.code)
    | some t =>
      match t.action with
      | .goto target => if stopping then .finish (p.stopRequested target) else .goto target
      | _ => .finish (p.ruled node.id t)

end Progress

structure Traversal where
  outcome : FlowOutcome
  context : Context
  updates : Context
  deriving Inhabited

end Switchyard
