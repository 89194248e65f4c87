import Switchyard.Flow.Progress
import Switchyard.Flow.Start

/-
  Switchyard.Flow.Split — running the branches of a split and joining them.

  Every branch starts from the context at the split. A branch that completed in an
  earlier attempt keeps its outcome and is not run; any other resumes where its outcome
  says, or starts at its entry (`plan`). The branches run may end in any order. Joining
  puts each end in its branch's place, so neither the outcomes nor the entries they
  wrote depend on that order: `join` takes the ends with the places they belong to.

  A split fails if a branch ended unsuccessfully, and completes otherwise; a branch
  that stopped only shows in its own outcome.
-/

namespace Switchyard

inductive BranchEnd where
  | finished (t : Traversal)
  | aborted (reason : String)
  | panicked
  | lost
  deriving Inhabited

namespace Split

inductive Plan where
  | reuse (o : FlowOutcome)
  | run (s : FlowStart)
  deriving Inhabited

def planOne (branch : Graph) (previous : Option FlowOutcome) : Plan :=
  match previous with
  | none => .run (FlowStart.entry branch)
  | some o => if o.status = .completed then .reuse o else .run (FlowStart.resume branch o)

/-- The earlier outcomes by the name of their flow; of two of one name the later. -/
def byFlow (prior : List FlowOutcome) : Dict FlowOutcome := Dict.ofList (prior.map fun o => (o.flow, o))

/-- What is done with each branch; an earlier outcome serves one branch. -/
def planFrom (prior : Dict FlowOutcome) : List Graph → List Plan
  | [] => []
  | b :: rest => planOne b (prior.get? b.name) :: planFrom (prior.erase b.name) rest

def plan (prior : Option (List FlowOutcome)) (branches : List Graph) : List Plan :=
  planFrom (byFlow (prior.getD [])) branches

def toRun (branches : List Graph) (plans : List Plan) : List (Nat × Graph × FlowStart) :=
  (branches.zip plans).zipIdx.filterMap fun
    | ((b, .run s), i) => some (i, b, s)
    | ((_, .reuse _), _) => none

def failedBranch (name : String) (context : Context) (reason : String) : Traversal :=
  { outcome := { flow := name, status := .failed, exit := Exit.failed.withDescription reason }
    context
    updates := Dict.empty }

def settle (branch : Graph) (context : Context) : BranchEnd → Traversal
  | .finished t => t
  | .aborted reason => failedBranch branch.name context reason
  | .panicked => failedBranch branch.name context "branch panicked"
  | .lost => failedBranch branch.name context "branch task lost"

/-- The end that came in for a place, the latest if there are several. -/
def endAt (ends : List (Nat × BranchEnd)) (i : Nat) : BranchEnd :=
  ((ends.reverse.find? (·.1 = i)).map (·.2)).getD .lost

def contributions (branches : List Graph) (plans : List Plan) (context : Context) (ends : List (Nat × BranchEnd)) :
    List Traversal :=
  (branches.zip plans).zipIdx.map fun
    | ((_, .reuse o), _) => { outcome := o, context, updates := Dict.empty }
    | ((b, .run _), i) => settle b context (endAt ends i)

def aggregate (outcomes : List FlowOutcome) : Status × Exit :=
  let failed := (outcomes.filter (·.status.isUnsuccessful)).map (·.flow)
  if failed = [] then (.completed, Exit.completed)
  else (.failed, Exit.failed.withDescription ("failed branches: " ++ String.intercalate ", " failed))

def join (branches : List Graph) (plans : List Plan) (context : Context) (ends : List (Nat × BranchEnd)) : Visit :=
  let traversals := contributions branches plans context ends
  let outcomes := traversals.map (·.outcome)
  let (status, exit) := aggregate outcomes
  { status
    exit
    updates := traversals.foldl (fun acc t => acc.merge t.updates) Dict.empty
    branches := some outcomes }

end Split

end Switchyard
