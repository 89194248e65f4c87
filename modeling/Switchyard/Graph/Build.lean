import Switchyard.Graph

/-
  Switchyard.Graph.Build — checking a declared graph and freezing it.

  The nodes are checked in the order they were declared, each for its own rules first
  and then for a repeated id. With all nodes known come the entry and the transition
  targets, node by node in the order of ids, each table most specific rule first, and
  last whether every node can be reached from the entry. The first fault is the answer.

  A node is reachable if transitions lead to it from the entry, a stop leading to the
  node a restart begins at. The search keeps the ids it has met and stops when every
  one of them has been looked at; it looks at each declared node at most once, so the
  number of nodes bounds it.
-/

namespace Switchyard.Graph

def firstRepeated : List String → List String → Option String
  | _, [] => none
  | seen, x :: rest => if x ∈ seen then some x else firstRepeated (x :: seen) rest

/-- A node's rules, in declaration order: no empty pattern, no pattern twice, no status
    on a rule that goes on. -/
def checkRules (flow node : String) : List String → List Transition → Except Fault Unit
  | _, [] => .ok ()
  | seen, t :: rest =>
    if t.pattern = "" then .error (.emptyPattern flow node)
    else if t.pattern ∈ seen then .error (.duplicatePattern flow node t.pattern)
    else if t.status.isSome ∧ t.isTerminal = false then .error (.statusOnGoto flow node t.pattern)
    else checkRules flow node (t.pattern :: seen) rest

def checkBranches (flow node : String) : NodeKind Graph → Except Fault Unit
  | .split [] => .error (.emptySplit flow node)
  | .split branches =>
    match firstRepeated [] (branches.map (·.name)) with
    | some branch => .error (.duplicateBranch flow node branch)
    | none => .ok ()
  | _ => .ok ()

/-- The declared nodes with sorted tables, each checked and its id not met before. -/
def checkNodes (flow : String) : List String → List (Node Graph) → Except Fault (List (Node Graph))
  | _, [] => .ok []
  | seen, n :: rest => do
    checkRules flow n.id [] n.transitions
    checkBranches flow n.id n.kind
    if n.id ∈ seen then .error (.duplicateNode flow n.id)
    let checked ← checkNodes flow (n.id :: seen) rest
    .ok ({ n with transitions := Transition.table n.transitions } :: checked)

def unknownTarget? (ids : List String) (n : Node Graph) : Option String :=
  (n.transitions.filterMap (·.node?)).find? fun target => target ∉ ids

def byId (nodes : List (Node Graph)) : List (Node Graph) := (Dict.ofList (nodes.map fun n => (n.id, n))).values

def checkTargets (flow : String) (ids : List String) : List (Node Graph) → Except Fault Unit
  | [] => .ok ()
  | n :: rest =>
    match unknownTarget? ids n with
    | some target => .error (.unknownTarget flow n.id target)
    | none => checkTargets flow ids rest

def successors (nodes : List (Node Graph)) (id : String) : List String :=
  match nodes.find? (·.id = id) with
  | some n => n.transitions.filterMap (·.node?)
  | none => []

def discover (seen queue : List String) : List String → List String × List String
  | [] => (seen, queue)
  | id :: rest =>
    if id ∈ seen then discover seen queue rest else discover (id :: seen) (queue ++ [id]) rest

/-- Every id met by following rules from the queue, looking at no more than `fuel` nodes. -/
def reach (nodes : List (Node Graph)) : Nat → List String → List String → List String
  | 0, seen, _ => seen
  | _ + 1, seen, [] => seen
  | fuel + 1, seen, id :: queue =>
    let found := discover seen queue (successors nodes id)
    reach nodes fuel found.1 found.2

def reachable (nodes : List (Node Graph)) (entry : String) : List String :=
  reach nodes (nodes.length + 1) [entry] [entry]

/-- Check a declared graph; the graph on success has its tables sorted. -/
def Declaration.build (d : Declaration) : Except Fault Graph :=
  match d.nodes with
  | [] => .error (.empty d.name)
  | first :: _ => do
    let entry := d.entry.getD first.id
    let nodes ← checkNodes d.name [] d.nodes
    let ids := nodes.map (·.id)
    if entry ∉ ids then .error (.unknownEntry d.name entry)
    checkTargets d.name ids (byId nodes)
    let reached := reachable nodes entry
    match ids.find? fun id => id ∉ reached with
    | some id => .error (.unreachable d.name id)
    | none => .ok ⟨d.name, entry, nodes⟩

end Switchyard.Graph
