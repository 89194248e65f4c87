import Switchyard.Dict
import Switchyard.Transition

/-
  Switchyard.Graph — flow graphs: nodes with a unit of work and a table of transitions.

  A node runs a step, asks a decider, runs the branches of a split or launches another
  job. The branches of a split are graphs of their own, to any depth. A graph lists its
  nodes in the order they were declared and is entered at one of them.

  `Declaration` is a graph as written down and `Switchyard.Graph.Build` checks it.
-/

namespace Switchyard

/-- What a visit to a node does; `γ` is the type of the branches of a split. -/
inductive NodeKind (γ : Type) where
  | step (name : String)
  | decision (decider : String)
  | split (branches : List γ)
  | subJob (job : String) (keys : List String)
  deriving Repr

def NodeKind.label {γ : Type} : NodeKind γ → String
  | .step _ => "step"
  | .decision _ => "decision"
  | .split _ => "split"
  | .subJob _ _ => "sub_job"

/-- A node and its transitions. Without any it is a leaf, where the flow ends. -/
structure Node (γ : Type) where
  id : String
  kind : NodeKind γ
  transitions : List Transition
  deriving Repr

def Node.isLeaf {γ : Type} (n : Node γ) : Bool := n.transitions.isEmpty

structure Graph where
  name : String
  entry : String
  nodes : List (Node Graph)

namespace Graph

instance : Inhabited Graph := ⟨⟨"", "", []⟩⟩

def node? (g : Graph) (id : String) : Option (Node Graph) := g.nodes.find? (·.id = id)

def contains (g : Graph) (id : String) : Bool := (g.node? id).isSome

def size (g : Graph) : Nat := g.nodes.length

def isEmpty (g : Graph) : Bool := g.nodes.isEmpty

mutual

def nesting : Graph → Nat
  | ⟨_, _, nodes⟩ => nestingOfNodes nodes

def nestingOfNodes : List (Node Graph) → Nat
  | [] => 0
  | ⟨_, kind, _⟩ :: rest => max (nestingOfKind kind) (nestingOfNodes rest)

def nestingOfKind : NodeKind Graph → Nat
  | .split branches => nestingOfBranches branches + 1
  | _ => 0

def nestingOfBranches : List Graph → Nat
  | [] => 0
  | b :: rest => max b.nesting (nestingOfBranches rest)

end

/-- A graph as declared: the entry may be left to the first node. -/
structure Declaration where
  name : String
  entry : Option String := none
  nodes : List (Node Graph)

inductive Fault where
  | empty (flow : String)
  | duplicateNode (flow node : String)
  | unknownEntry (flow node : String)
  | unknownTarget (flow node target : String)
  | emptyPattern (flow node : String)
  | duplicatePattern (flow node pattern : String)
  | statusOnGoto (flow node pattern : String)
  | emptySplit (flow node : String)
  | duplicateBranch (flow node branch : String)
  | unreachable (flow node : String)
  deriving DecidableEq, Repr

def Fault.message : Fault → String
  | .empty flow => "flow '" ++ flow ++ "' has no nodes"
  | .duplicateNode flow node => "flow '" ++ flow ++ "' declares node '" ++ node ++ "' more than once"
  | .unknownEntry flow node => "flow '" ++ flow ++ "' entry node '" ++ node ++ "' does not exist"
  | .unknownTarget flow node target =>
    "flow '" ++ flow ++ "' node '" ++ node ++ "' transitions to unknown node '" ++ target ++ "'"
  | .emptyPattern flow node => "flow '" ++ flow ++ "' node '" ++ node ++ "' has an empty transition pattern"
  | .duplicatePattern flow node pattern =>
    "flow '" ++ flow ++ "' node '" ++ node ++ "' declares pattern '" ++ pattern ++ "' more than once"
  | .statusOnGoto flow node pattern =>
    "flow '" ++ flow ++ "' node '" ++ node ++ "' overrides the status on non-terminal pattern '" ++ pattern ++ "'"
  | .emptySplit flow node => "flow '" ++ flow ++ "' split '" ++ node ++ "' has no branches"
  | .duplicateBranch flow node branch =>
    "flow '" ++ flow ++ "' split '" ++ node ++ "' has two branches named '" ++ branch ++ "'"
  | .unreachable flow node => "flow '" ++ flow ++ "' node '" ++ node ++ "' is unreachable from the entry node"

end Graph

end Switchyard
