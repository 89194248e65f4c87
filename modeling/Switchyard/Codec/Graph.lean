import Switchyard.Codec.Outcome
import Switchyard.Graph.Build

/-
  Switchyard.Codec.Graph — reading declared graphs from JSON.

  A graph is an object with its name, its nodes and perhaps its entry. A node's unit is
  named like the node unless it says otherwise. The branches of a split are graphs that
  are read and checked before the graph they stand in; the first thing that is wrong is
  the answer.
-/

namespace Switchyard.Graph

open Codec

inductive ReadError where
  /-- A field is missing, or is no text, or names none of its values. -/
  | field (name : String)
  | badTransition
  | fault (f : Fault)

def textField (j : Json) (name : String) : Except ReadError String :=
  match j.member? name with
  | some (.str s) => .ok s
  | _ => .error (.field name)

def textOr (j : Json) (name default : String) : String := ((j.member? name).bind text?).getD default

def items (j : Json) (name : String) : List Json :=
  match j.member? name with
  | some (.arr items) => items
  | _ => []

def transitionsOf (j : Json) : Except ReadError (List Transition) :=
  match (items j "transitions").mapM Transition.ofJson? with
  | some ts => .ok ts
  | none => .error .badTransition

/-- Read what a node does; `branch` reads a branch of a split. -/
def kindOf (branch : Json → Except ReadError Graph) (id : String) (j : Json) : Except ReadError (NodeKind Graph) :=
  match (j.member? "kind").bind text? with
  | some "step" => .ok (.step (textOr j "step" id))
  | some "decision" => .ok (.decision (textOr j "decider" id))
  | some "sub_job" => (textField j "job").map fun job => .subJob job ((items j "parameter_keys").filterMap text?)
  | some "split" => ((items j "branches").mapM branch).map .split
  | _ => .error (.field "kind")

def nodeOf (branch : Json → Except ReadError Graph) (j : Json) : Except ReadError (Node Graph) := do
  let id ← textField j "id"
  let transitions ← transitionsOf j
  let kind ← kindOf branch id j
  .ok ⟨id, kind, transitions⟩

def read : Nat → Json → Except ReadError Graph
  | 0, _ => .error (.field "name")
  | fuel + 1, j => do
    let name ← textField j "name"
    let nodes ← (items j "nodes").mapM (nodeOf (read fuel))
    match ({ name, entry := (j.member? "entry").bind text?, nodes } : Declaration).build with
    | .ok g => .ok g
    | .error f => .error (.fault f)

def ofJson (j : Json) : Except ReadError Graph := read (j.depth + 1) j

end Switchyard.Graph
