import Switchyard.Exit
import Switchyard.Pattern.Specificity

/-
  Switchyard.Transition — the rules that route a node's exit code: to another node of
  the same flow, or to an end of the flow.

  A table is kept with the most specific pattern first (`table`), and the first rule
  that matches a code is taken (`choose`). So the choice does not depend on the order
  in which the rules were declared.
-/

namespace Switchyard

inductive Action where
  /-- Go on to another node of the flow. -/
  | goto (target : String)
  /-- End the flow `completed`. -/
  | complete
  /-- End the flow `failed`; a restart repeats the node that gave the exit. -/
  | fail
  /-- End the flow `stopped`; a restart begins at the given node. -/
  | stop (restart : String)
  deriving DecidableEq, Repr, Inhabited

/-- A rule from an exit-code pattern to an action. On an action that ends the flow,
    `exitCode` and `status` replace the ones the flow would end with. -/
structure Transition where
  pattern : String
  action : Action
  exitCode : Option String := none
  status : Option Status := none
  deriving DecidableEq, Repr, Inhabited

namespace Transition

def goto (pattern target : String) : Transition := { pattern, action := .goto target }
def complete (pattern : String) : Transition := { pattern, action := .complete }
def fail (pattern : String) : Transition := { pattern, action := .fail }
def stop (pattern restart : String) : Transition := { pattern, action := .stop restart }

def accepts (t : Transition) (code : String) : Bool := Pattern.accepts t.pattern code

def isTerminal (t : Transition) : Bool :=
  match t.action with
  | .goto _ => false
  | _ => true

/-- The node a rule names, if any: the next one, or the one a restart begins at. -/
def node? (t : Transition) : Option String :=
  match t.action with
  | .goto target => some target
  | .stop restart => some restart
  | .complete | .fail => none

def place (t : Transition) : List Transition → List Transition
  | [] => [t]
  | u :: rest => if Pattern.precedes u.pattern t.pattern then u :: place t rest else t :: u :: rest

/-- The rules from the most to the least specific; equals keep their order. -/
def table (rules : List Transition) : List Transition := rules.foldr place []

def choose (code : String) (rules : List Transition) : Option Transition :=
  rules.find? (·.accepts code)

def noMatch (code : String) : String := "no transition matches exit code '" ++ code ++ "'"

end Transition

end Switchyard
