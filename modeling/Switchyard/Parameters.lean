import Switchyard.Context
import Switchyard.Text.Blank

/-
  Switchyard.Parameters — the parameters a job is run with.

  Each is identifying or an option. The identifying ones, in key order, tell one
  instance of a job from another. A job launched by a node of another job takes the
  keys the node declares from the context, else from the launching job's parameters.
-/

namespace Switchyard

structure Parameter where
  value : String
  identifying : Bool := true
  deriving DecidableEq, Repr, Inhabited

abbrev Parameters := Dict Parameter

namespace Parameters

def identify (p : Parameters) (key value : String) : Parameters := p.insert key ⟨value, true⟩

def option (p : Parameters) (key value : String) : Parameters := p.insert key ⟨value, false⟩

def value? (p : Parameters) (key : String) : Option String := (p.get? key).map (·.value)

def identifying (p : Parameters) : List (String × String) :=
  (p.entries.filter (·.2.identifying)).map fun e => (e.1, e.2.value)

def inherited? (context : Context) (parent : Parameters) (key : String) : Option String :=
  match context.text? key with
  | some value => some value
  | none => parent.value? key

/-- The parameters of a launched job: every declared key that has a value, identifying. -/
def extract (context : Context) (parent : Parameters) (keys : List String) : Parameters :=
  keys.foldl
    (fun acc key =>
      match inherited? context parent key with
      | some value => acc.identify key value
      | none => acc)
    Dict.empty

/-- A pair in the form key=value: the text before the first equals sign without the
    white space around it, and all that follows the sign. -/
def pair? (s : String) : Option (String × String) :=
  match s.toList.span (· ≠ '=') with
  | (key, '=' :: value) =>
    let key := Text.trim (String.ofList key)
    if key = "" then none else some (key, String.ofList value)
  | _ => none

def pairExpected (s : String) : String := "expected key=value, got '" ++ s ++ "'"

end Parameters

end Switchyard
