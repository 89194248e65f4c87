import Switchyard.Codec.Shape
import Switchyard.Rehearsal

/-
  Switchyard.Rehearsal.Script — scripts of units as JSON.

  A script is an object that maps a unit's name to the array of its behaviours. Nothing
  in a script is refused: a member that is missing, unknown or of another type than it
  should be is as if it were not there.
-/

namespace Switchyard.Rehearsal

open Codec

variable {ε : Type}

def member (j : Json) (k : String) : Json := (j.member? k).getD .null

def textAt (j : Json) (k : String) : Option String := text? (member j k)

def textsAt? (j : Json) (k : String) : Option (List String) :=
  match member j k with
  | .arr items => some (items.filterMap text?)
  | _ => none

def flagAt (j : Json) (k : String) : Bool := (flag? (member j k)).getD false

def Choice.ofJson (j : Json) : Choice :=
  match textAt j "key", member j "at_least" with
  | some k, _ => .key k
  | none, .arr [.str k, .int n] => .atLeast k n.toNat
  | none, _ => .exit ((textAt j "exit").getD Exit.completed.code)

def payloadOf (j : Json) (text : String) : Payload :=
  if textAt j "payload" = some "other" then .other else .text text

namespace Behaviour

/-- Read a behaviour; `errand` reads the requests that its errands are. -/
def ofJson (errand : Json → Errand ε) (j : Json) : Behaviour ε :=
  { errands := match member j "calls" with
      | .arr calls => some (calls.map errand)
      | _ => none
    cancels := flagAt j "cancel"
    waits := natural? Text.maxU64 (member j "sleep_ms")
    hangs := flagAt j "hang"
    panics := (textAt j "panic").map (payloadOf j)
    fails := textsAt? j "error"
    description := textAt j "description"
    status := (textAt j "status").getD Status.completed.name
    exit := textAt j "exit"
    additions := (textsAt? j "add").getD []
    set := match member j "set" with
      | .obj members => Dict.ofList members
      | _ => Dict.empty
    count := textAt j "count"
    raise := textAt j "incr"
    choice := Choice.ofJson j }

end Behaviour

def scriptsOfJson (behaviour : Json → Behaviour ε) (j : Json) : Dict (List (Behaviour ε)) :=
  match j with
  | .obj members =>
    Dict.ofList (members.map fun (name, j) =>
      match j with
      | .arr items => (name, items.map behaviour)
      | _ => (name, []))
  | _ => Dict.empty

end Switchyard.Rehearsal
