import Switchyard.Decimal.Binary64
import Switchyard.Dict

/-
  Switchyard.Json — JSON values.

  Whole numbers are kept exactly, other numbers as binary numbers of 64 bits. An object
  is the list of its members: as a reader meets them, repeats included, or, in the
  `canonical` form, in key order with the last of equal keys. Values that the engine
  stores are canonical.
-/

namespace Switchyard

inductive Json where
  | null
  | bool (b : Bool)
  | int (n : Int)
  | real (x : Binary64)
  | str (s : String)
  | arr (items : List Json)
  | obj (members : List (String × Json))
  deriving Inhabited, Repr

namespace Json

mutual

/-- Members in key order, the last of equal keys kept, at every depth. -/
def canonical : Json → Json
  | .arr items => .arr (canonicalItems items)
  | .obj members => .obj (canonicalMembers members)
  | j => j

def canonicalItems : List Json → List Json
  | [] => []
  | j :: rest => j.canonical :: canonicalItems rest

def canonicalMembers : List (String × Json) → List (String × Json)
  | [] => []
  | (k, j) :: rest =>
    let tail := canonicalMembers rest
    if (Dict.findEntry k tail).isSome then tail else Dict.insertEntry k j.canonical tail

end

mutual

def depth : Json → Nat
  | .arr items => depthItems items + 1
  | .obj members => depthMembers members + 1
  | _ => 0

def depthItems : List Json → Nat
  | [] => 0
  | j :: rest => max j.depth (depthItems rest)

def depthMembers : List (String × Json) → Nat
  | [] => 0
  | (_, j) :: rest => max j.depth (depthMembers rest)

end

def object (members : List (String × Json)) : Json := .obj (Dict.ofList members).entries

/-- The member of an object, the last one of that name. -/
def member? (j : Json) (k : String) : Option Json :=
  match j with
  | .obj members => Dict.findEntry k members.reverse
  | _ => none

def nat (n : Nat) : Json := .int (Int.ofNat n)

def optional (k : String) (v : Option Json) : List (String × Json) :=
  match v with
  | some j => [(k, j)]
  | none => []

end Json

end Switchyard
