import Switchyard.Json

/-
  Switchyard.Codec.Shape — reading typed values out of JSON.

  A structure is written as an object. It is read from an object, where members that
  are no field of it are ignored and a field may not stand twice, or from the array of
  its fields in order, which may end early. A map is read from an object only, and of
  two equal keys the later stays. An absent field takes its default; null stands only
  for the absence of an optional one.
-/

namespace Switchyard.Codec

abbrev Fields := String → Option Json

def noFieldTwice (names : List String) (members : List (String × Json)) : Bool :=
  names.all fun name => members.countP (·.1 = name) ≤ 1

def objectFields? (names : List String) : Json → Option Fields
  | .obj members => if noFieldTwice names members then some fun name => Dict.findEntry name members else none
  | _ => none

/-- The fields of a structure that is an object, or an array in the order of `names`. -/
def fields? (names : List String) : Json → Option Fields
  | .arr items =>
    if items.length ≤ names.length then some fun name => Dict.findEntry name (names.zip items) else none
  | j => objectFields? names j

variable {α : Type}

def required (f : Fields) (name : String) (read : Json → Option α) : Option α := f name >>= read

def optional (f : Fields) (name : String) (read : Json → Option α) : Option (Option α) :=
  match f name with
  | none | some .null => some none
  | some j => (read j).map some

def defaulted (f : Fields) (name : String) (default : α) (read : Json → Option α) : Option α :=
  match f name with
  | none => some default
  | some j => read j

def text? : Json → Option String
  | .str s => some s
  | _ => none

def flag? : Json → Option Bool
  | .bool b => some b
  | _ => none

def natural? (limit : Nat) : Json → Option Nat
  | .int n => if 0 ≤ n ∧ n ≤ limit then some n.toNat else none
  | _ => none

def listOf? (read : Json → Option α) : Json → Option (List α)
  | .arr items => items.mapM read
  | _ => none

def mapOf? (read : Json → Option α) : Json → Option (Dict α)
  | .obj members => (members.mapM fun m => (read m.2).map fun v => (m.1, v)).map Dict.ofList
  | _ => none

/-- One of a set of names, alone or as the only key of an object that holds null. -/
def named? (ofName? : String → Option α) : Json → Option α
  | .str s => ofName? s
  | .obj [(s, .null)] => ofName? s
  | _ => none

def ofTexts (l : List String) : Json := .arr (l.map .str)

end Switchyard.Codec
