import Switchyard.Json

/-
  Switchyard.Toml — documents of keys, tables and lists of tables, as they grow while
  they are read.

  A header declares a table, once; the tables on the way to it are implied and may
  still be declared later. A dotted key makes the tables on its way itself and may add
  only to tables made so. No key gets a second value. A header that names a list of
  tables begins a new table at its end, and paths that lead through a list mean its
  newest table.
-/

namespace Switchyard

inductive TableOrigin where
  /-- On the way to a header. -/
  | implied
  | declared
  /-- On the way to a value. -/
  | dotted
  deriving DecidableEq, Repr

inductive TomlItem where
  | value (j : Json)
  | table (origin : TableOrigin) (members : List (String × TomlItem))
  /-- Tables declared one by one, the newest last. -/
  | tables (all : List (List (String × TomlItem)))

namespace Toml

abbrev Members := List (String × TomlItem)

def find (k : String) : Members → Option TomlItem
  | [] => none
  | (key, item) :: rest => if key = k then some item else find k rest

/-- Put an item in place of the one of its key, or at the end. -/
def put (k : String) (item : TomlItem) : Members → Members
  | [] => [(k, item)]
  | (key, old) :: rest => if key = k then (k, item) :: rest else (key, old) :: put k item rest

/-- Change the members at the end of a path; the way there is made where it is missing.
    On a dotted path no declared table may be passed. -/
def update (isDotted : Bool) (f : TableOrigin → Members → Option Members) :
    List String → TableOrigin → Members → Option Members
  | [], origin, members => f origin members
  | k :: path, _, members =>
    match find k members with
    | none => do
      let origin : TableOrigin := if isDotted then .dotted else .implied
      let sub ← update isDotted f path origin []
      some (put k (.table origin sub) members)
    | some (.value _) => none
    | some (.table origin sub) =>
      if isDotted && origin = .declared then none
      else do
        let sub ← update isDotted f path origin sub
        some (put k (.table origin sub) members)
    | some (.tables all) => do
      let newest ← all.getLast?
      let sub ← update isDotted f path .declared newest
      some (put k (.tables (all.dropLast ++ [sub])) members)

def assign (path : List String) (k : String) (j : Json) (origin : TableOrigin) (members : Members) : Option Members :=
  update true
    (fun origin members =>
      if (origin = .dotted ↔ path = []) ∨ (find k members).isSome then none
      else some (put k (.value j) members))
    path origin members

def declare (k : String) (members : Members) : Option Members :=
  match find k members with
  | none => some (put k (.table .declared []) members)
  | some (.table .implied sub) => some (put k (.table .declared sub) members)
  | some _ => none

def lengthen (k : String) (members : Members) : Option Members :=
  match find k members with
  | none => some (put k (.tables [[]]) members)
  | some (.tables all) => some (put k (.tables (all ++ [[]])) members)
  | some _ => none

mutual

def itemJson : TomlItem → Json
  | .value j => j
  | .table _ members => .obj (membersJson members)
  | .tables all => .arr (tablesJson all)

def membersJson : List (String × TomlItem) → List (String × Json)
  | [] => []
  | (k, item) :: rest => (k, itemJson item) :: membersJson rest

def tablesJson : List (List (String × TomlItem)) → List Json
  | [] => []
  | members :: rest => .obj (membersJson members) :: tablesJson rest

end

end Toml

end Switchyard
