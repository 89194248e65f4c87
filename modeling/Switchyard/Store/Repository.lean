import Switchyard.Store.Table

/-
  Switchyard.Store.Repository — the history as the engine uses it: a store behind calls
  that may fail.

  There are two kinds of store, a shelf in memory and a table of rows. Each call is
  counted by its method, and a schedule of faults says which calls fail before they
  reach the store. A call that fails that way leaves the store as it was.
-/

namespace Switchyard

inductive Store where
  | shelf (l : Shelf)
  | table (t : Table)

namespace Store

def append (s : Store) (r : Record) : Except AppendFailure Store :=
  match s with
  | .shelf l => (l.append r).map .shelf
  | .table t => (t.append r).map .table

def latest? (s : Store) (id : InstanceId) : Except StoreError (Option Record) :=
  match s with
  | .shelf l => .ok (l.latest? id)
  | .table t => t.latest? id

def list (s : Store) (id : InstanceId) : Except StoreError (List Record) :=
  match s with
  | .shelf l => .ok (l.list id)
  | .table t => t.list id

def recent (s : Store) (limit : Nat) : Except StoreError (List Record) :=
  match s with
  | .shelf l => .ok (l.recent limit)
  | .table t => t.recent limit

end Store

inductive Method where
  | append
  | loadLatest
  | list
  | listRecent
  deriving DecidableEq, Repr

structure CallCounts where
  append : Nat := 0
  loadLatest : Nat := 0
  list : Nat := 0
  listRecent : Nat := 0
  deriving DecidableEq, Repr

def CallCounts.next (c : CallCounts) : Method → Nat × CallCounts
  | .append => (c.append + 1, { c with append := c.append + 1 })
  | .loadLatest => (c.loadLatest + 1, { c with loadLatest := c.loadLatest + 1 })
  | .list => (c.list + 1, { c with list := c.list + 1 })
  | .listRecent => (c.listRecent + 1, { c with listRecent := c.listRecent + 1 })

/-- A store with the faults its calls will meet: the error of the `n`th call of a
    method, counted from one, if that call is to fail. -/
structure Repository where
  store : Store
  faults : Method → Nat → Option StoreError := fun _ _ => none
  counts : CallCounts := {}

namespace Repository

def call (r : Repository) (m : Method) : Option StoreError × Repository :=
  let (n, counts) := r.counts.next m
  (r.faults m n, { r with counts })

def append (r : Repository) (record : Record) : Except AppendFailure Unit × Repository :=
  match r.call .append with
  | (some e, r) => (.error (.refused e), r)
  | (none, r) =>
    match r.store.append record with
    | .ok store => (.ok (), { r with store })
    | .error e => (.error e, r)

def loadLatest (r : Repository) (id : InstanceId) : Except StoreError (Option Record) × Repository :=
  match r.call .loadLatest with
  | (some e, r) => (.error e, r)
  | (none, r) => (r.store.latest? id, r)

def list (r : Repository) (id : InstanceId) : Except StoreError (List Record) × Repository :=
  match r.call .list with
  | (some e, r) => (.error e, r)
  | (none, r) => (r.store.list id, r)

def listRecent (r : Repository) (limit : Nat) : Except StoreError (List Record) × Repository :=
  match r.call .listRecent with
  | (some e, r) => (.error e, r)
  | (none, r) => (r.store.recent limit, r)

end Repository

end Switchyard
