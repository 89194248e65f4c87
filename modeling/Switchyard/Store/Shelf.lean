import Switchyard.Record
import Switchyard.Store.Error

/-
  Switchyard.Store.Shelf — a history in memory: the records of each instance, as a list.

  A record that is already there, by its identifier, is replaced where it stands. A new
  one needs an attempt number that the instance does not have yet; it is put at the end
  and the list is sorted by attempt, equal attempts keeping their order. The latest
  record is the last of the list.
-/

namespace Switchyard

/-- Elements in order, put in one by one from the right; equals keep their order. -/
def sortBy {α : Type} (before : α → α → Bool) (l : List α) : List α := l.foldr place []
where
  place (x : α) : List α → List α
    | [] => [x]
    | y :: rest => if before y x then y :: place x rest else x :: y :: rest

structure Shelf where
  attempts : Dict (List Record)

namespace Shelf

def empty : Shelf := ⟨Dict.empty⟩

def list (s : Shelf) (id : InstanceId) : List Record := (s.attempts.get? id.text).getD []

def latest? (s : Shelf) (id : InstanceId) : Option Record := (s.list id).getLast?

def replace (r : Record) (l : List Record) : List Record := l.map fun x => if x.id = r.id then r else x

def taken (r : Record) : AppendFailure :=
  match r.instanceId.short? with
  | some short =>
    .refused (.conflict ("attempt " ++ toString r.attempt ++ " already recorded for instance " ++ short))
  | none => .unwritable

def append (s : Shelf) (r : Record) : Except AppendFailure Shelf :=
  let l := s.list r.instanceId
  if l.any (·.id = r.id) then .ok ⟨s.attempts.insert r.instanceId.text (replace r l)⟩
  else if l.any (·.attempt = r.attempt) then .error (taken r)
  else .ok ⟨s.attempts.insert r.instanceId.text (sortBy (fun a b => a.attempt < b.attempt) (l ++ [r]))⟩

def all (s : Shelf) : List Record := s.attempts.values.flatten

def recent (s : Shelf) (limit : Nat) : List Record :=
  (sortBy (fun a b => Instant.compare b.started a.started = .lt) s.all).take limit

end Shelf

end Switchyard
