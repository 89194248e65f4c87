/-
  Switchyard.Bus — a broadcast channel that never waits for its receivers.

  Every receiver gets the events published after it subscribed, in order. The channel
  keeps the newest `room` events: a receiver that fell further behind is told once how
  many it missed and goes on with the oldest event kept. Events published while nobody
  is subscribed are lost.
-/

namespace Switchyard

/-- The events published so far and the position of each receiver, none once it left. -/
structure Bus (ε : Type) where
  room : Nat
  published : Array ε := #[]
  receivers : List (Option Nat) := []

inductive Received (ε : Type) where
  | event (e : ε)
  | empty
  | lagged (missed : Nat)
  deriving Repr

namespace Bus

variable {ε : Type}

/-- Room for at least one event, rounded up to a power of two. -/
def ofCapacity (capacity : Nat) : Bus ε := { room := (max capacity 1).nextPowerOfTwo }

def maxCapacity : Nat := 281474976710656

def receiverCount (b : Bus ε) : Nat := (b.receivers.filter (·.isSome)).length

def subscribe (b : Bus ε) : Bus ε := { b with receivers := b.receivers ++ [some b.published.size] }

def drop (b : Bus ε) (i : Nat) : Bus ε := { b with receivers := b.receivers.set i none }

def publish (b : Bus ε) (e : ε) : Bus ε :=
  if b.receiverCount = 0 then b else { b with published := b.published.push e }

def oldest (b : Bus ε) : Nat := b.published.size - b.room

/-- What the next look of a receiver finds; none if it left or never was. -/
def receive (b : Bus ε) (i : Nat) : Option (Received ε) × Bus ε :=
  match b.receivers[i]? with
  | some (some next) =>
    if next < b.oldest then
      (some (.lagged (b.oldest - next)), { b with receivers := b.receivers.set i (some b.oldest) })
    else
      match b.published[next]? with
      | some e => (some (.event e), { b with receivers := b.receivers.set i (some (next + 1)) })
      | none => (some .empty, b)
  | _ => (none, b)

def drain (b : Bus ε) (i : Nat) : Option Nat × List ε × Bus ε :=
  match b.receivers[i]? with
  | some (some next) =>
    let first := max next b.oldest
    (if next < b.oldest then some (b.oldest - next) else none, b.published.toList.drop first,
      { b with receivers := b.receivers.set i (some b.published.size) })
  | _ => (none, [], b)

def text (b : Bus ε) : String := "EventBus \x7b receiver_count: " ++ toString b.receiverCount ++ " \x7d"

end Bus

end Switchyard
