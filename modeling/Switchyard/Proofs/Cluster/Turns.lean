import Mathlib.Logic.Function.Basic
import Switchyard.Proofs.Cluster.Moves

/-
  Switchyard.Proofs.Cluster.Turns — calls to any number of runners over one store, their
  steps taken in turns.

  A cluster has a store and a clock that all share, and any number of processes, each with
  claims, live views, jobs, units' memory and failing calls of its own. A call is a
  request made of the runner of a process; calls to one process share what the process
  has. A turn is one step of one call (`Cluster.advance`), so a call to the store is
  undivided and whatever others do may come before and after it. A list of calls says
  whose turn it is in what order (`Cluster.after`), and every way to interleave the calls
  is such a list.

  What calls tell is read from a channel with nobody else on it: no action looks at one.

  - `Cluster.advance_move`: a turn of a call that plays by the moves is a move.
-/

namespace Switchyard

structure Call (σ : Type) where
  process : Nat
  rest : Act σ Reply
  /-- The deadlines of the guards under way in it, innermost first. -/
  deadlines : List Nat := []

structure Cluster (σ : Type) where
  store : Store
  clock : Clock
  /-- What each process has of its own; its store, clock, channel and deadlines play no
      part. -/
  processes : Nat → World σ
  calls : Nat → Call σ

def Bus.listening : Bus Event := { room := 1, receivers := [some 0] }

namespace Cluster

variable {σ : Type}

def view (c : Cluster σ) (i : Nat) : World σ :=
  let own := c.processes (c.calls i).process
  { own with
    repository := { own.repository with store := c.store }
    clock := c.clock
    deadlines := (c.calls i).deadlines
    bus := .listening }

/-- The world after a call's next step, if there is one, and what is left of the call. -/
def turn (c : Cluster σ) (i : Nat) : World σ × Act σ Reply :=
  match (c.calls i).rest with
  | .step f next => ((f (c.view i)).2, next (f (c.view i)).1)
  | rest => (c.view i, rest)

def advance (c : Cluster σ) (i : Nat) : Cluster σ :=
  match c.turn i with
  | (w, rest) =>
    { store := w.repository.store
      clock := w.clock
      processes := Function.update c.processes (c.calls i).process w
      calls := Function.update c.calls i { c.calls i with rest, deadlines := w.deadlines } }

def tells (c : Cluster σ) (i : Nat) : List Event := (c.turn i).1.bus.published.toList

def after (c : Cluster σ) (turns : List Nat) : Cluster σ := turns.foldl advance c

def shared (c : Cluster σ) : Shared :=
  { store := c.store
    millis := c.clock.originMillis
    issued := c.clock.issued }

/-- Nothing is done yet: the store is empty, and every call is a request that was made of
    a runner. -/
structure Fresh (c : Cluster σ) : Prop where
  empty : c.store = .shelf Shelf.empty ∨ c.store = .table Table.empty
  asked : ∀ i, ∃ (r : Runner σ) (q : Request), (c.calls i).rest = r.request q

/-! ## Turns -/

variable {c : Cluster σ} {turns more : List Nat} {i j : Nat}

theorem after_append : c.after (turns ++ more) = (c.after turns).after more := List.foldl_append

theorem after_snoc : c.after (turns ++ [i]) = (c.after turns).advance i := after_append

theorem calls_advance : ((c.advance i).calls i).rest = (c.turn i).2 := by
  simp [advance]

theorem calls_advance_of_ne (h : j ≠ i) : (c.advance i).calls j = c.calls j := Function.update_of_ne h _ _

theorem tells_of_bus {e : Option Event} (h : (c.turn i).1.bus = (c.view i).bus.after e) : c.tells i = e.toList := by
  unfold tells
  rw [h]
  cases e <;> rfl

/-- A turn of a call whose steps are moves is a move. -/
theorem advance_move {Q : Except Halt Reply → Stance → Prop} {q : Stance} (h : (c.calls i).rest.Plays Q q) :
    ∃ e q', Move c.shared q e (c.advance i).shared q' ∧ c.tells i = e.toList ∧
      ((c.advance i).calls i).rest.Plays Q q' := by
  have hturn : ∃ e q', Move (c.view i).shared q e (c.turn i).1.shared q' ∧
      (c.turn i).1.bus = (c.view i).bus.after e ∧ (c.turn i).2.Plays Q q' := by
    unfold turn
    cases hrest : (c.calls i).rest with
    | done a => exact ⟨none, q, .rest, rfl, by rwa [hrest] at h⟩
    | broken e => exact ⟨none, q, .rest, rfl, by rwa [hrest] at h⟩
    | step f next =>
      rw [hrest] at h
      exact h (c.view i)
  obtain ⟨e, q', hmove, hbus, hplays⟩ := hturn
  refine ⟨e, q', hmove, tells_of_bus hbus, ?_⟩
  rwa [calls_advance]

end Cluster

end Switchyard
