import Switchyard.Engine.World

/-
  Switchyard.Engine.Act — actions on the world.

  An action comes to a value, or is broken off: by a panic, by something that never
  ends, or by a deadline that passes while a unit waits. Before that it takes steps,
  each of which looks at the world and changes it at once. What was done before a break
  stays done.

  `run` does an action from beginning to end with nothing in between, and takes an
  action's parts one after the other (`run_bind`). An action is data, so its steps may
  as well be taken one by one, with the steps of other actions between them.
-/

namespace Switchyard

inductive Halt where
  | panic (p : Payload)
  /-- Something never ends. -/
  | hang
  /-- The deadline of the guard at this depth has passed. -/
  | expired (guard : Nat)
  /-- Runs were nested deeper than there was room for. -/
  | tooDeep
  deriving DecidableEq, Repr, Inhabited

/-- What an action comes to, or its next step and what follows that. -/
inductive Act (σ α : Type) : Type 1 where
  | done (a : α)
  | broken (h : Halt)
  | step {β : Type} (f : World σ → β × World σ) (next : β → Act σ α)

namespace Act

variable {σ α β γ : Type}

/-! ## One action after another -/

protected def bind : Act σ α → (α → Act σ β) → Act σ β
  | .done a, g => g a
  | .broken h, _ => .broken h
  | .step f next, g => .step f fun b => (next b).bind g

instance : Monad (Act σ) where
  pure := .done
  bind := Act.bind

def attempt : Act σ α → Act σ (Except Halt α)
  | .done a => .done (.ok a)
  | .broken h => .done (.error h)
  | .step f next => .step f fun b => (next b).attempt

def run : Act σ α → World σ → Except Halt α × World σ
  | .done a, w => (.ok a, w)
  | .broken h, w => (.error h, w)
  | .step f next, w =>
    match f w with
    | (b, w) => (next b).run w

theorem bind_done (x : Act σ α) : x.bind .done = x := by
  induction x with
  | done a => rfl
  | broken h => rfl
  | step f next ih => simp only [Act.bind, ih]

theorem bind_bind (x : Act σ α) (g : α → Act σ β) (h : β → Act σ γ) :
    (x.bind g).bind h = x.bind fun a => (g a).bind h := by
  induction x with
  | done a => rfl
  | broken h => rfl
  | step f next ih => simp only [Act.bind, ih]

instance : LawfulMonad (Act σ) :=
  LawfulMonad.mk' (Act σ) bind_done (fun _ _ => rfl) bind_bind

@[simp] theorem run_pure (a : α) (w : World σ) : (pure a : Act σ α).run w = (.ok a, w) := rfl

@[simp] theorem run_bind (x : Act σ α) (g : α → Act σ β) (w : World σ) :
    (x >>= g).run w =
      match x.run w with
      | (.ok a, w) => (g a).run w
      | (.error h, w) => (.error h, w) := by
  show (x.bind g).run w = _
  induction x generalizing w with
  | done a => rfl
  | broken h => rfl
  | step f next ih => simp only [Act.bind, run, ih]

@[simp] theorem run_attempt (x : Act σ α) (w : World σ) : x.attempt.run w = (.ok (x.run w).1, (x.run w).2) := by
  induction x generalizing w with
  | done a => rfl
  | broken h => rfl
  | step f next ih => simp only [attempt, run, ih]

/-! ## Single steps -/

def look : Act σ (World σ) := .step (fun w => (w, w)) .done

def find (f : World σ → α) : Act σ α := .step (fun w => (f w, w)) .done

def change (f : World σ → World σ) : Act σ Unit := .step (fun w => ((), f w)) .done

def update (f : World σ → α × World σ) : Act σ α := .step f .done

/-- The time now; the clock moves on by a microsecond. -/
def now : Act σ Instant := update fun w =>
  (w.clock.origin.addNanos (w.clock.waited * nanosPerMilli + w.clock.looks * nanosPerMicro),
    { w with clock := { w.clock with looks := w.clock.looks + 1 } })

def freshId : Act σ ExecutionId := update fun w =>
  (ExecutionId.numbered w.clock.originMillis w.clock.issued,
    { w with clock := { w.clock with issued := w.clock.issued + 1 } })

/-- How long units have waited, in milliseconds. -/
def waited : Act σ Nat := find fun w => w.clock.waited

def publish (e : Event) : Act σ Unit := change fun w => { w with bus := w.bus.publish e }

def isCancelled (t : Token) : Act σ Bool := find fun w => w.cancelled.contains t

def cancel (t : Token) : Act σ Unit := change fun w => { w with cancelled := t :: w.cancelled }

/-! ## The history -/

def call (f : Repository → α × Repository) : Act σ α := update fun w =>
  let (a, repository) := f w.repository
  (a, { w with repository })

def append (r : Record) : Act σ (Except StoreError Unit) := do
  match ← call fun h => h.append r with
  | .ok () => return .ok ()
  | .error (.refused e) => return .error e
  | .error .unwritable => .broken (.panic (.text r.instanceId.straddle))

def loadLatest (id : InstanceId) : Act σ (Except StoreError (Option Record)) := call fun h => h.loadLatest id

def list (id : InstanceId) : Act σ (Except StoreError (List Record)) := call fun h => h.list id

def listRecent (limit : Nat) : Act σ (Except StoreError (List Record)) := call fun h => h.listRecent limit

/-! ## Waiting -/

/-- The guard whose deadline passes first before `target`, counted from the outermost,
    with its deadline; of equal deadlines the innermost. No target means forever. -/
def firstExpired (target : Option Nat) : List Nat → Option (Nat × Nat)
  | [] => none
  | d :: outer =>
    let rest := firstExpired target outer
    let passes := match target with
      | none => true
      | some t => d < t
    if passes then
      match rest with
      | some (g, d') => if d' < d then some (g, d') else some (outer.length, d)
      | none => some (outer.length, d)
    else rest

/-- Let time pass up to a time, or without end: up to the first deadline at most, and
    then tell whose it was. -/
def pass (target : Option Nat) : Act σ (Option Nat) := update fun w =>
  match firstExpired target w.deadlines with
  | some (g, d) => (some g, { w with clock := { w.clock with waited := max w.clock.waited d } })
  | none => (none, { w with clock := { w.clock with waited := target.getD w.clock.waited } })

def wait (millis : Nat) : Act σ Unit := do
  let start ← waited
  match ← pass (some (start + millis)) with
  | none => return ()
  | some g => .broken (.expired g)

/-- Wait forever: until the first deadline, if there is any. -/
def forever : Act σ α := do
  match ← pass none with
  | none => .broken .hang
  | some g => .broken (.expired g)

def pushDeadline (seconds : Nat) : Act σ Nat := update fun w =>
  (w.deadlines.length, { w with deadlines := (w.clock.waited + seconds * 1000) :: w.deadlines })

def popDeadline : Act σ Unit := change fun w => { w with deadlines := w.deadlines.tail }

/-- Do an action under a deadline, if one is given: none if it passed first. -/
def within (seconds : Option Nat) (x : Act σ α) : Act σ (Option α) := do
  match seconds with
  | none => return some (← x)
  | some s =>
    let guard ← pushDeadline s
    let r ← attempt x
    popDeadline
    match r with
    | .ok a => return some a
    | .error (.expired g) => if g = guard then return none else .broken (.expired g)
    | .error h => .broken h

end Act

end Switchyard
