import Switchyard.Proofs.History.Faultless
import Switchyard.Proofs.History.Reached

/-
  Switchyard.Proofs.Engine.Task — one instance of a job, run in one world after another.

  `Task.visits` and `Task.record?` say what a run in a world visits and what it seals.
  `begun_of_ready` is all there is to know of a run whose calls to the store reach it:
  it opens the attempt that the latest record asks for, no checkpoint of it is refused,
  and if its traversal comes to an outcome, that is sealed and read back.
-/

namespace Switchyard

variable {σ : Type}

structure Task (σ : Type) where
  runner : Runner σ
  /-- The name that the job is asked for by. -/
  job : String
  definition : Definition
  parameters : Parameters

namespace Task

variable (k : Task σ)

def id : InstanceId := InstanceId.derive k.definition.name k.parameters

def inner : Runner.Run σ := k.runner.run (Runner.ampleLevels - 1)

def done (w : World σ) : Except Halt Reply × World σ := (k.runner.request (.run k.job k.parameters)).run w

def after (w : World σ) : World σ := (k.done w).2

/-- The record of the attempt that a run seals, if it seals one. -/
def record? (w : World σ) : Option Record :=
  match (k.done w).1 with
  | .ok (.report (.ok report)) => some report.record
  | _ => none

def opened? (w : World σ) : Option (Opened σ) := Runner.opened? k.definition k.parameters w

def executor (o : Opened σ) : Executor σ := k.runner.executorOf k.inner 0 o

def visits (w : World σ) : List (Executor.Stage σ) :=
  match k.opened? w with
  | some o => k.runner.visits k.inner 0 k.definition o
  | none => []

def visited (w : World σ) : List String := (k.visits w).map (·.node.id)

def completed (w : World σ) : List String := ((k.record? w).map (·.completed)).getD []

def stopping (w : World σ) (s : Executor.Stage σ) : Bool :=
  match k.opened? w with
  | some o => s.stopping o.token
  | none => false

def Steady (f : Setting → Except Halt Visit) (w : World σ) : Prop :=
  ∀ o ∈ k.opened? w, Executor.Steady f (k.executor o) k.definition.graph (k.visits w)

/-- A world that a task can be run in: nothing is wrong with the store, and identifiers
    last for the run. -/
structure Ready (w : World σ) : Prop where
  registered : w.jobs.get? k.job = some k.definition
  free : w.running.contains k.id.text = false
  faultless : w.repository.faults = noFaults
  reached : Reached w
  ids : w.clock.issued < ExecutionId.room
  idsAfter : (k.after w).clock.issued ≤ ExecutionId.room

variable {k} {w : World σ}

theorem visits_eq {o : Opened σ} (h : k.opened? w = some o) :
    k.visits w = k.runner.visits k.inner 0 k.definition o := by
  simp only [visits, h]

theorem done_eq : k.done w =
    match (k.runner.runOver k.inner 0 k.job k.parameters).run w with
    | (.ok x, w') => (.ok (.report x), w')
    | (.error h, w') => (.error h, w') := by
  have hrun : k.runner.run Runner.ampleLevels 0 k.job k.parameters
      = k.runner.runOver k.inner 0 k.job k.parameters := rfl
  simp only [done, Runner.request, Runner.handle, hrun, Act.run_bind]
  cases (k.runner.runOver k.inner 0 k.job k.parameters).run w with
  | mk x w' => cases x <;> rfl

theorem record?_eq_sealed? (hjob : w.jobs.get? k.job = some k.definition) {o : Opened σ} (ho : k.opened? w = some o) :
    k.record? w = k.runner.sealed? k.inner 0 k.definition o := by
  obtain ⟨w', hrun, -, -⟩ := Runner.run_of_opened k.runner k.inner 0 hjob ho
  rw [record?, done_eq, hrun, Runner.sealed?]
  rcases ((k.runner.executorOf k.inner 0 o).execute k.definition.graph o.start o.record).run o.world with
    ⟨halt | ⟨e | outcome, record⟩, w₁⟩ <;> rfl

def walked (k : Task σ) (o : Opened σ) : Except Halt Executor.Walked × World σ :=
  ((k.executor o).traverseGraph k.definition.graph o.start o.record.context (some o.record)).run o.world

/-- What a run in a world that is ready for it does, by where the next attempt begins. -/
structure Begun (k : Task σ) (w : World σ) (point : StartPoint) (o : Opened σ) : Prop where
  opened : k.opened? w = some o
  start : o.start = point.start
  record : ∃ fresh now, o.record =
    Record.start fresh now k.id k.definition.name point.attempt k.parameters point.context
  kept : ¬Executor.Refused (fun rec => Line.ofRecord rec = Line.ofRecord o.record) (k.walked o).2
  walked : ∀ rec, k.record? w = some rec → ∃ t kept, (k.walked o).1 = .ok (.ok t, kept)
  sealed : ∀ t kept, (k.walked o).1 = .ok (.ok t, kept) → ∃ now, k.record? w = some (o.record.closed t now) ∧
    (k.after w).repository.store.latest? k.id =
      ((k.after w).repository.store.readBack (o.record.closed t now)).map some

theorem begun_of_ready (h : k.Ready w) {latest : Option Record} (hlatest : w.repository.store.latest? k.id = .ok latest)
    {point : StartPoint}
    (hpoint : StartPoint.resolve latest k.definition.graph k.definition.restartable = .ok point) :
    ∃ o, k.Begun w point o := by
  have hguarded : On (Guarded noFaults []) w :=
    ⟨h.faultless, by simp, fun hids => ⟨sound_of_reached h.reached hids, by simp⟩⟩
  obtain ⟨o, hopened, hstart, ⟨fresh, now, hrecord⟩, hheld⟩ :=
    Runner.opened_of_resolve hguarded (Repository.reaches_of_noFaults h.faultless _)
      (Repository.reaches_of_noFaults h.faultless _) h.ids h.free hlatest hpoint
  have hid : o.record.instanceId = k.id := by rw [hrecord]; rfl
  have howner : (Line.ofRecord o.record).owner = k.id.text := congrArg InstanceId.text hid
  have hclosed : (k.executor o).Closed
      (keeping (Guarded noFaults [.ofLine k.id o.token (Line.ofRecord o.record)])) :=
    closed_executor (keeps_run k.runner _) o.record 0 o.token
  have hrecords : ∀ rec ∈ some o.record, Line.ofRecord rec = Line.ofRecord o.record := by simp
  have hkeeps : ((k.executor o).traverseGraph k.definition.graph o.start o.record.context (some o.record)).Keeps
      (On (Guarded noFaults [.ofLine k.id o.token (Line.ofRecord o.record)])) :=
    Executor.has_traverseGraph hclosed (storable _ howner (by simp)) k.definition.graph o.start o.record.context hrecords
  have hwalked : On (Guarded noFaults [.ofLine k.id o.token (Line.ofRecord o.record)]) (k.walked o).2 :=
    hkeeps.run hheld.ofLine
  obtain ⟨w', hrun, hrepository, hclock⟩ := Runner.run_of_opened k.runner k.inner 0 h.registered hopened
  have hdone : k.after w = w' := by
    rw [after, done_eq, hrun]
    cases Runner.reported _ <;> rfl
  have hids : (k.walked o).2.clock.issued ≤ ExecutionId.room := by
    have hissued : w'.clock.issued = (k.walked o).2.clock.issued := by
      rw [hclock]
      exact Executor.issued_execute o.world
    rw [← hissued, ← hdone]
    exact h.idsAfter
  refine ⟨o, hopened, hstart, ⟨fresh, now, hrecord⟩, not_refused hwalked hids howner, fun rec hrec => ?_,
    fun t kept ht => ?_⟩
  · rw [record?_eq_sealed? h.registered hopened] at hrec
    obtain ⟨t, kept, w₁, now, htraverse, -⟩ := Runner.closed_of_sealed hopened hrec
    exact ⟨t, kept, congrArg Prod.fst htraverse⟩
  · have hexecute := Executor.run_execute (Runner.not_sealed_of_opened hopened)
      (Prod.ext ht rfl : k.walked o = (_, (k.walked o).2))
    rw [← hid] at hwalked
    obtain ⟨now, w₂, hclosing, hread⟩ := Executor.run_closing hwalked hids t
    rw [hclosing] at hexecute
    rw [show Runner.executorOf k.runner k.inner 0 o = k.executor o from rfl, hexecute] at hrepository
    refine ⟨now, ?_, ?_⟩
    · rw [record?_eq_sealed? h.registered hopened, Runner.sealed?,
        show Runner.executorOf k.runner k.inner 0 o = k.executor o from rfl, hexecute]
    · rw [hdone, hrepository, ← hid]
      exact hread

/-- What a run sealed is read back from the store. -/
theorem latest_after (h : k.Ready w) {o : Opened σ} (ho : k.opened? w = some o) {rec : Record}
    (hrec : k.record? w = some rec) :
    (k.after w).repository.store.latest? k.id = ((k.after w).repository.store.readBack rec).map some := by
  obtain ⟨latest, point, -, -, hlatest, hpoint, -, -⟩ := Runner.start_of_opened ho
  obtain ⟨o', hbegun⟩ := begun_of_ready h hlatest hpoint
  obtain ⟨t, kept, ht⟩ := hbegun.walked rec hrec
  obtain ⟨now, hclosed, hread⟩ := hbegun.sealed t kept ht
  obtain rfl : rec = o'.record.closed t now := Option.some.inj (hrec.symm.trans hclosed)
  exact hread

end Task

end Switchyard
