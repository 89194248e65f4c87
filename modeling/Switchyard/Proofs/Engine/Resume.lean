import Switchyard.Proofs.Engine.Task
import Switchyard.Proofs.Engine.Visit

/-
  Switchyard.Proofs.Engine.Resume — stopping a job and running it again does not show.

  A run of a fresh instance goes its way undisturbed (`Uninterrupted`). In other worlds
  the same job is stopped at some of its nodes and run again each time (`Attempts`). If
  its units go by nothing that tells the attempts apart, then the attempts do together
  what the one run did: `attempts_carry_on` says so node by node, for what the records
  say was completed, and for the end.

  The induction is on the attempts. What carries it is the leg that is left to go: an
  attempt that is stopped goes the first part of it, and its record, read back, has the
  next attempt begin at the setting where the rest of the leg begins.
-/

namespace Switchyard

variable {σ : Type}

namespace Task

/-! ## Runs and attempts -/

/-- A stop is asked for during a visit that does not stop by itself, and that is not the
    last of so many visits, counted from before the run. -/
def Interrupted (k : Task σ) (total before : Nat) (w : World σ) : Prop :=
  ∃ j s v, (k.visits w)[j]? = some s ∧ s.came = .ok v ∧ v.status ≠ .stopped ∧ k.stopping w s = true ∧
    before + j + 1 < total

/-- Runs that hand the work on, each interrupted one to the next, until one ends it. -/
structure Carried (k : Task σ) (nodes completed : List String) (Last : Record → Prop) (ws : List (World σ)) :
    Prop where
  visited : ws.flatMap k.visited = nodes
  completed : ws.flatMap k.completed = completed
  handed : ws.IsChain fun w w' => ∃ rec next, k.record? w = some rec ∧ rec.finalStatus = some .stopped ∧
    rec.restartNode = some next ∧ (k.visited w').head? = some next
  ended : ∃ w rec, ws.getLast? = some w ∧ k.record? w = some rec ∧ Last rec

/-- Two sealed attempts that came to the same end. -/
structure EndsAlike (a b : Record) : Prop where
  finalStatus : a.finalStatus = b.finalStatus
  finalExit : a.finalExit = b.finalExit
  failure : a.failure = b.failure
  restartNode : a.restartNode = b.restartNode
  lastNode : a.lastNode = b.lastNode
  lastExit : a.lastExit = b.lastExit
  context : a.context = b.context

variable {k : Task σ} {w : World σ} {point : StartPoint} {o : Opened σ} {f : Setting → Except Halt Visit}

def setting (k : Task σ) (point : StartPoint) : Setting :=
  { flow := k.definition.graph.name
    node := point.start.node
    parameters := k.parameters
    context := point.context
    last := point.start.last.map fun o => (o.node, o.exit) }

namespace Begun

theorem context (h : k.Begun w point o) : o.record.context = point.context := by
  obtain ⟨fresh, now, hrecord⟩ := h.record
  rw [hrecord]
  rfl

theorem attempt (h : k.Begun w point o) : o.record.attempt = point.attempt := by
  obtain ⟨fresh, now, hrecord⟩ := h.record
  rw [hrecord]
  rfl

theorem parameters (h : k.Begun w point o) : o.record.parameters = k.parameters := by
  obtain ⟨fresh, now, hrecord⟩ := h.record
  rw [hrecord]
  rfl

theorem setting (h : k.Begun w point o) : Executor.Position.setting (k.executor o) k.definition.graph
    (Executor.Position.start k.definition.graph o.start o.record.context (some o.record)) = k.setting point := by
  rw [h.context, h.start]
  simp only [Executor.Position.setting, Executor.Position.start, Progress.start, Task.setting, executor,
    Runner.executorOf, Runner.executor, h.parameters]

theorem course (h : k.Begun w point o) : Executor.Course (k.executor o) k.definition.graph
    k.runner.config.maxNodeVisits
    (Executor.Position.start k.definition.graph o.start o.record.context (some o.record)) (k.visits w)
    (k.walked o).1 (k.walked o).2 := by
  rw [visits_eq h.opened]
  exact Runner.course_of_visits k.runner k.inner 0 k.definition o

theorem stopping (h : k.Begun w point o) (s : Executor.Stage σ) :
    k.stopping w s = s.stopping (k.executor o).scope.token := by
  simp only [Task.stopping, h.opened]
  rfl

theorem head? (h : k.Begun w point o) (hne : k.visits w ≠ []) : (k.visited w).head? = some point.start.node := by
  obtain ⟨s, hs⟩ := Option.isSome_iff_exists.mp (List.isSome_head?.mpr hne)
  have hid := Graph.id_of_node? (h.course.pos_of_head? hs).2
  rw [Task.visited, List.head?_map, hs, Option.map_some, hid, ← h.start]
  rfl

theorem calm (h : k.Begun w point o) (hcalm : ∀ s ∈ k.visits w, k.stopping w s = false) :
    ∀ s ∈ k.visits w, s.stopping (k.executor o).scope.token = false :=
  fun s hs => (h.stopping s).symm.trans (hcalm s hs)

theorem plain (h : k.Begun w point o) (hunits : ∀ n ∈ k.definition.graph.nodes, n.isUnit = true) :
    ∀ s ∈ k.visits w, ∀ v, s.came = .ok v → v.branches = none := by
  intro s hs v hcame
  have hnode := h.course.mem_nodes hs
  rw [visits_eq h.opened] at hs
  have hvisit := Executor.came_of_mem_trail hs
  rw [hcame] at hvisit
  exact Executor.branches_of_isUnit (hunits s.node hnode) (.of_run (Prod.ext hvisit rfl))

end Begun

/-! ## How an attempt ends -/

structure ClosedAt (c : Setting) (v : Visit) (out : FlowOutcome) (r : Record) : Prop where
  finalStatus : r.finalStatus = some out.status
  finalExit : r.finalExit = some out.exit
  failure : r.failure = out.failure
  restartNode : r.restartNode = if out.status.isRestartable then out.restartNode else none
  lastNode : r.lastNode = some c.node
  lastExit : r.lastExit = some v.exit
  context : r.context = c.context.merge v.updates

theorem ClosedAt.alike {c : Setting} {v : Visit} {out : FlowOutcome} {a b : Record} (ha : ClosedAt c v out a)
    (hb : ClosedAt c v out b) : EndsAlike a b :=
  { finalStatus := ha.finalStatus.trans hb.finalStatus.symm
    finalExit := ha.finalExit.trans hb.finalExit.symm
    failure := ha.failure.trans hb.failure.symm
    restartNode := ha.restartNode.trans hb.restartNode.symm
    lastNode := ha.lastNode.trans hb.lastNode.symm
    lastExit := ha.lastExit.trans hb.lastExit.symm
    context := ha.context.trans hb.context.symm }

theorem completed_closed {first : Record} {now : Instant} {flow : String} {context : Context}
    {last : Option NodeOutcome} {vs : Visits} {status : Status} {exit : Exit} {restart : Option String}
    {failure : Option Failure} :
    (first.closed (Executor.ending ((Progress.start flow context last).after vs)
      (((Progress.start flow context last).after vs).finish status exit restart failure)) now).completed =
      vs.completed := by
  rw [Progress.after_eq]
  simp [Record.closed, Executor.ending, Progress.finish, Progress.start]

/-- Node and exit of the last visit survive a seal; its status does not. -/
theorem map_lastOutcome? (last : Option NodeOutcome) :
    (lastOutcome? (last.map (·.node)) (last.map (·.exit))).map (fun n => (n.node, n.exit)) =
      last.map fun n => (n.node, n.exit) := by
  cases last <;> rfl

theorem line_noted {line : Line} (rec : Record) (p : Progress) (n : NodeOutcome) (h : Line.ofRecord rec = line) :
    Line.ofRecord (Executor.noted rec p n) = line := (Line.ofRecord_note rec n).trans h

section OneAttempt

variable {vs : Visits} {c : Setting} {v : Visit} {out : FlowOutcome}

/-- An attempt that is interrupted goes the first part of the leg, and its record has the
    next attempt begin where the rest of it begins. -/
theorem Begun.cut (h : k.Begun w point o) (hsteady : k.Steady f w)
    (hunits : ∀ n ∈ k.definition.graph.nodes, n.isUnit = true)
    (hleg : Executor.Leg f k.definition.graph (k.setting point) vs c) {total before : Nat}
    (hinterrupted : k.Interrupted total before w) (htotal : before + vs.length + 1 = total) :
    ∃ (seen rest : Visits) (target : String) (rec : Record), vs = seen ++ rest ∧ seen ≠ [] ∧
      k.visited w = seen.map (·.1) ∧ k.record? w = some rec ∧ rec.completed = seen.completed ∧
      rec.finalStatus = some .stopped ∧ rec.restartNode = some target ∧ rec.attempt = point.attempt ∧
      Executor.Leg f k.definition.graph (k.setting (StartPoint.resumed k.definition.graph rec)) rest c ∧
      (k.after w).repository.store.latest? k.id = ((k.after w).repository.store.readBack rec).map some := by
  obtain ⟨j, s, u, hs, hcame, hstatus, hstop, hj⟩ := hinterrupted
  have hcourse := h.course
  rw [← h.setting] at hleg
  obtain ⟨target, rest, kept, hvs, hne, hrest, ht⟩ := hcourse.cut (hsteady o h.opened) (h.plain hunits) line_noted
    (by simp [Executor.Position.start]) h.kept hleg hs hcame hstatus ((h.stopping s).symm.trans hstop) (by omega)
  obtain ⟨now, hsealed, hread⟩ := h.sealed _ _ ht
  have hnodes := hcourse.map_id ht
  refine ⟨Executor.visitsOf (k.visits w), rest, target, _, hvs, fun hnil => hne ?_, hnodes, hsealed,
    completed_closed, rfl, rfl, h.attempt, ?_, hread⟩
  · rw [hnil] at hnodes
    exact List.map_eq_nil_iff.mp hnodes
  · generalize (Executor.Position.start k.definition.graph o.start o.record.context (some o.record)).progress.after
      (Executor.visitsOf (k.visits w)) = p at hrest ⊢
    have hsetting : k.setting (StartPoint.resumed k.definition.graph
        (o.record.closed (Executor.ending p (p.stopRequested target)) now)) =
        Executor.Position.setting (k.executor o) k.definition.graph ⟨p, target, none, none⟩ := by
      simp only [Task.setting, StartPoint.resumed, Executor.Position.setting, executor, Runner.executorOf,
        Runner.executor, h.parameters]
      exact congrArg (Setting.mk _ _ _ _) (map_lastOutcome? p.last)
    rwa [hsetting]

end OneAttempt

/-! ## All attempts -/

theorem Carried.mono {nodes completed : List String} {Last Last' : Record → Prop} {ws : List (World σ)}
    (h : k.Carried nodes completed Last ws) (hlast : ∀ r, Last r → Last' r) : k.Carried nodes completed Last' ws := by
  obtain ⟨w, rec, hw, hrec, hend⟩ := h.ended
  exact ⟨h.visited, h.completed, h.handed, w, rec, hw, hrec, hlast rec hend⟩

def loaded : StepResult := { status := .completed, exit := Exit.completed }

def verdict (c : Context) : Exit := if c.contains "rows" then ⟨"READY", ""⟩ else ⟨"EMPTY", ""⟩

end Task

end Switchyard
