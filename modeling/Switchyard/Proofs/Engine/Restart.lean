import Switchyard.Proofs.Engine.Outcome

/-
  Switchyard.Proofs.Engine.Restart — an instance that failed or stopped goes on where its
  record says, and no traversal comes to a node that its graph does not have.

  Every traversal of a run begins in its graph: the job's own because the latest record
  was looked at for that, whatever the history says, and a branch because an earlier
  outcome that names no node of it sends it to its entry (`Started.sound`). From there
  every rule stays in the graph, so `unknownNode` is never what a traversal comes to.

  An attempt that is sealed as failed or stopped records a node of its graph to begin
  again at (`Of.exists_restart`). Nothing then stands between the instance and its next
  attempt: `restart_goes_on`.
-/

namespace Switchyard

variable {σ : Type} {d : Definition} {parameters : Parameters}

/-! ## The traversals of a run -/

def Tour.act (t : Tour σ) : Act σ Executor.Walked :=
  t.ex.traverse (t.ex.walkBranch t.levels) t.graph t.start t.context t.record

/-- The traversals that an attempt of a job may start while others act: the one of its own
    flow, begun where any history may say, and one for each branch that is walked where
    one of them comes to a split. -/
inductive Started (ex : Executor σ) (d : Definition) : Tour σ → Prop
  | own {latest : Option Record} {point : StartPoint} (context : Context) (record : Option Record) (w : World σ) :
      StartPoint.resolve latest d.graph d.restartable = .ok point →
      Started ex d ⟨ex, d.graph.nesting, d.graph, point.start, context, record, w⟩
  | branch {t : Tour σ} {levels : Nat} {pos : Executor.Position} {node : Node Graph} {branches : List Graph} {i : Nat}
      {b : Graph} {start : FlowStart} (w : World σ) : Started ex d t → t.levels = levels + 1 →
      Executor.Comes t.ex (t.ex.walkBranch t.levels) t.graph
        (Executor.Position.start t.graph t.start t.context t.record) pos →
      t.graph.node? pos.node = some node → node.kind = .split branches →
      (i, b, start) ∈ Split.toRun branches (Split.plan pos.prior branches) →
      Started ex d ⟨t.ex, levels, b, start, pos.progress.context, none, w⟩

namespace Started

variable {ex : Executor σ} {t : Tour σ}

/-- Every traversal begins at a node of its graph. -/
theorem sound (hd : d.graph.Valid) (h : Started ex d t) :
    t.graph.Valid ∧ t.graph.contains t.start.node = true := by
  induction h with
  | own _ _ _ hpoint => exact ⟨hd, StartPoint.contains_of_resolve hd hpoint⟩
  | branch _ _ _ _ hnode hkind hrun ih =>
    have hvalid := fun b hb => ih.1.branch hnode hkind (b := b) hb
    obtain ⟨hb, rfl | ⟨o, -, -, rfl⟩⟩ := Split.start_of_mem_toRun (ih.1.branchNames hnode hkind) hrun
    · exact ⟨hvalid _ hb, (hvalid _ hb).contains_entry⟩
    · exact ⟨hvalid _ hb, FlowStart.contains_resume (hvalid _ hb) o⟩

end Started

/-! ## Running while others act -/

namespace Runner

/-- The first node that an attempt visits is the one it begins at, and the attempt comes to
    it as soon as it is opened. -/
theorem exists_first_visit (r : Runner σ) (inner : Run σ) (depth : Nat) (o : Opened σ)
    (hstart : d.graph.contains o.start.node = true) (hroom : 1 ≤ r.config.maxNodeVisits) :
    ∃ s rest, r.visits inner depth d o = s :: rest ∧ s.node.id = o.start.node ∧
      ((r.executorOf inner depth o).traverseGraph d.graph o.start o.record.context (some o.record)).Passes o.world
        s.entered ∧
      s.entered.repository = o.world.repository ∧
      s.entered.bus = o.world.bus.publish (.nodeStarted o.record.id d.graph.name o.start.node) := by
  obtain ⟨s, rest, hvisits⟩ :=
    List.exists_cons_of_ne_nil ((r.course_of_visits inner depth d o).ne_nil hstart hroom)
  obtain ⟨-, -, -, hnode, started, henter, -⟩ := Executor.trail_eq_cons hvisits
  have hid : s.node.id = o.start.node := Graph.id_of_node? hnode
  have hpasses := Executor.passes_entered hvisits
  obtain ⟨live, hphase⟩ := Executor.run_setPhase (r.executorOf inner depth o) (some o.record) .pending none o.world
  rw [hphase] at hpasses henter
  obtain ⟨live', hentered⟩ := Executor.run_enter (r.executorOf inner depth o) d.graph s.node (some o.record)
    { o.world with live }
  obtain ⟨-, hworld⟩ := Prod.mk.inj (hentered.symm.trans henter)
  refine ⟨s, rest, hvisits, hid, .bind_right hphase hpasses, ?_⟩
  rw [← hworld, ← hid]
  exact ⟨rfl, rfl⟩

theorem head_visits (r : Runner σ) (inner : Run σ) (depth : Nat) (o : Opened σ)
    (hstart : d.graph.contains o.start.node = true) (hroom : 1 ≤ r.config.maxNodeVisits) :
    (r.visits inner depth d o).head?.map (·.node.id) = some o.start.node := by
  obtain ⟨s, rest, hvisits, hid, -⟩ := r.exists_first_visit inner depth o hstart hroom
  rw [hvisits, List.head?_cons, Option.map_some, hid]

/-- A run opens an attempt and goes on with it at a node. -/
structure GoesOn (r : Runner σ) (inner : Run σ) (depth : Nat) (d : Definition) (o : Opened σ) (node : String)
    (run : Act σ (Except JobError Report)) (w : World σ) : Prop where
  stored : ∃ w₁, run.Passes w w₁ ∧ w₁.repository.append o.record = (.ok (), o.world.repository)
  /-- It comes to what its attempt comes to. -/
  comes : (run.run w).1 = reported (((r.executorOf inner depth o).execute d.graph o.start o.record).run o.world).1
  /-- The node is the first that it enters. -/
  enters : 1 ≤ r.config.maxNodeVisits → ∃ s rest, r.visits inner depth d o = s :: rest ∧ s.node.id = node ∧
    run.Passes w s.entered ∧ s.entered.repository = o.world.repository ∧
    s.entered.bus = o.world.bus.publish (.nodeStarted o.record.id d.graph.name node)

end Runner

/-! ## The next attempt -/

/-- An attempt that failed or stopped records a node of its graph to begin again at. -/
theorem Attempt.Of.exists_restart {a : Attempt σ} (h : a.Of d parameters) (hd : d.graph.Valid)
    (hend : a.record.finalStatus = some .failed ∨ a.record.finalStatus = some .stopped) :
    ∃ node, a.record.restartNode = some node ∧ d.graph.contains node = true := by
  obtain ⟨t, kept, w₁, now, htraverse, hrecord⟩ := Runner.closed_of_sealed h.opened h.sealed
  have hcourse := a.runner.course_of_visits a.inner a.depth d a.opened
  rw [htraverse] at hcourse
  obtain ⟨status, exit, restart, failure, ht⟩ := hcourse.finished rfl
  have hstatus : a.record.finalStatus = some status := by rw [hrecord, ht]; rfl
  have hrestart : a.record.restartNode = some restart := by
    have hopen : status.isRestartable = true := by
      rw [hstatus] at hend
      rcases hend with ⟨⟨⟩⟩ | ⟨⟨⟩⟩ <;> rfl
    rw [hrecord, ht]
    simp [Record.closed, Executor.ending, Progress.finish, hopen]
  refine ⟨restart, hrestart, hcourse.contains_restart rfl (fun id n hn t ht target htarget =>
    hd.contains_target hn ht htarget) ?_⟩
  rwa [hrecord] at hrestart

/-- A world in which the job of an instance is to be run again, its latest attempt being
    one that failed or stopped: no other run of the instance is under way, and the calls
    that opening an attempt takes reach the store. -/
structure Resumable (d : Definition) (parameters : Parameters) (a : Attempt σ) (latest : Record) (w : World σ) : Prop
    where
  restartable : d.restartable = true
  /-- The attempt was one of this job, under parameters of which some may differ. -/
  ran : ∃ given, a.Of d given
  /-- The latest record of the history, which is what the attempt sealed as the store gives
      it back. -/
  found : w.repository.store.latest? (InstanceId.derive d.name parameters) = .ok (some latest)
  kept : w.repository.store.readBack a.record = .ok latest
  fallen : a.record.finalStatus = some .failed ∨ a.record.finalStatus = some .stopped
  number : a.record.attempt < Text.maxU32
  reached : Reached w
  ids : w.clock.issued < ExecutionId.room
  free : w.running.contains (InstanceId.derive d.name parameters).text = false
  loads : w.repository.Reaches .loadLatest
  opens : w.repository.Reaches .append

/-- The next attempt of an instance is opened where the latest one says. -/
theorem Resumable.exists_opened {a : Attempt σ} {latest : Record} {w : World σ} (h : Resumable d parameters a latest w)
    (hd : d.graph.Valid) :
    ∃ o node, Runner.opened? d parameters w = some o ∧ o.record.attempt = a.record.attempt + 1 ∧
      o.record.context = latest.context ∧ a.record.restartNode = some node ∧ d.graph.contains node = true ∧
      o.start.node = node := by
  obtain ⟨given, hof⟩ := h.ran
  obtain ⟨node, hnode, hcontains⟩ := hof.exists_restart hd h.fallen
  obtain ⟨hattempt, hstatus, hrestart⟩ := Store.end_of_readBack h.kept
  have hbegin : StartPoint.restartNode d.graph latest = node := by
    rw [StartPoint.restartNode, hrestart, hnode]
    rfl
  have hpoint : StartPoint.resolve (some latest) d.graph d.restartable = .ok (StartPoint.resumed d.graph latest) := by
    refine StartPoint.resolve_eq_ok_iff.mpr ⟨?_, h.restartable, ?_, ?_, rfl⟩
    · rw [hstatus]
      exact h.fallen
    · rw [hbegin]
      exact hcontains
    · rw [hattempt]
      exact h.number
  have hguarded : On (Guarded w.core.faults []) w :=
    ⟨rfl, by simp, fun hids => ⟨sound_of_reached h.reached hids, by simp⟩⟩
  obtain ⟨o, ho, hstart, ⟨fresh, now, hrecord⟩, -⟩ :=
    Runner.opened_of_resolve hguarded h.loads h.opens h.ids h.free h.found hpoint
  refine ⟨o, node, ho, ?_, ?_, hnode, hcontains, ?_⟩
  · rw [hrecord, ← hattempt]
    rfl
  · rw [hrecord]
    rfl
  · rw [hstart]
    exact hbegin

namespace Loading

def units : Units Nat :=
  { step := fun _ => some fun b calls =>
      .finish (calls + 1) (.result
        (if b.attempt = 1 then
          { status := .failed, exit := Exit.failed, updates := Dict.empty.insert "rows" (.int 3) }
         else { status := .completed, exit := Exit.completed }))
    decider := fun _ => none }

def load : Task Nat :=
  { runner := { config := {}, units }
    job := "load"
    definition := { graph := ⟨"load", "copy", [⟨"copy", .step "copy", []⟩]⟩ }
    parameters := Dict.empty }

def first : World Nat :=
  { repository := { store := .table Table.empty }
    jobs := Dict.empty.insert "load" load.definition
    bus := Bus.ofCapacity 4
    clock := { origin := Instant.ofSeconds 0 0 }
    memory := 0 }

def second : World Nat :=
  { first with
    repository :=
      { store := (load.after first).repository.store
        faults := fun m n => if m = .append ∧ 1 < n then some .connection else none }
    clock := { origin := Instant.ofSeconds 0 0, issued := (load.after first).clock.issued } }

def findings (a : Attempt Nat) : Option Status × Nat × Option String × Option (Option String) :=
  (a.record.finalStatus, a.record.attempt, a.record.restartNode,
    match second.repository.store.readBack a.record with
    | .ok latest => some (Context.text? latest.context "rows")
    | .error _ => none)

end Loading

end Switchyard
