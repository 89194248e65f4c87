import Switchyard.Engine.Runner
import Switchyard.Proofs.Engine.Course
import Switchyard.Proofs.Flow.Start

/-
  Switchyard.Proofs.Engine.Attempt — one attempt of a run, from its opening to its seal.

  `opened?` is the attempt that a run opens in a world: where it begins, its first
  record, its token and the world in which its graph is entered. From there on the run
  is a traversal and a seal.

  - `opened?_eq_some`: how an attempt is opened, step by step.
  - `start_of_opened`: an attempt begins where the latest record says.
  - `run_execute`, `closed_of_sealed`: an attempt that seals a record seals what its
    traversal came to (`Record.closed`).
  - `run_of_opened`, `passes_of_opened`: a run that opens an attempt reports what the attempt
    seals, and comes through what its traversal comes through.
-/

namespace Switchyard

variable {σ : Type}

/-- An attempt begins at a node of its job's graph, whatever record it takes up. -/
theorem StartPoint.contains_of_resolve {g : Graph} (hg : g.Valid) {latest : Option Record} {restartable : Bool}
    {point : StartPoint} (h : resolve latest g restartable = .ok point) : g.contains point.start.node = true := by
  have hresolve := resolve_eq_ok_iff.mp h
  cases latest with
  | none =>
    rw [hresolve]
    exact hg.contains_entry
  | some r =>
    obtain ⟨-, -, hcontains, -, rfl⟩ := hresolve
    exact hcontains

/-! ## The record of an attempt -/

namespace Record

def closed (r : Record) (t : Traversal) (now : Instant) : Record :=
  { r with
    completed := t.outcome.completed
    lastNode := t.outcome.lastNode
    lastExit := t.outcome.lastExit
    finalStatus := some t.outcome.status
    finalExit := some t.outcome.exit
    restartNode := t.outcome.restartNode
    failure := t.outcome.failure
    branches := t.outcome.splits
    context := t.context
    ended := some now }

/-- The same attempt, with other nodes finished. -/
def Continues (r first : Record) : Prop :=
  { r with
    completed := first.completed
    lastNode := first.lastNode
    lastExit := first.lastExit
    branches := first.branches
    context := first.context } = first

theorem Continues.refl (r : Record) : r.Continues r := rfl

theorem Continues.id_eq {r first : Record} (h : r.Continues first) : r.id = first.id := by
  have := congrArg Record.id h
  exact this

theorem Continues.noted {r first : Record} (p : Progress) (o : NodeOutcome) (h : r.Continues first) :
    (Executor.noted r p o).Continues first := by
  unfold Continues Executor.noted note at *
  split <;> exact h

theorem Continues.sealWith {r first : Record} (h : r.Continues first) (hfirst : first.finalStatus = none)
    (t : Traversal) (now : Instant) :
    ({ r with context := t.context }.sealWith? t.outcome now).getD { r with context := t.context } =
      first.closed t now := by
  have hopen : r.finalStatus = none := by
    have := congrArg Record.finalStatus h
    exact this.trans hfirst
  have hnot : ({ r with context := t.context } : Record).isSealed = false := by simp [isSealed, hopen]
  rw [sealWith?, hnot]
  unfold Continues at h
  rw [← h]
  rfl

end Record

/-! ## Execution -/

namespace Executor

variable {ex : Executor σ} {g : Graph} {start : FlowStart} {first : Record} {w w' : World σ}

theorem continues_of_traverse {walk : BranchWalk σ} {context : Context} {x : Except FlowError Traversal}
    {kept : Option Record}
    (h : ((ex.traverse walk g start context (some first)).run w).1 = .ok (x, kept)) :
    (kept.getD first).Continues first := by
  have hkept := (course_of_traverse ex walk g start context (some first) w).record_kept
    (fun r p o hr => Record.Continues.noted p o hr) (R := (·.Continues first))
    (by rintro _ ⟨⟩; exact .refl first) h
  cases kept with
  | none => exact .refl first
  | some r => exact hkept r rfl

def closing (first : Record) (t : Traversal) : Act σ (Except FlowError FlowOutcome × Record) := do
  let now ← Act.now
  match ← Checkpoint.sealed (first.closed t now) with
  | .ok () => return (.ok t.outcome, first.closed t now)
  | .error e => return (.error (.checkpoint e), first.closed t now)

/-- What follows a traversal that came to an end. -/
theorem closing_eq {kept : Option Record} (hfirst : first.finalStatus = none)
    (hcontinues : (kept.getD first).Continues first) (t : Traversal) :
    (do
      let r := { kept.getD first with context := t.context }
      let now ← Act.now
      let r := (r.sealWith? t.outcome now).getD r
      match ← Checkpoint.sealed r with
      | .ok () => return (.ok t.outcome, r)
      | .error e => return (.error (.checkpoint e), r)) = (closing first t : Act σ _) :=
  bind_congr fun now => hcontinues.sealWith hfirst t now ▸ rfl

theorem run_execute (hfirst : first.finalStatus = none) {t : Traversal} {kept : Option Record}
    (h : (ex.traverseGraph g start first.context (some first)).run w = (.ok (.ok t, kept), w')) :
    (ex.execute g start first).run w = (closing first t).run w' := by
  have hcontinues : (kept.getD first).Continues first := continues_of_traverse (congrArg Prod.fst h)
  rw [execute, Act.run_bind_ok h]
  exact congrArg (fun x : Act σ _ => x.run w') (closing_eq hfirst hcontinues t)

/-- An attempt comes through what storing its sealed record comes through. -/
theorem passes_execute (hfirst : first.finalStatus = none) {t : Traversal} {kept : Option Record} {w'' : World σ}
    (h : (ex.traverseGraph g start first.context (some first)).run w = (.ok (.ok t, kept), w'))
    (hclosing : (closing first t).Passes w' w'') : (ex.execute g start first).Passes w w'' := by
  have hcontinues : (kept.getD first).Continues first := continues_of_traverse (congrArg Prod.fst h)
  rw [← closing_eq hfirst hcontinues t] at hclosing
  exact .bind_right h hclosing

theorem execute_eq_ok (hfirst : first.finalStatus = none) {o : FlowOutcome} {sealed : Record}
    (h : (ex.execute g start first).run w = (.ok (.ok o, sealed), w')) :
    ∃ t kept w₁ now, (ex.traverseGraph g start first.context (some first)).run w = (.ok (.ok t, kept), w₁) ∧
      o = t.outcome ∧ sealed = first.closed t now := by
  obtain ⟨⟨x, kept⟩, w₁, htraverse, hrest⟩ := Act.run_bind_eq_ok h
  cases x with
  | error e => cases hrest
  | ok t =>
    rw [run_execute hfirst htraverse] at h
    obtain ⟨now, w₂, -, h⟩ := Act.run_bind_eq_ok h
    obtain ⟨y, w₃, -, h⟩ := Act.run_bind_eq_ok h
    rcases y with e | u
    · cases h
    · cases h
      exact ⟨t, kept, w₁, now, htraverse, rfl, rfl⟩

end Executor

/-! ## Opening -/

structure Opened (σ : Type) where
  start : FlowStart
  record : Record
  token : Token
  /-- The world in which the graph is entered. -/
  world : World σ

namespace Runner

/-- The attempt that a run of a job opens in a world, if it opens one. -/
def opened? (d : Definition) (parameters : Parameters) (w : World σ) : Option (Opened σ) :=
  match (claim? (InstanceId.derive d.name parameters)).run w with
  | (.ok (some t), claimed) =>
    match (begin? d (InstanceId.derive d.name parameters) parameters).run claimed with
    | (.ok (.ok (start, record)), begun) =>
      some
        { start
          record
          token := t
          world := ((Act.publish (.jobStarted record.id record.instanceId record.job record.attempt start.node)).run
            begun).2 }
    | _ => none
  | _ => none

def executorOf (r : Runner σ) (inner : Run σ) (depth : Nat) (o : Opened σ) : Executor σ :=
  r.executor inner o.record depth o.token

def visits (r : Runner σ) (inner : Run σ) (depth : Nat) (d : Definition) (o : Opened σ) :
    List (Executor.Stage σ) :=
  (r.executorOf inner depth o).stages ((r.executorOf inner depth o).walkBranch d.graph.nesting) d.graph o.start
    o.record.context (some o.record) o.world

/-- The record that an attempt seals, if its flow comes to an outcome and that can be
    stored. -/
def sealed? (r : Runner σ) (inner : Run σ) (depth : Nat) (d : Definition) (o : Opened σ) : Option Record :=
  match ((r.executorOf inner depth o).execute d.graph o.start o.record).run o.world with
  | (.ok (.ok _, record), _) => some record
  | _ => none

theorem course_of_visits (r : Runner σ) (inner : Run σ) (depth : Nat) (d : Definition) (o : Opened σ) :
    Executor.Course (r.executorOf inner depth o) d.graph r.config.maxNodeVisits
      (Executor.Position.start d.graph o.start o.record.context (some o.record)) (r.visits inner depth d o)
      (((r.executorOf inner depth o).traverseGraph d.graph o.start o.record.context (some o.record)).run o.world).1
      (((r.executorOf inner depth o).traverseGraph d.graph o.start o.record.context (some o.record)).run o.world).2 :=
  Executor.course_of_traverse (r.executorOf inner depth o) _ d.graph o.start o.record.context (some o.record) o.world

variable {d : Definition} {parameters : Parameters} {w : World σ} {o : Opened σ}

theorem appended_of_openAttempt {record : Record} {u : Unit} {w' : World σ}
    (h : (Checkpoint.openAttempt record).run w = (.ok (.ok u), w')) :
    w.repository.append record = (.ok (), w'.repository) := by
  simp only [Checkpoint.openAttempt, Checkpoint.persist, Act.append, Act.call, Act.run_bind, Act.run_update] at h
  generalize w.repository.append record = appended at h
  obtain ⟨(e | _) | _, repository⟩ := appended <;> cases h
  rfl

theorem begin?_eq_ok {id : InstanceId} {start : FlowStart} {record : Record} {w' : World σ}
    (h : (begin? d id parameters).run w = (.ok (.ok (start, record)), w')) :
    ∃ latest point fresh now, w.repository.store.latest? id = .ok latest ∧
      StartPoint.resolve latest d.graph d.restartable = .ok point ∧ start = point.start ∧
      record = Record.start fresh now id d.name point.attempt parameters point.context ∧
      ∃ w₁, (begin? d id parameters).Passes w w₁ ∧ w₁.repository.append record = (.ok (), w'.repository) := by
  rw [begin?]
  obtain ⟨latest, w₁, hload, h⟩ := Act.run_bind_eq_ok h
  have hlatest : latest = (w.repository.loadLatest id).1 := (Except.ok.inj (congrArg Prod.fst hload)).symm
  simp only [Repository.loadLatest, Repository.call] at hlatest
  cases hfault : w.repository.faults .loadLatest (w.repository.counts.next .loadLatest).1 with
  | some e =>
    rw [hfault] at hlatest
    subst hlatest
    cases h
  | none =>
    rw [hfault] at hlatest
    dsimp only at hlatest
    cases latest with
    | error e => cases h
    | ok latest =>
      dsimp only at h
      cases hresolve : StartPoint.resolve latest d.graph d.restartable with
      | error e =>
        rw [hresolve] at h
        cases e <;> cases h
      | ok point =>
        rw [hresolve] at h
        obtain ⟨fresh, w₂, hfresh, h⟩ := Act.run_bind_eq_ok h
        obtain ⟨now, w₃, hnow, h⟩ := Act.run_bind_eq_ok h
        obtain ⟨x, w₄, hopen, h⟩ := Act.run_bind_eq_ok h
        rcases x with e | u
        · cases h
        · cases h
          refine ⟨latest, point, fresh, now, hlatest.symm, hresolve, rfl, rfl, w₃, ?_, appended_of_openAttempt hopen⟩
          refine .bind_right hload ?_
          simp only [hresolve]
          exact .bind_right hfresh (.bind_right hnow (.start _ _))

/-- While others act an attempt is opened where some record says, or is refused for what is
    no fault of its flow. -/
theorem yields_begin? {id : InstanceId} {x : Except JobError (FlowStart × Record)}
    (h : (begin? d id parameters : Act σ _).Yields x) :
    (∃ latest point fresh now, StartPoint.resolve latest d.graph d.restartable = .ok point ∧
      x = .ok (point.start, Record.start fresh now id d.name point.attempt parameters point.context)) ∨
    ∃ e, x = .error e ∧ ∀ fault, e ≠ .flow fault := by
  obtain ⟨latest, -, h⟩ := Act.yields_bind h
  rcases latest with e | latest
  · exact Or.inr ⟨_, Act.yields_pure h, nofun⟩
  simp only at h
  split at h
  next e _ =>
    refine Or.inr ?_
    unfold refuse at h
    split at h
    · cases Act.not_yields_broken h
    · exact ⟨_, Act.yields_pure h, nofun⟩
  next point hpoint =>
    obtain ⟨fresh, -, h⟩ := Act.yields_bind h
    obtain ⟨now, -, h⟩ := Act.yields_bind h
    obtain ⟨stored, -, h⟩ := Act.yields_bind h
    rcases stored with e | u
    · exact Or.inr ⟨_, Act.yields_pure h, nofun⟩
    · exact Or.inl ⟨latest, point, fresh, now, hpoint, Act.yields_pure h⟩

theorem repository_of_claim {id : InstanceId} {t : Option Token} {claimed : World σ}
    (h : (claim? id).run w = (.ok t, claimed)) : claimed.repository = w.repository := by
  simp only [claim?, Act.run_update] at h
  split at h <;> cases h <;> rfl

/-- To open an attempt is to claim its instance, to begin it and to tell that it started. -/
theorem opened?_eq_some (h : opened? d parameters w = some o) :
    ∃ claimed begun, (claim? (InstanceId.derive d.name parameters)).run w = (.ok (some o.token), claimed) ∧
      (begin? d (InstanceId.derive d.name parameters) parameters).run claimed = (.ok (.ok (o.start, o.record)), begun) ∧
      o.world = ((Act.publish (.jobStarted o.record.id o.record.instanceId o.record.job o.record.attempt
        o.start.node)).run begun).2 := by
  simp only [opened?] at h
  split at h
  next t claimed hclaim =>
    split at h
    next start record begun hbegin =>
      cases h
      exact ⟨claimed, begun, hclaim, hbegin, rfl⟩
    · cases h
  · cases h

theorem start_of_opened (h : opened? d parameters w = some o) :
    ∃ latest point fresh now, w.repository.store.latest? (InstanceId.derive d.name parameters) = .ok latest ∧
      StartPoint.resolve latest d.graph d.restartable = .ok point ∧ o.start = point.start ∧
      o.record =
        Record.start fresh now (InstanceId.derive d.name parameters) d.name point.attempt parameters point.context := by
  obtain ⟨claimed, begun, hclaim, hbegin, -⟩ := opened?_eq_some h
  obtain ⟨latest, point, fresh, now, hlatest, hresolve, hstart, hrecord, -⟩ := begin?_eq_ok hbegin
  rw [repository_of_claim hclaim] at hlatest
  exact ⟨latest, point, fresh, now, hlatest, hresolve, hstart, hrecord⟩

/-- An attempt that is opened begins at a node of its job's graph. -/
theorem contains_of_opened (hd : d.graph.Valid) (h : opened? d parameters w = some o) :
    d.graph.contains o.start.node = true := by
  obtain ⟨latest, point, -, -, -, hpoint, hstart, -⟩ := start_of_opened h
  rw [hstart]
  exact StartPoint.contains_of_resolve hd hpoint

theorem not_sealed_of_opened (h : opened? d parameters w = some o) : o.record.finalStatus = none := by
  obtain ⟨latest, point, fresh, now, -, -, -, hrecord⟩ := start_of_opened h
  rw [hrecord]
  rfl

/-- What an attempt seals is what its traversal came to. -/
theorem closed_of_sealed {r : Runner σ} {inner : Run σ} {depth : Nat} {rec : Record}
    (ho : opened? d parameters w = some o) (h : r.sealed? inner depth d o = some rec) :
    ∃ t kept w₁ now,
      ((r.executorOf inner depth o).traverseGraph d.graph o.start o.record.context (some o.record)).run o.world =
        (.ok (.ok t, kept), w₁) ∧ rec = o.record.closed t now := by
  simp only [sealed?] at h
  split at h
  next outcome record w' hexecute =>
    cases h
    obtain ⟨t, kept, w₁, now, htraverse, -, hrec⟩ := Executor.execute_eq_ok (not_sealed_of_opened ho) hexecute
    exact ⟨t, kept, w₁, now, htraverse, hrec⟩
  · cases h

def reported : Except Halt (Except FlowError FlowOutcome × Record) → Except Halt (Except JobError Report)
  | .ok (.ok outcome, record) =>
    .ok (.ok { instanceId := record.instanceId, status := outcome.status, exit := outcome.exit, record })
  | .ok (.error e, _) => .ok (.error (.flow e))
  | .error h => .error h

theorem run_of_opened (r : Runner σ) (inner : Run σ) (depth : Nat) {job : String} (hjob : w.jobs.get? job = some d)
    (ho : opened? d parameters w = some o) :
    ∃ w', (r.runOver inner depth job parameters).run w =
        (reported (((r.executorOf inner depth o).execute d.graph o.start o.record).run o.world).1, w') ∧
      w'.repository = (((r.executorOf inner depth o).execute d.graph o.start o.record).run o.world).2.repository ∧
      w'.clock = (((r.executorOf inner depth o).execute d.graph o.start o.record).run o.world).2.clock := by
  obtain ⟨claimed, begun, hclaim, hbegin, hworld⟩ := opened?_eq_some ho
  rw [hworld]
  simp only [runOver, job?, Act.run_bind, Act.run_find, hjob, hclaim, releasing, Act.run_attempt, attemptOver, hbegin,
    drive, Act.publish, Act.run_change, Act.waited, executorOf]
  generalize hexecute : (Executor.execute _ _ _ _).run _ = result
  obtain ⟨x, w'⟩ := result
  rcases x with h | ⟨e | outcome, sealed⟩ <;> exact ⟨_, rfl, rfl, rfl⟩

/-- A run comes through whatever is done under its claim. -/
theorem passes_of_attemptOver (r : Runner σ) (inner : Run σ) (depth : Nat) {job : String}
    (hjob : w.jobs.get? job = some d) {t : Token} {claimed w' : World σ}
    (hclaim : (claim? (InstanceId.derive d.name parameters)).run w = (.ok (some t), claimed))
    (h : (r.attemptOver inner d (InstanceId.derive d.name parameters) depth t parameters).Passes claimed w') :
    (r.runOver inner depth job parameters).Passes w w' := by
  refine .bind_right (Act.run_find _ _) ?_
  rw [hjob]
  exact .bind_right hclaim (.bind_left (.attempt h) _)

/-- A run comes through whatever its attempt comes through. -/
theorem passes_of_execute (r : Runner σ) (inner : Run σ) (depth : Nat) {job : String} (hjob : w.jobs.get? job = some d)
    (ho : opened? d parameters w = some o) {w' : World σ}
    (h : ((r.executorOf inner depth o).execute d.graph o.start o.record).Passes o.world w') :
    (r.runOver inner depth job parameters).Passes w w' := by
  obtain ⟨claimed, begun, hclaim, hbegin, hworld⟩ := opened?_eq_some ho
  rw [hworld] at h
  exact passes_of_attemptOver r inner depth hjob hclaim (.bind_right hbegin (.step (.step (.bind_left h _))))

/-- A run comes through whatever the traversal of its attempt comes through. -/
theorem passes_of_opened (r : Runner σ) (inner : Run σ) (depth : Nat) {job : String} (hjob : w.jobs.get? job = some d)
    (ho : opened? d parameters w = some o) {w' : World σ}
    (h : ((r.executorOf inner depth o).traverseGraph d.graph o.start o.record.context (some o.record)).Passes o.world w') :
    (r.runOver inner depth job parameters).Passes w w' :=
  passes_of_execute r inner depth hjob ho (.bind_left h _)

end Runner

end Switchyard
