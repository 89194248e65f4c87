import Switchyard.Proofs.Engine.Refused
import Switchyard.Proofs.Store.Row

/-
  Switchyard.Proofs.Engine.Reported — what a run reports is what is stored and what is told.

  A run that reports has sealed its attempt: what its traversal came to is the status and the
  exit of the record it stores (`Record.closed`), and nobody else stores a record of the
  instance while it is claimed. Whatever is told in the meantime is told of the attempt's
  nodes and of attempts of other instances, for the same reason; so the end of the instance
  is told once, with the run's last step (`Unended`).

  - `run_eq_report`: how a run came to its report, step by step.
  - `latest_of_closing`: a record that was sealed is the latest one of its instance.
  - `refused_or_reported`: a run is refused and has no effect, or fails in its flow, or has
    its report stored and told.
-/

namespace Switchyard

variable {σ : Type} {w w' : World σ} {id : InstanceId} {t : Token} {b : Bus Event}

def Event.ended? : Event → Option InstanceId
  | .jobFinished _ id .. => some id
  | .jobStarted .. | .nodeStarted .. | .nodeFinished .. => none

theorem Event.mem_instanceId?_of_ended {e : Event} (h : e.ended? = some id) : id ∈ e.instanceId? := by
  cases e with
  | jobFinished => exact h
  | jobStarted | nodeStarted | nodeFinished => cases h

theorem Store.Latest.latest?_eq {s : Store} {r : Record} (h : s.Latest id r)
    (hr : (∃ shelf, s = .shelf shelf) ∨ r.Legible) : s.latest? id = .ok (some r) := by
  have hback : s.readBack r = .ok r := by
    cases s with
    | shelf l => rfl
    | table t =>
      rcases hr with ⟨l, hl⟩ | hr
      · cases hl
      · exact Row.toRecord_ofRecord hr
  rw [h.read, hback]
  rfl

/-! ## Nothing is told of the end of a claimed instance -/

/-- The instance is claimed, and of what was told since the channel was like this nothing
    was its end. -/
structure Unended (id : InstanceId) (t : Token) (b : Bus Event) (w : World σ) : Prop where
  claimed : w.running.get? id.text = some t
  told : ∃ told : List Event, w.bus = told.foldl Bus.publish b ∧ ∀ e ∈ told, e.ended? ≠ some id

namespace Unended

theorem start (h : w.running.get? id.text = some t) : Unended id t w.bus w := ⟨h, [], rfl, by simp⟩

theorem of_eq (h : Unended id t b w) (hrunning : w'.running = w.running) (hbus : w'.bus = w.bus) : Unended id t b w' :=
  ⟨by rw [hrunning]; exact h.claimed, by rw [hbus]; exact h.told⟩

theorem publish (h : Unended id t b w) {e : Event} (he : e.ended? ≠ some id) :
    Unended id t b { w with bus := w.bus.publish e } := by
  obtain ⟨told, hbus, htold⟩ := h.told
  refine ⟨h.claimed, told ++ [e], ?_, List.forall_mem_append.mpr ⟨htold, by simpa using he⟩⟩
  rw [List.foldl_append, ← hbus]
  rfl

theorem claiming (h : Unended id t b w) {other : InstanceId} (hne : other ≠ id) :
    Unended id t b (w.claiming other) := ⟨(w.running_claiming hne).trans h.claimed, h.told⟩

theorem releasing (h : Unended id t b w) {other : InstanceId} (hne : other ≠ id) :
    Unended id t b (w.releasing other) := ⟨(w.running_releasing hne).trans h.claimed, h.told⟩

end Unended

def unending (id : InstanceId) (t : Token) (b : Bus Event) : Manner σ :=
  { Has := fun x => x.Keeps (Unended id t b)
    pure := fun _ => .pure
    broken := fun _ => .broken
    quiet := fun h => .update fun w hw => hw.of_eq (congrArg Core.running (h w).1) (h w).2.1
    status := fun _ _ => .change fun _ hw => hw.of_eq rfl rfl
    bind := fun hx hg => .bind_yields hx hg
    attempt := fun hx => hx.attempt }

theorem storing_unending : (unending id t b : Manner σ).Storing :=
  ⟨fun _ => .update fun _ hw => hw.of_eq rfl rfl, .update fun _ hw => hw.of_eq rfl rfl⟩

theorem showing_unending (other : InstanceId) : (unending id t b : Manner σ).Showing other :=
  fun _ _ => .change fun _ hw => hw.of_eq rfl rfl

theorem unending_publish {e : Event} (he : e.ended? ≠ some id) :
    (unending id t b).Has (Act.publish e : Act σ Unit) := .change fun _ hw => hw.publish he

theorem unending_run (r : Runner σ) (levels depth : Nat) (job : String) (parameters : Parameters) :
    (unending id t b).Has (r.run levels depth job parameters) := by
  induction levels generalizing depth job parameters with
  | zero => exact .broken
  | succ levels ih =>
    refine Runner.keeps_runOver_of_claimed (fun _ hw => hw.claimed) (fun _ _ hne hw => hw.claiming hne)
      (fun _ _ hne hw => hw.releasing hne) (fun d other depth token parameters hne => ?_) depth job parameters
    refine storing_unending.attemptOver (showing_unending other) ih (fun e he => unending_publish fun hended => ?_) d
      depth token parameters
    exact hne (he id (Event.mem_instanceId?_of_ended hended)).symm

/-! ## The seal -/

theorem append_of_sealed {r : Record} (h : (Checkpoint.sealed r).run w = (.ok (.ok ()), w')) :
    (w.repository.append r).1 = .ok () ∧ w'.repository = (w.repository.append r).2 := by
  simp only [Checkpoint.sealed, Checkpoint.persist, Act.append, Act.call, Act.run_bind, Act.run_update] at h
  generalize w.repository.append r = appended at h
  obtain ⟨(e | _) | u, repository⟩ := appended
  · cases h
  · cases h
  · cases h
    exact ⟨rfl, rfl⟩

namespace Executor

variable {ex : Executor σ} {g : Graph} {start : FlowStart} {first sealed : Record} {o : FlowOutcome}
  {faults : Method → Nat → Option StoreError} {holds : List Hold}

/-- A record that was sealed is the latest one of its instance. -/
theorem latest_of_closing {trav : Traversal}
    (hw : On (Guarded faults (.ofLine first.instanceId t (Line.ofRecord first) :: holds)) w)
    (hids : w.clock.issued ≤ ExecutionId.room) (h : (closing first trav).run w = (.ok (.ok o, sealed), w')) :
    w'.repository.store.Latest first.instanceId sealed := by
  obtain ⟨now, w₁, hnow, h⟩ := Act.run_bind_eq_ok h
  obtain ⟨x, w₂, hsealed, h⟩ := Act.run_bind_eq_ok h
  rcases x with e | u
  · cases h
  cases h
  obtain ⟨hok, hrepository⟩ := append_of_sealed hsealed
  obtain ⟨happend, -⟩ := Repository.append_of_ok hok
  obtain ⟨s', happend', x, hlast, hof⟩ := append_closed hw hids trav now
  have hcore : w₁.core = w.core := by cases hnow; rfl
  rw [show w₁.repository.store = w.core.store from congrArg Core.store hcore] at happend
  obtain rfl : s' = (w₁.repository.append (first.closed trav now)).2.store :=
    Except.ok.inj (happend'.symm.trans happend)
  rw [hrepository]
  exact ⟨⟨x, hlast, hof⟩, Store.latest?_of_getLast? hlast hof⟩

/-- What an attempt comes to is sealed as the latest record of its instance. -/
theorem latest_of_execute
    (hex : ex.Closed (keeping (Guarded faults [.ofLine first.instanceId t (Line.ofRecord first)])))
    (hw : On (Guarded faults [.ofLine first.instanceId t (Line.ofRecord first)]) w) (hfirst : first.finalStatus = none)
    (h : (ex.execute g start first).run w = (.ok (.ok o, sealed), w')) :
    sealed.instanceId = first.instanceId ∧ sealed.finalStatus = some o.status ∧ sealed.finalExit = some o.exit ∧
      (w'.clock.issued ≤ ExecutionId.room → w'.repository.store.Latest first.instanceId sealed) := by
  obtain ⟨trav, kept, w₁, now, htraverse, rfl, rfl⟩ := execute_eq_ok hfirst h
  refine ⟨rfl, rfl, rfl, fun hids => ?_⟩
  have hissued : w'.clock.issued = w₁.clock.issued := by
    have hissued : ((ex.execute g start first).run w).2.clock.issued =
        ((ex.traverseGraph g start first.context (some first)).run w).2.clock.issued := issued_execute w
    rwa [h, htraverse] at hissued
  -- the attempt's line is the last one of its instance when the traversal is over
  have hkeeps : (ex.traverseGraph g start first.context (some first)).Keeps
      (On (Guarded faults [.ofLine first.instanceId t (Line.ofRecord first)])) :=
    has_traverseGraph hex (storable ex rfl (by simp)) g start first.context (by simp)
  have hwalked := hkeeps.run hw
  rw [htraverse] at hwalked
  rw [run_execute hfirst htraverse] at h
  rw [hissued] at hids
  exact latest_of_closing hwalked hids h

end Executor

/-! ## Runs -/

namespace Runner

variable {r : Runner σ} {inner : Run σ} {depth : Nat} {job : String} {d : Definition} {parameters : Parameters}
  {report : Report}

/-- How an attempt under way comes to its report. -/
theorem drive_eq_report {start : FlowStart} {record : Record}
    (h : (r.drive inner d start record depth t).run w = (.ok (.ok report), w')) :
    ∃ outcome sealed done millis,
      ((r.executor inner record depth t).execute d.graph start record).run ((Act.publish (.jobStarted record.id
        record.instanceId record.job record.attempt start.node)).run w).2 = (.ok (.ok outcome, sealed), done) ∧
      report = { instanceId := sealed.instanceId, status := outcome.status, exit := outcome.exit, record := sealed } ∧
      w' = { done with bus := done.bus.publish (.jobFinished sealed.id sealed.instanceId sealed.job outcome.status
        outcome.exit millis) } := by
  obtain ⟨_, w₁, htold, h⟩ := Act.run_bind_eq_ok h
  obtain ⟨before, w₂, hbefore, h⟩ := Act.run_bind_eq_ok h
  obtain ⟨⟨x, sealed⟩, done, hexecute, h⟩ := Act.run_bind_eq_ok h
  cases htold
  cases hbefore
  cases x with
  | error e => cases h
  | ok outcome =>
    cases h
    exact ⟨outcome, sealed, done, _, hexecute, rfl, rfl⟩

/-- How a run came to its report: it opened an attempt, which was sealed, and told its end. -/
theorem run_eq_report (h : (r.runOver inner depth job parameters).run w = (.ok (.ok report), w')) :
    ∃ d o outcome sealed done millis, w.jobs.get? job = some d ∧ opened? d parameters w = some o ∧
      ((r.executorOf inner depth o).execute d.graph o.start o.record).run o.world = (.ok (.ok outcome, sealed), done) ∧
      report = { instanceId := sealed.instanceId, status := outcome.status, exit := outcome.exit, record := sealed } ∧
      w' = { done with bus := done.bus.publish (.jobFinished sealed.id sealed.instanceId sealed.job outcome.status
        outcome.exit millis) }.releasing (InstanceId.derive d.name parameters) := by
  cases hjob : w.jobs.get? job with
  | none =>
    simp only [runOver, job?, Act.run_bind, Act.run_find, hjob] at h
    cases h
  | some d =>
    cases hclaimed : w.running.contains (InstanceId.derive d.name parameters).text with
    | true =>
      simp only [runOver, job?, claim?, Act.run_bind, Act.run_find, Act.run_update, hjob, hclaimed, if_true] at h
      cases h
    | false =>
      rw [run_of_free r inner depth hjob rfl hclaimed] at h
      obtain ⟨hreport, rfl⟩ := Prod.mk.inj h
      obtain ⟨x, begun, hbegin, hdrive⟩ := Act.run_bind_eq_ok (Prod.ext hreport rfl)
      rcases x with e | ⟨start, record⟩
      · cases hdrive
      · obtain ⟨outcome, sealed, done, millis, hexecute, hreport, hdone⟩ := drive_eq_report hdrive
        refine ⟨d, ⟨start, record, w.tokens, _⟩, outcome, sealed, done, millis, rfl, ?_, hexecute, hreport,
          congrArg (World.releasing · _) hdone⟩
        simp only [opened?, claim?_of_free hclaimed, hbegin]

/-- What a run reports of an instance is what is stored last of it, and what is told of its
    end. -/
structure Reported (id : InstanceId) (report : Report) (w w' : World σ) : Prop where
  instanceId : report.instanceId = id
  owner : report.record.instanceId = id
  status : report.record.finalStatus = some report.status
  exit : report.record.finalExit = some report.exit
  stored : w'.clock.issued ≤ ExecutionId.room → w'.repository.store.Latest id report.record
  /-- On a shelf it is read as it is, and from a table if its row can be read. -/
  read : w'.clock.issued ≤ ExecutionId.room →
    ((∃ shelf, w'.repository.store = .shelf shelf) ∨ report.record.Legible) →
    w'.repository.store.latest? id = .ok (some report.record)
  /-- The end of the instance is told once, and last. -/
  told : ∃ (before : List Event) (millis : Nat), (∀ e ∈ before, e.ended? ≠ some id) ∧
    w'.bus = (before ++ [Event.jobFinished report.record.id id report.record.job report.status report.exit
      millis]).foldl Bus.publish w.bus

theorem unended_of_opened {o : Opened σ} (ho : opened? d parameters w = some o) :
    Unended (InstanceId.derive d.name parameters) o.token w.bus o.world := by
  obtain ⟨claimed, begun, hclaim, hbegin, hworld⟩ := opened?_eq_some ho
  obtain ⟨-, htoken, rfl⟩ := claim?_eq_some hclaim
  have hclaimed : Unended (InstanceId.derive d.name parameters) o.token w.bus
      (w.claiming (InstanceId.derive d.name parameters)) := by
    rw [htoken]
    exact .start (w := w.claiming _) (Dict.get?_insert_self _ _ _)
  have hkeeps : (unending (InstanceId.derive d.name parameters) o.token w.bus : Manner σ).Has
      (begin? d (InstanceId.derive d.name parameters) parameters) :=
    storing_unending.begin? (showing_unending _) d parameters
  have hbegun := Act.Keeps.run hkeeps hclaimed
  rw [hbegin] at hbegun
  rw [hworld]
  exact hbegun.publish (by simp [Event.ended?])

/-- An attempt does not tell the end of its instance; its run does. -/
theorem unending_execute (r : Runner σ) (levels depth : Nat) (d : Definition) (o : Opened σ) :
    (unending id t b).Has ((r.executorOf (r.run levels) depth o).execute d.graph o.start o.record) := by
  have hnode : ∀ e : Event, e.isNode = true → e.ended? ≠ some id := by
    intro e he hended
    have hnone := Event.instanceId?_of_isNode he
    have hmem := Event.mem_instanceId?_of_ended hended
    rw [hnone] at hmem
    cases hmem
  have hex : (r.executorOf (r.run levels) depth o).Closed (unending id t b) :=
    closed_executor (unending_run r levels) storing_unending.abandon o.record depth o.token fun e he _ =>
      unending_publish (hnode e he)
  exact Executor.has_execute hex (storing_unending.storable (showing_unending _) rfl)
    (storing_unending.sealable (showing_unending _)) d.graph o.start rfl

theorem reported_of_runOver (r : Runner σ) (levels : Nat) (hw : Reached w)
    (h : (r.runOver (r.run levels) depth job parameters).run w = (.ok (.ok report), w')) :
    ∃ d, w.jobs.get? job = some d ∧ Reported (InstanceId.derive d.name parameters) report w w' := by
  obtain ⟨d, o, outcome, sealed, done, millis, hjob, ho, hexecute, rfl, rfl⟩ := run_eq_report h
  obtain ⟨latest, point, fresh, now, -, -, -, hrecord⟩ := start_of_opened ho
  have hid : o.record.instanceId = InstanceId.derive d.name parameters := congrArg Record.instanceId hrecord
  have hguarded : On (Guarded w.core.faults []) w :=
    ⟨rfl, by simp, fun hids => ⟨sound_of_reached hw hids, by simp⟩⟩
  have hheld := guarded_of_opened hguarded ho
  rw [← hid] at hheld
  obtain ⟨howner, hstatus, hexit, hlatest⟩ := Executor.latest_of_execute
    (Switchyard.closed_executor (keeps_run r levels) o.record depth o.token) hheld.ofLine (not_sealed_of_opened ho)
    hexecute
  rw [hid] at howner hlatest
  have hunended := Act.Keeps.run (unending_execute r levels depth d o) (unended_of_opened ho)
  rw [hexecute] at hunended
  obtain ⟨before, hbus, hbefore⟩ := hunended.told
  refine ⟨d, hjob, howner, howner, hstatus, hexit, hlatest, fun hids hr => (hlatest hids).latest?_eq hr, before, millis,
    hbefore, ?_⟩
  rw [List.foldl_append, ← hbus, ← howner]
  rfl

/-- A run that fails for no fault of its flow has no effect; what a run reports is stored
    as the latest record of its instance and told once. -/
theorem refused_or_reported (r : Runner σ) (levels depth : Nat) (job : String) (parameters : Parameters) (hw : Served w) :
    let run := (r.run (levels + 1) depth job parameters).run w
    (∀ e, run.1 = .ok (.error e) → (∀ fault, e ≠ .flow fault) → r.Refused (r.run levels) depth job parameters w) ∧
    ∀ report, run.1 = .ok (.ok report) →
      ∃ d, w.jobs.get? job = some d ∧ Reported (InstanceId.derive d.name parameters) report w run.2 :=
  ⟨fun _ hrun he => refused_of_runOver hw.attended hrun he, fun _ hrun =>
    reported_of_runOver r levels hw.reached (Prod.ext hrun rfl)⟩

end Runner

/-! ### A job that launches itself -/

namespace Coil

def coil : Definition := { graph := ⟨"coil", "turn", [⟨"turn", .subJob "coil" [], []⟩]⟩ }

def coilId : InstanceId := InstanceId.derive "coil" Dict.empty

def runner : Runner Nat := { config := {}, units := { step := fun _ => none, decider := fun _ => none } }

def world : World Nat :=
  { repository := { store := .shelf Shelf.empty }
    jobs := Dict.empty.insert "coil" coil
    bus := (Bus.ofCapacity 4).subscribe
    clock := { origin := Instant.ofSeconds 0 0 }
    memory := 0 }

theorem served : Served world := .setUp (.empty (Or.inl rfl)) rfl rfl

def amid : World Nat :=
  match Runner.opened? coil Dict.empty world with
  | some o => o.world
  | none => world

theorem served_amid : Served amid := by
  unfold amid
  split
  next o ho =>
    exact .during runner (.run "coil" Dict.empty) served
      (.bind_left (runner.passes_of_opened (runner.run 99999) 0 rfl ho (.start _ _)) _)
  · exact served

def after : Except Halt (Except JobError Report) × World Nat := (runner.run 2 0 "coil" Dict.empty).run world

def verdict (x : Except Halt (Except JobError Report)) : Option Status :=
  match x with
  | .ok (.ok report) => some report.status
  | _ => none

/-- The launch is refused while the job is running, and so the run reports a failure. -/
theorem launch_refused_failure_reported :
    runner.Refused (runner.run 0) 1 "coil" Dict.empty amid ∧
    ∃ report, after.1 = .ok (.ok report) ∧ report.status = .failed ∧ Runner.Reported coilId report world after.2 ∧
      after.2.bus.published.toList.map Event.ended? = [none, none, none, some coilId] := by
  have hamid : amid.running.get? coilId.text = some 0 ∧ (amid.jobs.get? "coil").map (·.name) = some "coil" := by
    decide +kernel
  obtain ⟨hclaimed, hjob⟩ := hamid
  obtain ⟨d, hjob, hname⟩ := Option.map_eq_some_iff.mp hjob
  have hrefused := (refusing_of_claimed hclaimed).run runner 0 1 "coil" Dict.empty d hjob (by rw [hname, coilId])
  have hafter : verdict after.1 = some .failed ∧
      after.2.bus.published.toList.map Event.ended? = [none, none, none, some coilId] := by decide +kernel
  obtain ⟨hverdict, htold⟩ := hafter
  unfold verdict at hverdict
  split at hverdict
  next report hreport =>
    refine ⟨?_, report, hreport, Option.some.inj hverdict, ?_, htold⟩
    · exact (runner.refused_or_reported 0 1 "coil" Dict.empty served_amid).1 _ (congrArg Prod.fst hrefused) nofun
    · obtain ⟨d, hd, hreported⟩ := (runner.refused_or_reported 1 0 "coil" Dict.empty served).2 report hreport
      obtain rfl : coil = d := Option.some.inj hd
      exact hreported
  · cases hverdict

end Coil

end Switchyard
