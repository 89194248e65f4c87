import Switchyard.Proofs.Engine.Reported
import Switchyard.Proofs.Engine.Restart

/-
  Switchyard.Proofs.Engine.Standing — what is left to do with an instance once no run holds it.

  Its latest record says. One that was never sealed may be abandoned. One that was sealed
  as failed or stopped is open to another attempt, and may be abandoned as well. Any other
  is over, so both are refused (`Standing`). A record that was sealed under a status of an
  attempt under way would be refused like one that is over, and is not: the instance would be
  stuck (`standing_iff`).

  Failures, leaves and stops end a flow as completed, failed or stopped, whatever a unit, a
  launched job or a branch came to (`Progress.status_of_route_finish`); only a rule may name
  another status, and any at all. So where the job's own rules name none of those three, an
  attempt that is sealed leaves its instance with a standing: `Runner.standing_of_report`.
-/

namespace Switchyard

variable {σ : Type} {g : Graph}

/-! ## The status a flow ends with -/

/-- A rule of the graph ends its flow with this status in place of the one it would end with. -/
def Graph.EndsAs (g : Graph) (s : Status) : Prop :=
  ∃ n ∈ g.nodes, ∃ t ∈ n.transitions, t.isTerminal = true ∧ t.status = some s

theorem Progress.status_of_leaf (p : Progress) (node : String) : (p.leaf node).status.isRunning = false := by
  simp only [leaf]
  split
  · rfl
  · split
    · rfl
    · split <;> rfl

theorem Progress.status_of_ruled {p : Progress} {node : String} {t : Transition}
    (h : (p.ruled node t).status.isRunning = true) : t.status = some (p.ruled node t).status := by
  cases hstatus : t.status with
  | some s => cases haction : t.action <;> simp [ruled, haction, hstatus, finish]
  | none => cases haction : t.action <;> simp [ruled, haction, hstatus, finish, Status.isRunning] at h

/-- A flow ends under a status of a flow under way only if a rule says so. -/
theorem Progress.status_of_route_finish {p : Progress} {n : Node Graph} {v : Visit} {stopping : Bool} {o : FlowOutcome}
    (h : p.route n v stopping = .finish o) (hrunning : o.status.isRunning = true) :
    ∃ t ∈ n.transitions, t.isTerminal = true ∧ t.status = some o.status := by
  simp only [route] at h
  split at h
  · cases h
    cases hrunning
  split at h
  · cases h
    rw [p.status_of_leaf] at hrunning
    cases hrunning
  split at h
  · cases h
    cases hrunning
  next t hchoose =>
    have ht : t ∈ n.transitions := List.mem_of_find?_eq_some hchoose
    split at h
    next target haction =>
      split at h
      · cases h
        cases hrunning
      · cases h
    next hterminal =>
      cases h
      refine ⟨t, ht, ?_, status_of_ruled hrunning⟩
      cases haction : t.action with
      | goto target => exact absurd haction (hterminal target)
      | _ => simp [Transition.isTerminal, haction]

namespace Executor

variable {ex : Executor σ} {walk : BranchWalk σ} {start : FlowStart} {first sealed : Record}

/-- However a flow ends while others act, it names a node of its graph to begin again at if
    it may begin again, and its status is none of a flow under way unless a rule says so. -/
theorem Ends.outcome (hg : g.Valid) {pos : Position} {t : Traversal}
    {kept : Option Record} (h : Ends ex walk g pos (.ok t, kept)) :
    (t.outcome.status.isRestartable = true →
      ∃ restart, t.outcome.restartNode = some restart ∧ g.contains restart = true) ∧
    (t.outcome.status.isRunning = true → g.EndsAs t.outcome.status) := by
  cases h with
  | full hn => exact ⟨fun _ => ⟨_, rfl, contains_id hn⟩, nofun⟩
  | @done node v _ hn hyields hturn =>
    cases hturn with
    | failed f hf => exact ⟨fun _ => ⟨_, rfl, contains_id hn⟩, nofun⟩
    | finished o stopping hf hroute =>
      constructor
      · obtain ⟨status, exit, restart, failure, rfl, hrestart, -⟩ := Progress.eq_of_route_finish hroute
        intro hopen
        refine ⟨restart, if_pos hopen, ?_⟩
        rcases hrestart with rfl | ⟨t, ht, htarget⟩
        · exact contains_id hn
        · exact hg.contains_target hn ht htarget
      · intro hrunning
        obtain ⟨t, ht, hstatus⟩ := Progress.status_of_route_finish hroute hrunning
        exact ⟨node, List.mem_of_find?_eq_some hn, t, ht, hstatus⟩

/-- What an attempt seals while others act is what its traversal came to. -/
theorem closed_of_execute (hfirst : first.finalStatus = none) {o : FlowOutcome}
    (h : (ex.execute g start first).Yields (.ok o, sealed)) :
    ∃ t kept now, (ex.traverseGraph g start first.context (some first)).Yields (.ok t, kept) ∧ o = t.outcome ∧
      sealed = first.closed t now := by
  obtain ⟨⟨walked, kept⟩, hwalk, h⟩ := Act.yields_bind h
  rcases walked with e | t
  · cases Act.yields_pure h
  have hcontinues : (kept.getD first).Continues first := by
    cases kept with
    | none => exact .refl first
    | some r =>
      exact kept_of_traverse_yields (R := (·.Continues first)) (fun r p o hr => .noted p o hr)
        (by rintro _ ⟨⟩; exact .refl first) hwalk r rfl
  obtain ⟨now, -, h⟩ := Act.yields_bind h
  obtain ⟨stored, -, h⟩ := Act.yields_bind h
  rcases stored with e | u
  · cases Act.yields_pure h
  · cases Act.yields_pure h
    exact ⟨t, kept, now, hwalk, rfl, hcontinues.sealWith hfirst t now⟩

end Executor

/-! ## Standing -/

def Record.Abandonable (r : Record) : Prop :=
  ∀ id fresh now, ∃ marker, abandoned id r fresh now = .ok marker ∧ marker.finalStatus = some .abandoned

/-- What may be done with an instance that no run holds, by its latest record and the graph
    of its job. -/
inductive Standing (g : Graph) (r : Record) : Prop
  /-- Its attempt reached no end. -/
  | unsealed : r.finalStatus = none → r.Abandonable → Standing g r
  /-- A job that allows it is run again, as long as there are numbers for attempts. -/
  | restartable : (r.finalStatus = some .failed ∨ r.finalStatus = some .stopped) →
      (r.attempt < Text.maxU32 → r.Abandonable ∧ ∃ point, StartPoint.resolve (some r) g true = .ok point) → Standing g r
  | ended : (r.finalStatus = some .completed ∨ r.finalStatus = some .abandoned ∨ r.finalStatus = some .unknown) →
      Standing g r

theorem Record.exists_abandon {r : Record} (h : r.finalStatus = none) (now : Instant) :
    ∃ marker, r.abandon? now = some marker ∧ marker.finalStatus = some .abandoned := by
  have hopen : r.isSealed = false := by simp [isSealed, h]
  exact ⟨{ r with finalStatus := some .abandoned, finalExit := some (Exit.ofStatus .abandoned), ended := some now },
    by simp [abandon?, hopen], rfl⟩

theorem Record.abandonable_of_open {r : Record} (h : r.finalStatus = none) : r.Abandonable := by
  intro id fresh now
  obtain ⟨marker, hmarker, hfinal⟩ := r.exists_abandon h now
  exact ⟨marker, by rw [abandoned, hmarker], hfinal⟩

/-- A sealed attempt stays as it is; the next one is sealed from the start. -/
theorem Record.abandonable_of_fallen {r : Record} (h : r.finalStatus = some .failed ∨ r.finalStatus = some .stopped)
    (hnumber : r.attempt < Text.maxU32) : r.Abandonable := by
  intro id fresh now
  obtain ⟨hsealed, hopen⟩ := r.restartable_iff.mpr h
  obtain ⟨marker, hmarker, hfinal⟩ :=
    (Record.start fresh now id r.job (r.attempt + 1) r.parameters r.context).exists_abandon rfl now
  have hnone : r.abandon? now = none := if_pos hsealed
  have hnext : StartPoint.nextAttempt r = .ok (r.attempt + 1) := StartPoint.nextAttempt_eq_ok_iff.mpr ⟨hnumber, rfl⟩
  refine ⟨marker, ?_, hfinal⟩
  simp only [abandoned, hnone, hopen, hnext, Except.map, hmarker, Option.getD_some, Bool.not_true, Bool.false_eq_true,
    if_false]

/-- An instance without a standing is stuck: it can neither be run again nor abandoned, for
    it seems to be running. -/
theorem stuck_of_running {r : Record} {s : Status} (h : r.finalStatus = some s) (hrunning : s.isRunning = true) :
    (∀ g restartable, StartPoint.resolve (some r) g restartable = .error (.notRestartable r.instanceId s)) ∧
      ∀ id fresh now, abandoned id r fresh now = .error (.notRestartable id s) := by
  have hsealed : r.isSealed = true := by simp [Record.isSealed, h]
  have hstatus : r.status = s := by simp [Record.status, h]
  have hclosed : s.isRestartable = false := by cases s <;> first | rfl | cases hrunning
  refine ⟨fun g restartable => ?_, fun id fresh now => ?_⟩
  · simp [StartPoint.resolve, hsealed, hstatus, hclosed]
  · simp [abandoned, Record.abandon?, hsealed, hstatus, hclosed]

/-- An instance has a standing unless its latest record was sealed as if it were running. -/
theorem standing_iff {r : Record}
    (hrestart : r.finalStatus = some .failed ∨ r.finalStatus = some .stopped →
      g.contains (StartPoint.restartNode g r) = true) :
    Standing g r ↔ ∀ s, r.finalStatus = some s → s.isRunning = false := by
  constructor
  · intro h s hs
    cases h with
    | unsealed hopen => rw [hopen] at hs; cases hs
    | restartable hfallen => rcases hfallen with hfallen | hfallen <;> rw [hfallen] at hs <;> cases hs <;> rfl
    | ended hended => rcases hended with hended | hended | hended <;> rw [hended] at hs <;> cases hs <;> rfl
  · intro h
    cases hfinal : r.finalStatus with
    | none => exact .unsealed hfinal (Record.abandonable_of_open hfinal)
    | some s =>
      have hfallen : (r.finalStatus = some .failed ∨ r.finalStatus = some .stopped) → Standing g r := fun hfallen =>
        .restartable hfallen fun hnumber => ⟨Record.abandonable_of_fallen hfallen hnumber, _,
          StartPoint.resolve_eq_ok_iff.mpr ⟨hfallen, rfl, hrestart hfallen, hnumber, rfl⟩⟩
      cases s with
      | starting | started | stopping => cases h _ hfinal
      | stopped => exact hfallen (Or.inr hfinal)
      | failed => exact hfallen (Or.inl hfinal)
      | completed => exact .ended (Or.inl hfinal)
      | abandoned => exact .ended (Or.inr (Or.inl hfinal))
      | unknown => exact .ended (Or.inr (Or.inr hfinal))

structure Settled (g : Graph) (status : Status) (sealed : Record) : Prop where
  final : sealed.finalStatus = some status
  /-- Only a rule may seal an attempt as one under way. -/
  named : status.isRunning = true → g.EndsAs status
  standing : status.isRunning = false → Standing g sealed

theorem Settled.rests {status : Status} {sealed : Record} (h : Settled g status sealed)
    (hnamed : ∀ s, g.EndsAs s → s.isRunning = false) : status.isRunning = false := by
  cases hrunning : status.isRunning with
  | false => rfl
  | true =>
    rw [hnamed _ (h.named hrunning)] at hrunning
    cases hrunning

theorem Executor.settled_of_execute (hg : g.Valid) {ex : Executor σ} {start : FlowStart} {first sealed : Record}
    (hfirst : first.finalStatus = none) {o : FlowOutcome} (h : (ex.execute g start first).Yields (.ok o, sealed)) :
    Settled g o.status sealed := by
  obtain ⟨t, kept, now, hwalk, rfl, rfl⟩ := closed_of_execute hfirst h
  obtain ⟨pos, -, hends⟩ := ends_of_traverse hwalk
  obtain ⟨hrestart, hnamed⟩ := hends.outcome hg
  refine ⟨rfl, hnamed, fun hrest => (standing_iff ?_).mpr ?_⟩
  · intro hfallen
    have hopen : t.outcome.status.isRestartable = true := by
      rcases hfallen with hfallen | hfallen <;> rw [Option.some.inj hfallen] <;> rfl
    obtain ⟨restart, hnode, hcontains⟩ := hrestart hopen
    have hbegin : StartPoint.restartNode g (first.closed t now) = restart := by
      rw [StartPoint.restartNode, show (first.closed t now).restartNode = some restart from hnode]
      rfl
    rwa [hbegin]
  · rintro s hs
    rwa [← Option.some.inj hs]

namespace Runner

variable {d : Definition} {parameters : Parameters} {report : Report}

/-- However an attempt came to its report while others act. -/
theorem settled_of_attemptOver (hd : d.graph.Valid) {r : Runner σ} {inner : Run σ} {id : InstanceId} {depth : Nat}
    {t : Token} (h : (r.attemptOver inner d id depth t parameters).Yields (.ok report)) :
    Settled d.graph report.status report.record := by
  obtain ⟨begun, hbegin, h⟩ := Act.yields_bind h
  rcases yields_begin? hbegin with ⟨latest, point, fresh, now, hpoint, rfl⟩ | ⟨e, rfl, hne⟩
  · obtain ⟨u, -, h⟩ := Act.yields_bind h
    obtain ⟨before, -, h⟩ := Act.yields_bind h
    obtain ⟨⟨came, sealed⟩, hexecute, h⟩ := Act.yields_bind h
    rcases came with e | outcome
    · cases Act.yields_pure h
    · obtain ⟨after, -, h⟩ := Act.yields_bind h
      obtain ⟨u, -, h⟩ := Act.yields_bind h
      cases Act.yields_pure h
      exact Executor.settled_of_execute hd rfl hexecute
  · cases Act.yields_pure h

/-- An attempt of a built job that is sealed, whoever acts besides, is sealed under a status
    of an attempt under way only if one of the job's own rules names it. Where none does, its
    instance is open to another attempt and to being abandoned, or is over; and an attempt
    that is not sealed may be abandoned in any case. So it stands with the instance once its
    run has given it back, for what was sealed is its latest record. -/
theorem standing_of_report (hd : d.graph.Valid) :
    (∀ (r : Runner σ) inner id depth token parameters report,
      (r.attemptOver inner d id depth token parameters).Yields (.ok report) →
        report.record.finalStatus = some report.status ∧
          (report.status.isRunning = true → d.graph.EndsAs report.status)) ∧
    ((∀ s, d.graph.EndsAs s → s.isRunning = false) →
      (∀ (r : Runner σ) inner id depth token parameters report,
        (r.attemptOver inner d id depth token parameters).Yields (.ok report) →
          report.status.isRunning = false ∧ Standing d.graph report.record) ∧
      ∀ (r : Runner σ) levels depth job parameters w w' report, Reached w → w.jobs.get? job = some d →
        (r.run (levels + 1) depth job parameters).run w = (.ok (.ok report), w') →
          w'.clock.issued ≤ ExecutionId.room →
            w'.running.contains (InstanceId.derive d.name parameters).text = false ∧
              w'.repository.store.Latest (InstanceId.derive d.name parameters) report.record ∧
              report.record.finalStatus = some report.status ∧ report.status.isRunning = false ∧
              Standing d.graph report.record) ∧
    ∀ rec : Record, rec.finalStatus = none → Standing d.graph rec := by
  refine ⟨fun r inner id depth token parameters report h => ?_, fun hnamed => ⟨?_, ?_⟩, fun rec hopen => ?_⟩
  · have hsettled := settled_of_attemptOver hd h
    exact ⟨hsettled.final, hsettled.named⟩
  · intro r inner id depth token parameters report h
    have hsettled := settled_of_attemptOver hd h
    have hrest := hsettled.rests hnamed
    exact ⟨hrest, hsettled.standing hrest⟩
  · intro r levels depth job parameters w w' report hw hjob hrun hids
    obtain ⟨d', hjob', hreported⟩ := reported_of_runOver r levels hw hrun
    obtain rfl : d = d' := Option.some.inj (hjob.symm.trans hjob')
    obtain ⟨d', o, outcome, sealed, done, millis, hjob', ho, hexecute, rfl, rfl⟩ := run_eq_report hrun
    obtain rfl : d = d' := Option.some.inj (hjob.symm.trans hjob')
    have hsettled := Executor.settled_of_execute hd (not_sealed_of_opened ho) (.of_run hexecute)
    have hrest := hsettled.rests hnamed
    exact ⟨Dict.contains_erase_self _ _, hreported.stored hids, hreported.status, hrest, hsettled.standing hrest⟩
  · exact .unsealed hopen (Record.abandonable_of_open hopen)

end Runner

/-! ### Postings that are sealed as started -/

namespace Postings

def units : Units Nat :=
  { step := fun _ => some fun _ calls => .finish (calls + 1) (.result { status := .completed, exit := Exit.completed })
    decider := fun _ => none }

def runner : Runner Nat := { config := {}, units }

def postings : Graph.Declaration :=
  { name := "postings", nodes := [⟨"post", .step "post", [{ Transition.complete "*" with status := some .started }]⟩] }

def task : Task Nat :=
  { runner
    job := "postings"
    definition := { graph := ⟨"postings", "post", postings.nodes⟩ }
    parameters := Dict.empty }

def ledger : Definition := { graph := ⟨"ledger", "day", [⟨"day", .subJob "postings" [], []⟩]⟩ }

def world : World Nat :=
  { repository := { store := .shelf Shelf.empty }
    jobs := (Dict.empty.insert "ledger" ledger).insert "postings" task.definition
    bus := Bus.ofCapacity 4
    clock := { origin := Instant.ofSeconds 0 0 }
    memory := 0 }

def refusal (x : Except Halt Reply) : Option JobError :=
  match x with
  | .ok (.report (.error e)) => some e
  | .ok (.record (.error e)) => some e
  | _ => none

/-- The instance is given back, and then neither run again nor abandoned. -/
theorem postings_stuck :
    postings.build = .ok task.definition.graph ∧
      (task.record? world).bind (·.finalStatus) = some .started ∧
      (task.after world).running.contains task.id.text = false ∧
      refusal (task.done (task.after world)).1 = some (.restart (.notRestartable task.id .started)) ∧
      refusal ((runner.request (.abandon task.id)).run (task.after world)).1 =
        some (.restart (.notRestartable task.id .started)) := by
  refine ⟨by rfl, ?_⟩
  decide +kernel

theorem valid_ledger : ledger.graph.Valid := by
  have hbuild : (⟨"ledger", none, ledger.graph.nodes⟩ : Graph.Declaration).build = .ok ledger.graph := by rfl
  refine .mk hbuild fun n hn branches hsplit => ?_
  obtain rfl := List.mem_singleton.mp hn
  cases hsplit

def came : Except Halt (Except JobError Report) × World Nat := (runner.run 2 0 "ledger" Dict.empty).run world

def sealedAs (id : InstanceId) : Option Status :=
  match came.2.repository.store.latest? id with
  | .ok latest => latest.bind (·.finalStatus)
  | .error _ => none

theorem came_of_world : Coil.verdict came.1 = some .completed ∧ sealedAs task.id = some .started ∧
    came.2.clock.issued ≤ ExecutionId.room := by
  decide +kernel

/-- The ledger's node came to what its postings were sealed as; the ledger is over. -/
theorem ledger_rests :
    sealedAs task.id = some .started ∧
      ∃ report, came.1 = .ok (.ok report) ∧ report.status = .completed ∧ report.status.isRunning = false ∧
        came.2.repository.store.Latest (InstanceId.derive "ledger" Dict.empty) report.record ∧
        Standing ledger.graph report.record := by
  obtain ⟨hverdict, hpostings, hids⟩ := came_of_world
  have hnamed : ∀ s, ledger.graph.EndsAs s → s.isRunning = false := by
    rintro s ⟨n, hn, t, ht, -⟩
    obtain rfl := List.mem_singleton.mp hn
    cases ht
  unfold Coil.verdict at hverdict
  split at hverdict
  next report hreport =>
    obtain ⟨-, hstanding, -⟩ := Runner.standing_of_report (σ := Nat) valid_ledger
    obtain ⟨-, hlatest, -, hrest, hstands⟩ := (hstanding hnamed).2 runner 1 0 "ledger" Dict.empty world came.2 report
      (.empty (Or.inl rfl)) rfl (Prod.ext hreport rfl) hids
    exact ⟨hpostings, report, hreport, Option.some.inj hverdict, hrest, hlatest, hstands⟩
  · cases hverdict

end Postings

end Switchyard
