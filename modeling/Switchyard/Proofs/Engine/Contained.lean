import Switchyard.Proofs.Engine.Bounded
import Switchyard.Proofs.Engine.Tour
import Switchyard.Proofs.Engine.Views
import Switchyard.Proofs.Identity
import Switchyard.Proofs.Store.Page

/-
  Switchyard.Proofs.Engine.Contained — what goes wrong at a node stays at that node.

  `GoesWrong` lists what can go wrong at a visit, each with the text that tells of it: a
  unit ends with an error, panics or overruns its deadline, a launch is too deep, comes
  back with an error or panics. Whatever it is, the visit comes to a failed one with that
  text (`visit_of_goesWrong`), and is routed as any other visit is (`Course.chained`).

  `Tour.Contains` says so of a whole traversal, be it a job's own flow or a branch: none
  of its visits is broken off but by a deadline from outside, and only a node whose unit
  is not registered ends the flow at once.

  - `Runner.Concluded`: how a run ends that has opened its attempt. It seals a record that
    is stored, or it could not store a record of this very attempt.
  - `failures_contained`: both, where units return, launches are limited, and there are
    places for the branches.
  - `not_all_contained`: a launched job that runs and fails does so with an exit of its own,
    and a flow that never ends is not sealed under a limit that nothing can exceed.
-/

namespace Switchyard

variable {σ : Type} {I : Dict Definition → σ → Prop}

namespace Executor

variable {ex : Executor σ} {walk : BranchWalk σ} {g : Graph} {node : Node Graph} {p : Progress}
  {prior : Option (List FlowOutcome)} {w w' : World σ}

/-! ## What goes wrong at a visit -/

/-- A visit calls a registered unit, which does as this script says. -/
inductive Calls (ex : Executor σ) (g : Graph) (node : Node Graph) (p : Progress) (w : World σ) :
    {α : Type} → Script σ α → Prop
  | step {name : String} {unit : Briefing → σ → Script σ StepResult} : node.kind = .step name →
      ex.units.step name = some unit → Calls ex g node p w (unit (ex.briefing g node p) w.memory)
  | decider {name : String} {unit : Briefing → σ → Script σ Exit} : node.kind = .decision name →
      ex.units.decider name = some unit → Calls ex g node p w (unit (ex.briefing g node p) w.memory)

/-- A visit launches a job, with these parameters, as a run at this depth. -/
inductive Launches (ex : Executor σ) (node : Node Graph) (p : Progress) :
    Runner.Run σ → (depth : Nat) → (job : String) → Parameters → Prop
  | mk {run : Runner.Run σ} {job : String} {keys : List String} : node.kind = .subJob job keys →
      ex.launch = some (Runner.launch run) → deeper ex.scope.depth ≤ ex.config.maxSubJobDepth →
      Launches ex node p run (deeper ex.scope.depth) job (Parameters.extract p.context ex.scope.parameters keys)

/-- What goes wrong at a visit, and the text that tells of it. -/
inductive GoesWrong (ex : Executor σ) (g : Graph) (node : Node Graph) (p : Progress) (w : World σ) : String → Prop
  | error {α : Type} {s : Script σ α} {chain : List String} {w' : World σ} : Calls ex g node p w s →
      (Act.within ex.config.stepTimeout (ex.perform s)).run w = (.ok (some (.error chain)), w') →
      GoesWrong ex g node p w (chainText chain)
  | panic {α : Type} {s : Script σ α} {payload : Payload} {w' : World σ} : Calls ex g node p w s →
      (Act.within ex.config.stepTimeout (ex.perform s)).run w = (.error (.panic payload), w') →
      GoesWrong ex g node p w payload.message
  | overrun {α : Type} {s : Script σ α} {w' : World σ} : Calls ex g node p w s →
      (Act.within ex.config.stepTimeout (ex.perform s)).run w = (.ok none, w') →
      GoesWrong ex g node p w ("timed out after " ++ toString (ex.config.stepTimeout.getD 0) ++ "s")
  | tooDeep {job : String} {keys : List String} : node.kind = .subJob job keys → ex.launch.isSome = true →
      ex.config.maxSubJobDepth < deeper ex.scope.depth →
      GoesWrong ex g node p w ("sub-job depth limit of " ++ toString ex.config.maxSubJobDepth ++ " reached")
  /-- The launched run comes back with an error, as one of an unknown job, of an instance that
      is refused or claimed, and one whose own record could not be stored. -/
  | launchError {run : Runner.Run σ} {depth : Nat} {job : String} {parameters : Parameters} {e : JobError}
      {w' : World σ} : Launches ex node p run depth job parameters →
      (run depth job parameters).run w = (.ok (.error e), w') → GoesWrong ex g node p w (chainText e.chain)
  | launchPanic {run : Runner.Run σ} {depth : Nat} {job : String} {parameters : Parameters} {payload : Payload}
      {w' : World σ} : Launches ex node p run depth job parameters →
      (run depth job parameters).run w = (.error (.panic payload), w') → GoesWrong ex g node p w payload.message

/-- A visit that calls a unit fails with a text if the unit, under its deadline, does. -/
theorem visit_of_guarded {α : Type} {s : Script σ α} (hcalls : Calls ex g node p w s) {text : String}
    (h : ((ex.guarded s).run w).1 = .ok (.error text)) :
    ((ex.visit walk g node p prior).run w).1 = .ok (Visit.failed text) := by
  generalize hrun : (ex.guarded s).run w = result at h
  obtain ⟨x, w'⟩ := result
  cases h
  cases hcalls with
  | step hkind hunit =>
    simp only [visit, hkind, visitStep, hunit, memory, Act.run_bind, Act.run_find, hrun, Act.run_pure]
  | decider hkind hunit =>
    simp only [visit, hkind, visitDecision, hunit, memory, Act.run_bind, Act.run_find, hrun, Act.run_pure]

theorem visit_of_launch {run : Runner.Run σ} {depth : Nat} {job : String} {parameters : Parameters}
    (hlaunches : Launches ex node p run depth job parameters) :
    (ex.visit walk g node p prior).run w =
      (catchPanic (Runner.launch run job parameters depth) >>= fun came => match came with
        | .ok (.ok (status, exit)) => pure { status, exit }
        | .ok (.error chain) => pure (Visit.failed (chainText chain))
        | .error payload => pure (Visit.failed payload.message)).run w := by
  obtain ⟨hkind, hlaunch, hdepth⟩ := hlaunches
  refine congrArg (fun x : Act σ Visit => x.run w) ?_
  simp only [visit, hkind, visitSubJob, hlaunch]
  exact if_neg (Nat.not_lt.mpr hdepth)

theorem visit_of_goesWrong {text : String} (h : GoesWrong ex g node p w text) (walk : BranchWalk σ)
    (prior : Option (List FlowOutcome)) :
    ((ex.visit walk g node p prior).run w).1 = .ok (Visit.failed text) := by
  cases h with
  | error hcalls hrun =>
    refine visit_of_guarded hcalls ?_
    simp only [guarded, catchPanic, Act.run_bind, Act.run_attempt, hrun, Act.run_pure]
  | panic hcalls hrun =>
    refine visit_of_guarded hcalls ?_
    simp only [guarded, catchPanic, Act.run_bind, Act.run_attempt, hrun, Act.run_pure]
  | overrun hcalls hrun =>
    refine visit_of_guarded hcalls ?_
    simp only [guarded, catchPanic, Act.run_bind, Act.run_attempt, hrun, Act.run_pure]
  | tooDeep hkind hlaunch hdeep =>
    obtain ⟨launch, hlaunch⟩ := Option.isSome_iff_exists.mp hlaunch
    simp only [visit, hkind, visitSubJob, hlaunch, if_pos hdeep, Act.run_pure]
  | launchError hlaunches hrun =>
    rw [visit_of_launch hlaunches]
    simp only [catchPanic, Runner.launch, Act.run_bind, Act.run_attempt, hrun, Act.run_pure]
  | launchPanic hlaunches hrun =>
    rw [visit_of_launch hlaunches]
    simp only [catchPanic, Runner.launch, Act.run_bind, Act.run_attempt, hrun, Act.run_pure]

/-- What a launched run reports is what the visit comes to. -/
theorem visit_of_report {run : Runner.Run σ} {depth : Nat} {job : String} {parameters : Parameters} {report : Report}
    (hlaunches : Launches ex node p run depth job parameters)
    (h : (run depth job parameters).run w = (.ok (.ok report), w')) (walk : BranchWalk σ)
    (prior : Option (List FlowOutcome)) :
    ((ex.visit walk g node p prior).run w).1 = .ok { status := report.status, exit := report.exit } := by
  rw [visit_of_launch hlaunches]
  simp only [catchPanic, Runner.launch, Act.run_bind, Act.run_attempt, h, Act.run_pure]

theorem visit_of_missing {f : Failure} (h : ex.units.missing? node = some f) (walk : BranchWalk σ)
    (prior : Option (List FlowOutcome)) : ((ex.visit walk g node p prior).run w).1 = .ok (Visit.ofFailure f) := by
  unfold Units.missing? at h
  cases hkind : node.kind with
  | step name =>
    rw [hkind] at h
    cases hunit : ex.units.step name with
    | some unit => simp [hunit] at h
    | none =>
      simp only [hunit, Option.isNone_none, if_true, Option.some.injEq] at h
      subst h
      simp only [visit, hkind, visitStep, hunit, Act.run_pure]
  | decision name =>
    rw [hkind] at h
    cases hunit : ex.units.decider name with
    | some unit => simp [hunit] at h
    | none =>
      simp only [hunit, Option.isNone_none, if_true, Option.some.injEq] at h
      subst h
      simp only [visit, hkind, visitDecision, hunit, Act.run_pure]
  | split branches => simp [hkind] at h
  | subJob job keys => simp [hkind] at h

/-! ## Routed like any other -/

/-- How a flow ends that goes no further than a visit. -/
def Stage.closing (ex : Executor σ) (s : Stage σ) (v : Visit) : FlowOutcome :=
  match v.failure with
  | some f => (s.pos.folded s.node v).engineFailure s.node.id f
  | none =>
    match (s.pos.folded s.node v).route s.node v (s.stopping ex.scope.token) with
    | .finish o => o
    | .goto target =>
      (s.pos.folded s.node v).engineFailure target (.visitLimitExceeded target ex.config.maxNodeVisits)

variable {room : Nat} {pos : Position} {made : List (Stage σ)} {r : Except Halt Walked}

/-- A visit is followed by another one only where its route led to that. -/
theorem Course.chained (h : Course ex g room pos made r w) {before after : List (Stage σ)} {s s' : Stage σ}
    (hmade : made = before ++ s :: s' :: after) :
    ∃ v target, s.came = .ok v ∧ v.failure = none ∧
      (s.pos.folded s.node v).route s.node v (s.stopping ex.scope.token) = .goto target ∧
      s'.pos = s.pos.onward s.node v target := by
  induction h generalizing before with
  | unknown => simp at hmade
  | full => simp at hmade
  | overflow => simp at hmade
  | broken => simp [List.cons_eq_append_iff] at hmade
  | done => simp [List.cons_eq_append_iff] at hmade
  | halted => simp [List.cons_eq_append_iff] at hmade
  | @onward room first v next rest r w hn hcame hleft hrest ih =>
    cases before with
    | nil =>
      rw [List.nil_append, List.cons.injEq] at hmade
      obtain ⟨rfl, rfl⟩ := hmade
      obtain ⟨hf, target, rfl, hroute⟩ := hleft.eq_onward
      exact ⟨v, target, hcame, hf, hroute, (hrest.pos_of_head? rfl).1⟩
    | cons x before =>
      rw [List.cons_append, List.cons.injEq] at hmade
      exact ih hmade.2

/-- The last visit settles what the traversal comes to. -/
theorem Course.closed (h : Course ex g room pos made r w) {before : List (Stage σ)} {s : Stage σ}
    (hmade : made = before ++ [s]) {t : Traversal} {kept : Option Record} (hr : r = .ok (.ok t, kept)) :
    ∃ v, s.came = .ok v ∧ t.outcome = s.closing ex v := by
  induction h generalizing before with
  | unknown => simp at hmade
  | full => simp at hmade
  | overflow => simp at hmade
  | broken => cases hr
  | @done room first v walked hn hcame hleft =>
    cases hr
    have hs : first = s := by
      rcases List.cons_eq_append_iff.mp hmade with ⟨-, h⟩ | ⟨rest, -, h⟩
      · exact (List.cons.inj h).1.symm
      · simp at h
    subst hs
    refine ⟨v, hcame, ?_⟩
    cases hleft with
    | failed f hf => simp only [Stage.closing, hf, ending]
    | finished o hf hroute => simp only [Stage.closing, hf, Stage.stopping, hroute, ending]
  | halted => cases hr
  | @onward room first v next rest r w hn hcame hleft hrest ih =>
    cases before with
    | cons x before =>
      rw [List.cons_append, List.cons.injEq] at hmade
      exact ih hmade.2 hr
    | nil =>
      -- The visit led on, but there was no room to go there.
      rw [List.nil_append, List.cons.injEq] at hmade
      obtain ⟨rfl, rfl⟩ := hmade
      obtain ⟨hf, target, rfl, hroute⟩ := hleft.eq_onward
      subst hr
      obtain ⟨-, rfl⟩ := hrest.eq_of_nil
      refine ⟨v, hcame, ?_⟩
      simp only [Stage.closing, hf, Stage.stopping, hroute]
      rfl

/-! ## The worlds of a traversal -/

/-- Jobs and memory are in `I` and the guards are these. -/
def Stays (I : Dict Definition → σ → Prop) (guards : List Nat) (w : World σ) : Prop :=
  I w.jobs w.memory ∧ w.deadlines = guards

theorem Stays.run {α : Type} {H : Halt → Prop} {guards : List Nat} {x : Act σ α} (h : Stays I guards w)
    (hx : x.Ends I H) {c : Except Halt α} (hrun : x.run w = (c, w')) : Stays I guards w' := by
  obtain ⟨hI, hguards, -⟩ := hx w h.1
  rw [hrun] at hI hguards
  exact ⟨hI, hguards.trans h.2⟩

theorem Stays.under {α : Type} {guards : List Nat} {x : Act σ α} (h : Stays I guards w) (hx : x.Ends I Halt.Never) :
    (∃ a, (x.run w).1 = .ok a) ∨ ∃ n < guards.length, (x.run w).1 = .error (.expired n) := by
  obtain ⟨-, -, hunder⟩ := hx w h.1
  cases hr : (x.run w).1 with
  | ok a => exact Or.inl ⟨a, rfl⟩
  | error e =>
    rcases hunder e hr with hnever | ⟨n, hn, rfl⟩
    · exact hnever.elim
    · rw [h.2] at hn
      exact Or.inr ⟨n, hn, rfl⟩

theorem stays_entered (hex : ex.Prompt I) (hwalk : WalkEnds walk I) {guards : List Nat} (hw : Stays I guards w)
    (start : FlowStart) (context : Context) (record : Option Record) :
    ∀ s ∈ ex.stages walk g start context record w, Stays I guards s.entered := by
  intro s hs
  have hpending : Stays I guards ((ex.setPhase record .pending none).run w).2 :=
    hw.run (H := Halt.Never) (ends_setPhase record .pending none) (by rfl)
  have hturn : ∀ {pos : Position} {w : World σ} {node : Node Graph} {v : Visit} {next : Position} {left : World σ},
      Stays I guards w → LeadsOn ex walk g pos w node v next left → Stays I guards left := by
    intro pos w node v next left hstay hleads
    obtain ⟨-, henter, hvisit, hleave⟩ := hleads
    have hentered := hstay.run (H := Halt.Never) (ends_enter g _ _) henter
    have hgone := hentered.run (H := Halt.IsPanic) (ends_visit hex hwalk (Or.inr ⟨_, rfl⟩) g _ _ _) hvisit
    exact hgone.run (ends_leave g _ _ _ _) hleave
  obtain ⟨started, w', hfront, henter⟩ := entered_of_trail (I := fun _ w => Stays I guards w) hturn hs hpending
  exact hfront.run (H := Halt.Never) (ends_enter g _ _) henter

/-! ## A record that could not be stored -/

/-- A record that is sealed is stored, or that is refused. -/
theorem run_closing_of_short {first : Record} (hid : first.instanceId.short?.isSome = true) (t : Traversal)
    (w : World σ) : ∃ now w₁, (Act.now : Act σ Instant).run w = (.ok now, w₁) ∧
      ((∃ w₂, w₁.repository.append (first.closed t now) = (.ok (), w₂.repository) ∧
          (closing first t).run w = (.ok (.ok t.outcome, first.closed t now), w₂)) ∨
        ∃ e w₂, (w₁.repository.append (first.closed t now)).1 = .error (.refused e) ∧
          (closing first t).run w = (.ok (.error (.checkpoint ⟨e⟩), first.closed t now), w₂)) := by
  obtain ⟨now, w₁, hnow⟩ : ∃ now w₁, (Act.now : Act σ Instant).run w = (.ok now, w₁) := ⟨_, _, rfl⟩
  have hid' : (first.closed t now).instanceId.short?.isSome = true := hid
  refine ⟨now, w₁, hnow, ?_⟩
  simp only [closing, Act.run_bind_ok hnow, Checkpoint.sealed, Checkpoint.persist, Checkpoint.discard]
  rcases Act.run_append_of_short hid' w₁ with ⟨hok, happend⟩ | ⟨e, hrefused, happend⟩
  · refine Or.inl ⟨{ w₁ with
        repository := (w₁.repository.append (first.closed t now)).2
        live := w₁.live.erase first.instanceId.text }, Prod.ext hok rfl, ?_⟩
    simp only [Act.run_bind, happend, Act.run_pure, Act.run_change]
    rfl
  · refine Or.inr ⟨e, { w₁ with repository := (w₁.repository.append (first.closed t now)).2 }, hrefused, ?_⟩
    simp only [Act.run_bind, happend, Act.run_pure]

end Executor

/-! ## Splits -/

/-- What a branch that was run contributes is among what is joined. -/
theorem Split.settle_mem_contributions {branches : List Graph} {plans : List Split.Plan} {i : Nat} {b : Graph}
    {start : FlowStart} (h : (i, b, start) ∈ Split.toRun branches plans) (context : Context)
    (ends : List (Nat × BranchEnd)) :
    Split.settle b context (Split.endAt ends i) ∈ Split.contributions branches plans context ends := by
  obtain ⟨⟨⟨b', plan⟩, j⟩, hmem, hrun⟩ := List.mem_filterMap.mp h
  cases plan with
  | reuse o => cases hrun
  | run start' =>
    cases hrun
    exact List.mem_map.mpr ⟨⟨⟨b, .run start⟩, i⟩, hmem, rfl⟩

/-- A split of which one branch ended unsuccessfully fails, and names the branch. -/
theorem Split.join_of_unsuccessful {branches : List Graph} {plans : List Split.Plan} {context : Context}
    {ends : List (Nat × BranchEnd)} {t : Traversal} (ht : t ∈ Split.contributions branches plans context ends)
    (hbad : t.outcome.status.isUnsuccessful = true) :
    ∃ names, t.outcome.flow ∈ names ∧ (Split.join branches plans context ends).status = .failed ∧
      (Split.join branches plans context ends).exit =
        Exit.failed.withDescription ("failed branches: " ++ String.intercalate ", " names) := by
  have hmem : t.outcome.flow ∈ (((Split.contributions branches plans context ends).map (·.outcome)).filter
      (·.status.isUnsuccessful)).map (·.flow) :=
    List.mem_map.mpr ⟨t.outcome, List.mem_filter.mpr ⟨List.mem_map.mpr ⟨t, ht, rfl⟩, hbad⟩, rfl⟩
  have hne := List.ne_nil_of_mem hmem
  refine ⟨_, hmem, ?_⟩
  simp only [Split.join, Split.aggregate, if_neg hne, and_self]

namespace Tour

variable {t : Tour σ} {s : Executor.Stage σ}

/-- Did a tour end unsuccessfully, or come to no outcome? -/
def Unsuccessful (t : Tour σ) : Prop := ∀ o, t.outcome? = some o → o.status.isUnsuccessful = true

theorem settle_of_unsuccessful (h : t.Unsuccessful) (context : Context) :
    (Split.settle t.graph context t.ending).outcome.status.isUnsuccessful = true ∧
      (Split.settle t.graph context t.ending).outcome.flow = t.graph.name := by
  cases houtcome : t.outcome? with
  | some o =>
    rw [outcome_of_settle houtcome]
    obtain ⟨x, hx, rfl⟩ := Option.map_eq_some_iff.mp houtcome
    exact ⟨h _ houtcome, flow_of_traversal hx⟩
  | none =>
    cases hend : t.ending with
    | finished x =>
      have hnone : t.traversal? = none := Option.map_eq_none_iff.mp houtcome
      unfold ending at hend
      unfold traversal? at hnone
      split at hend
      next y kept hcame =>
        rw [hcame] at hnone
        cases hnone
      · cases hend
      · cases hend
      · cases hend
    | aborted reason => exact ⟨rfl, rfl⟩
    | panicked => exact ⟨rfl, rfl⟩
    | lost => exact ⟨rfl, rfl⟩

theorem joined_of_unsuccessful (hs : s ∈ t.visits) {branches : List Graph} {v : Visit}
    (hkind : s.node.kind = .split branches) (hv : s.came = .ok v) (hlevels : 0 < t.levels) {x : Nat × Tour σ}
    (hx : x ∈ t.branches s) (hbad : x.2.Unsuccessful) :
    ∃ names, x.2.graph.name ∈ names ∧ v.status = .failed ∧
      v.exit = Exit.failed.withDescription ("failed branches: " ++ String.intercalate ", " names) := by
  obtain ⟨hwalks, rfl⟩ := joined_of_came hs hkind hlevels hv
  obtain ⟨hstatus, hflow⟩ := settle_of_unsuccessful hbad s.pos.progress.context
  have hrun : (x.1, x.2.graph, x.2.start) ∈ Split.toRun branches (Split.plan s.pos.prior branches) := by
    have hmem : (x.1, x.2.graph, x.2.start) ∈ s.walks := by
      rw [← hwalks]
      exact List.mem_map.mpr ⟨x, hx, rfl⟩
    simpa only [Executor.Stage.walks, hkind] using hmem
  have hmem := Split.settle_mem_contributions hrun s.pos.progress.context
    ((t.branches s).map fun y => (y.1, y.2.ending))
  rw [endAt_branches hs hkind hlevels hv hx] at hmem
  obtain ⟨names, hname, hjoin⟩ := Split.join_of_unsuccessful hmem hstatus
  rw [hflow] at hname
  exact ⟨names, hname, hjoin⟩

/-- What goes wrong at the visits of a traversal stays there. -/
structure Contains (t : Tour σ) (I : Dict Definition → σ → Prop) : Prop where
  /-- No visit is broken off but by the deadline of a guard that the traversal is inside of. -/
  came : ∀ s ∈ t.visits, (∃ v, s.came = .ok v) ∨ ∃ n < t.world.deadlines.length, s.came = .error (.expired n)
  failed : ∀ s ∈ t.visits, ∀ text, Executor.GoesWrong t.ex t.graph s.node s.pos.progress s.entered text →
    s.came = .ok (Visit.failed text)
  /-- A launched job that fails is a visit with its status and exit. -/
  reported : ∀ s ∈ t.visits, ∀ run depth job parameters report w,
    Executor.Launches t.ex s.node s.pos.progress run depth job parameters →
    (run depth job parameters).run s.entered = (.ok (.ok report), w) →
    s.came = .ok { status := report.status, exit := report.exit }
  /-- A split fails if a branch does, and names it. -/
  branches : ∀ s ∈ t.visits, ∀ branches v, s.node.kind = .split branches → s.came = .ok v → 0 < t.levels →
    ∀ x ∈ t.branches s, x.2.Unsuccessful → ∃ names, x.2.graph.name ∈ names ∧ v.status = .failed ∧
      v.exit = Exit.failed.withDescription ("failed branches: " ++ String.intercalate ", " names)
  missing : ∀ s ∈ t.visits, ∀ f, t.ex.units.missing? s.node = some f → s.came = .ok (Visit.ofFailure f)
  /-- A visit that is followed by another is in the progress and the record, and was routed
      by its exit. -/
  chained : ∀ before s s' after, t.visits = before ++ s :: s' :: after → ∃ v target, s.came = .ok v ∧
    v.failure = none ∧ (s.pos.folded s.node v).route s.node v (s.stopping t.ex.scope.token) = .goto target ∧
      s'.pos = s.pos.onward s.node v target
  /-- The last one is routed likewise, unless its unit is not registered. -/
  closed : ∀ before s o, t.visits = before ++ [s] → t.outcome? = some o →
    ∃ v, s.came = .ok v ∧ o = s.closing t.ex v
  inside : ∀ s ∈ t.visits, ∀ x ∈ t.branches s, Executor.Stays I t.world.deadlines x.2.world

theorem stays_of_mem_followed {ex : Executor σ} (hex : ex.Prompt I) {levels : Nat} {context : Context}
    {halted : List Halt} {starts : List (Nat × Graph × FlowStart)} {guards : List Nat} {w : World σ}
    (hw : Executor.Stays I guards w) :
    ∀ x ∈ ex.followed levels context halted starts w, Executor.Stays I guards x.2.world := by
  refine Executor.world_of_mem_followed (fun graph start w hw => ?_) hw
  exact hw.run (Executor.ends_traverse hex (Executor.ends_walkBranch hex levels) graph start context none) rfl

theorem contains (hex : t.ex.Prompt I) (hplaces : t.ex.config.maxParallelBranches ≤ Executor.maxPlaces)
    (hw : I t.world.jobs t.world.memory) : t.Contains I := by
  have hwalk : Executor.WalkEnds (t.ex.walkBranch t.levels) I := Executor.ends_walkBranch hex t.levels
  have hentered : ∀ s ∈ t.visits, Executor.Stays I t.world.deadlines s.entered :=
    Executor.stays_entered hex hwalk ⟨hw, rfl⟩ t.start t.context t.record
  have hcame : ∀ s ∈ t.visits,
      ((t.ex.visit (t.ex.walkBranch t.levels) t.graph s.node s.pos.progress s.pos.prior).run s.entered).1 = s.came :=
    fun s hs => Executor.came_of_mem_trail hs
  refine ⟨?_, ?_, ?_, ?_, ?_, ?_, ?_, ?_⟩
  · intro s hs
    rw [← hcame s hs]
    exact (hentered s hs).under (Executor.ends_visit hex hwalk (Or.inl hplaces) t.graph s.node _ _)
  · intro s hs text hwrong
    rw [← hcame s hs]
    exact Executor.visit_of_goesWrong hwrong _ _
  · intro s hs run depth job parameters report w hlaunches hreport
    rw [← hcame s hs]
    exact Executor.visit_of_report hlaunches hreport _ _
  · intro s hs branches v hkind hv hlevels x hx hbad
    exact joined_of_unsuccessful hs hkind hv hlevels hx hbad
  · intro s hs f hmissing
    rw [← hcame s hs]
    exact Executor.visit_of_missing hmissing _ _
  · intro before s s' after hmade
    exact t.course.chained hmade
  · intro before s o hmade ho
    obtain ⟨x, hx, rfl⟩ := Option.map_eq_some_iff.mp ho
    obtain ⟨kept, hkept⟩ := traversal?_eq_some hx
    exact t.course.closed hmade hkept
  · intro s hs x hx
    unfold Tour.branches at hx
    split at hx
    · cases hx
    · exact stays_of_mem_followed hex (hentered s hs) x hx

end Tour

/-! ## Runs -/

namespace Runner

/-- How a run ends that has opened this attempt. -/
inductive Concluded (r : Runner σ) (inner : Run σ) (depth : Nat) (d : Definition) (o : Opened σ)
    (run : Act σ (Except JobError Report)) (w : World σ) : Except Halt (Except JobError Report) → World σ → Prop
  /-- It seals the attempt's record, and nothing is stored after that. -/
  | sealed {report : Report} {h : Repository} {w' : World σ} : r.sealed? inner depth d o = some report.record →
      report.record.id = o.record.id → report.record.finalStatus = some report.status →
      report.record.finalExit = some report.exit → h.append report.record = (.ok (), w'.repository) →
      Concluded r inner depth d o run w (.ok (.ok report)) w'
  /-- A record of this attempt could not be appended. -/
  | unkept {e : CheckpointError} {rec : Record} {w₁ w' : World σ} : run.Passes w w₁ → rec.id = o.record.id →
      (w₁.repository.append rec).1 = .error (.refused e.cause) →
      Concluded r inner depth d o run w (.ok (.error (.flow (.checkpoint e)))) w'
  /-- A guard around the run drops it. -/
  | dropped {n : Nat} {w' : World σ} : n < w.deadlines.length →
      Concluded r inner depth d o run w (.error (.expired n)) w'

def tourOf (r : Runner σ) (inner : Run σ) (depth : Nat) (d : Definition) (o : Opened σ) : Tour σ :=
  { ex := r.executorOf inner depth o
    levels := d.graph.nesting
    graph := d.graph
    start := o.start
    context := o.record.context
    record := some o.record
    world := o.world }

variable {r : Runner σ} {inner : Run σ} {depth : Nat} {d : Definition} {parameters : Parameters} {o : Opened σ}
  {w : World σ}

/-- An attempt is opened with the jobs, the memory and the guards as they were. -/
theorem stays_of_opened (ho : opened? d parameters w = some o) (hw : I w.jobs w.memory) :
    Executor.Stays I w.deadlines o.world := by
  have hw : Executor.Stays I w.deadlines w := ⟨hw, rfl⟩
  obtain ⟨claimed, begun, hclaim, hbegin, hworld⟩ := opened?_eq_some ho
  have hclaimed := hw.run (H := Halt.IsPanic) (Act.Ends.update fun w => by split <;> exact ⟨rfl, rfl, rfl⟩) hclaim
  have hbegun := hclaimed.run (ends_begin? d _ parameters) hbegin
  rw [hworld]
  exact hbegun.run (H := Halt.IsPanic) (Act.ends_publish _) (by rfl)

theorem short?_of_opened (ho : opened? d parameters w = some o) : o.record.instanceId.short?.isSome = true := by
  obtain ⟨latest, point, fresh, now, -, -, -, hrecord⟩ := start_of_opened ho
  rw [hrecord]
  exact InstanceId.isSome_short?_derive d.name parameters

/-- Nothing but a deadline from outside breaks off a visit, and only that a traversal. -/
theorem expired_of_broken (hlimit : r.config.maxNodeVisits < Text.maxU32) (ho : opened? d parameters w = some o)
    (hcontains : (r.tourOf inner depth d o).Contains I)
    {h : Halt} {w₁ : World σ}
    (htraverse : ((r.executorOf inner depth o).traverseGraph d.graph o.start o.record.context (some o.record)).run
      o.world = (.error h, w₁)) : ∃ n, n < o.world.deadlines.length ∧ h = .expired n := by
  have hnoted : ∀ (rec : Record) p o, rec.instanceId.short?.isSome = true →
      (Executor.noted rec p o).instanceId.short?.isSome = true := by
    intro rec p o hrec
    rwa [instanceId_noted]
  have hfirst : ∀ rec ∈ (Executor.Position.start d.graph o.start o.record.context (some o.record)).record,
      rec.instanceId.short?.isSome = true := by
    rintro rec ⟨⟩
    exact short?_of_opened ho
  obtain ⟨hrun, -⟩ := Executor.run_traverse (r.executorOf inner depth o) _ d.graph o.start o.record.context
    (some o.record) o.world
  rcases Executor.broken_of_loop hnoted hfirst (hrun.symm.trans htraverse) with ⟨s, hlast, hcame⟩ |
    ⟨-, rec, w₂, hrec, -, hanswer⟩ | ⟨-, hgreatest, -⟩
  · rcases hcontains.came s (List.mem_of_getLast? hlast) with ⟨v, hv⟩ | ⟨n, hn, hexpired⟩
    · rw [hcame] at hv
      cases hv
    · rw [hcame] at hexpired
      cases hexpired
      exact ⟨n, hn, rfl⟩
  · exact absurd hanswer (Repository.append_ne_unwritable hrec w₂.repository)
  · exact absurd hlimit (Nat.not_lt.mpr hgreatest)

/-- A traversal that comes to no outcome could not store one of the attempt's records. -/
theorem unkept_of_error (hgraph : d.graph.Valid) (ho : opened? d parameters w = some o) {e : FlowError}
    {kept : Option Record} {w₁ : World σ}
    (htraverse : ((r.executorOf inner depth o).traverseGraph d.graph o.start o.record.context (some o.record)).run
      o.world = (.ok (.error e, kept), w₁)) :
    ∃ c rec w₂, e = .checkpoint c ∧ rec.id = o.record.id ∧ (w₂.repository.append rec).1 = .error (.refused c.cause) ∧
      ((r.executorOf inner depth o).traverseGraph d.graph o.start o.record.context (some o.record)).Passes o.world w₂ := by
  have hcourse := r.course_of_visits inner depth d o
  rw [htraverse] at hcourse
  have hcontained := contains_of_opened hgraph ho
  obtain ⟨-, c, rfl⟩ := hcourse.error_eq rfl hcontained fun id n hn t ht target htarget =>
    hgraph.contains_target hn ht htarget
  obtain ⟨rec, w₂, ⟨first, hfirst, hrec⟩, hpasses, hrefused⟩ :=
    Executor.appendFails_of_traverse (congrArg Prod.fst htraverse)
  cases hfirst
  exact ⟨c, rec, w₂, rfl, hrec.id_eq, hrefused, hpasses⟩

theorem concluded (hlimit : r.config.maxNodeVisits < Text.maxU32) (hjob : w.jobs.get? job = some d)
    (hgraph : d.graph.Valid) (ho : opened? d parameters w = some o)
    (hcontains : (r.tourOf inner depth d o).Contains I) (hguards : o.world.deadlines = w.deadlines) :
    Concluded r inner depth d o (r.runOver inner depth job parameters) w
      ((r.runOver inner depth job parameters).run w).1 ((r.runOver inner depth job parameters).run w).2 := by
  have hfirst := not_sealed_of_opened ho
  have hshort := short?_of_opened ho
  obtain ⟨w', hrun, hrepository, -⟩ := run_of_opened r inner depth hjob ho
  rw [hrun]
  cases htraverse : ((r.executorOf inner depth o).traverseGraph d.graph o.start o.record.context (some o.record)).run
      o.world with
  | mk x w₁ =>
    rcases x with h | ⟨e | t, kept⟩
    · obtain ⟨n, hn, rfl⟩ := expired_of_broken hlimit ho hcontains htraverse
      have hexecute : ((r.executorOf inner depth o).execute d.graph o.start o.record).run o.world =
          (.error (.expired n), w₁) := Act.run_bind_error htraverse
      rw [hexecute]
      exact .dropped (hguards ▸ hn)
    · obtain ⟨c, rec, w₂, rfl, hid, hrefused, hpasses⟩ := unkept_of_error hgraph ho htraverse
      have hexecute : (((r.executorOf inner depth o).execute d.graph o.start o.record).run o.world).1 =
          .ok (.error (.checkpoint c), kept.getD o.record) := by
        rw [Executor.execute, Act.run_bind_ok htraverse]
        rfl
      rw [hexecute]
      exact .unkept (passes_of_opened r inner depth hjob ho hpasses) hid hrefused
    · have hexecute := Executor.run_execute hfirst htraverse
      obtain ⟨now, w₂, hnow, ⟨w₃, happend, hclosing⟩ | ⟨e, w₃, hrefused, hclosing⟩⟩ :=
        Executor.run_closing_of_short hshort t w₁
      · rw [hexecute, hclosing] at hrepository ⊢
        rw [← hrepository] at happend
        refine .sealed ?_ rfl rfl rfl happend
        simp only [sealed?, hexecute, hclosing]
      · have hpasses := passes_of_execute r inner depth hjob ho
          (Executor.passes_execute hfirst htraverse (.bind_right hnow (.start _ w₂)))
        have hid : (o.record.closed t now).id = o.record.id := rfl
        rw [hexecute, hclosing]
        exact .unkept hpasses hid hrefused

/-- Where units return, launches and visits are limited below the greatest numbers they are
    counted with, and there are places for the branches: whatever goes wrong at a node of an
    attempt, at one of its branches or at the jobs it launches stays at that node, and a run
    that opened an attempt seals and stores it, or could not store one of its own records. -/
theorem failures_contained (r : Runner σ) (hlimit : r.config.maxSubJobDepth < Text.maxU8)
    (hvisits : r.config.maxNodeVisits < Text.maxU32) (hplaces : r.config.maxParallelBranches ≤ Executor.maxPlaces)
    {levels₀ levels : Nat} (hunits : r.Returns I levels₀)
    (hlevels : levels₀ + (r.config.maxSubJobDepth - depth) ≤ levels) :
    (∀ (t : Tour σ) record token, t.ex = r.executor (r.run levels) record depth token →
      I t.world.jobs t.world.memory → t.Contains I) ∧
    ∀ (w : World σ) job d parameters o, I w.jobs w.memory → w.jobs.get? job = some d → d.graph.Valid →
      opened? d parameters w = some o →
      (r.tourOf (r.run levels) depth d o).Contains I ∧
      Concluded r (r.run levels) depth d o (r.run (levels + 1) depth job parameters) w
        ((r.run (levels + 1) depth job parameters).run w).1 ((r.run (levels + 1) depth job parameters).run w).2 := by
  have hprompt : ∀ record token, (r.executor (r.run levels) record depth token).Prompt I := by
    intro record token
    refine prompt_of_returns hunits (by omega) fun hdeep job parameters => ?_
    refine ends_run hlimit hunits ?_ job parameters
    unfold Executor.deeper at hdeep ⊢
    omega
  have hcontains : ∀ (t : Tour σ) record token, t.ex = r.executor (r.run levels) record depth token →
      I t.world.jobs t.world.memory → t.Contains I := by
    intro t record token hex hw
    refine Tour.contains ?_ ?_ hw
    · rw [hex]
      exact hprompt record token
    · rw [hex]
      exact hplaces
  refine ⟨hcontains, ?_⟩
  intro w job d parameters o hw hjob hgraph ho
  obtain ⟨hopened, hguards⟩ := stays_of_opened ho hw
  have htour : (r.tourOf (r.run levels) depth d o).Contains I := hcontains _ o.record o.token rfl hopened
  exact ⟨htour, concluded hvisits hjob hgraph ho htour hguards⟩

end Runner

/-! ### A delivery on which everything goes wrong -/

namespace Mishaps

def delivery : Definition :=
  { graph :=
      ⟨"delivery", "load",
        [⟨"load", .step "load", [.goto "FAILED" "hand over"]⟩,
          ⟨"hand over", .subJob "carrier" [], [.goto "FAILED" "close"]⟩, ⟨"close", .step "close", []⟩]⟩ }

def runner : Runner Unit :=
  { config := { maxSubJobDepth := 1 }
    units :=
      { step := fun name => if name = "load" then some fun _ _ => .finish () (.error ["no room", "disk full"]) else none
        decider := fun _ => none } }

def world : World Unit :=
  { repository := { store := .table Table.empty }
    jobs := Dict.empty.insert "delivery" delivery
    bus := Bus.ofCapacity 4
    clock := { origin := Instant.ofSeconds 0 0 }
    memory := () }

theorem returns : runner.Returns Anything 0 := by
  refine Runner.returns_of_plain ?_ nofun
  intro name unit hunit b m
  simp only [runner] at hunit
  split at hunit
  · cases hunit
    exact .finish _ _
  · cases hunit

theorem valid : delivery.graph.Valid := by
  have hbuild : (⟨"delivery", none, delivery.graph.nodes⟩ : Graph.Declaration).build = .ok delivery.graph := by rfl
  refine .mk hbuild fun n hn branches hsplit => ?_
  simp only [delivery, List.mem_cons, List.not_mem_nil, or_false] at hn
  rcases hn with rfl | rfl | rfl <;> cases hsplit

def exits (r : Runner Unit) (o : Opened Unit) : List (String × Option (Status × Exit)) :=
  (r.tourOf (r.run 1) 0 delivery o).visits.map fun s => (s.node.id, s.came.toOption.map fun v => (v.status, v.exit))

def told : List (String × Option (Status × Exit)) :=
  [("load", some (.failed, ⟨"FAILED", "no room: disk full"⟩)),
    ("hand over", some (.failed, ⟨"FAILED", "unknown job 'carrier'"⟩)),
    ("close", some (.failed, ⟨"FAILED", "node 'close' references unregistered step 'close'"⟩))]

def verdict (r : Runner Unit) (w : World Unit) : Option (Status × Option Failure) :=
  match ((r.run 2 0 "delivery" Dict.empty).run w).1 with
  | .ok (.ok report) => some (report.status, report.record.failure)
  | _ => none

theorem mishaps_stay : ∃ o report, Runner.opened? delivery Dict.empty world = some o ∧
    (runner.tourOf (runner.run 1) 0 delivery o).Contains Anything ∧
    exits runner o = told ∧
    ((runner.run 2 0 "delivery" Dict.empty).run world).1 = .ok (.ok report) ∧ report.record.id = o.record.id ∧
    report.record.finalStatus = some .failed ∧ report.record.failure = some (.unknownStep "close" "close") := by
  have hexits : (Runner.opened? delivery Dict.empty world).map (exits runner) = some told := by decide +kernel
  have hverdict : verdict runner world = some (.failed, some (.unknownStep "close" "close")) := by decide +kernel
  obtain ⟨o, ho, hexits⟩ := Option.map_eq_some_iff.mp hexits
  have hlevels : 0 + (runner.config.maxSubJobDepth - 0) ≤ 1 := by decide
  obtain ⟨htour, hconcluded⟩ :=
    (Runner.failures_contained runner (by decide) (by decide) (by decide) returns hlevels).2 world
    "delivery" delivery Dict.empty o trivial (Dict.get?_insert_self _ _ _) valid ho
  unfold verdict at hverdict
  generalize hrun : ((runner.run 2 0 "delivery" Dict.empty).run world).1 = came at hverdict
  rw [hrun] at hconcluded
  cases hconcluded with
  | @sealed report h w' hsealed hid hstatus hexit hstored =>
    obtain ⟨hfailed, hfailure⟩ := Prod.mk.inj (Option.some.inj hverdict)
    rw [hfailed] at hstatus
    exact ⟨o, report, ho, htour, hexits, rfl, hid, hstatus, hfailure⟩
  | unkept => cases hverdict
  | dropped => cases hverdict

/-! ### A carrier with words of its own, and a flow without an end -/

def carrier : Definition := { graph := ⟨"carrier", "weigh", [⟨"weigh", .step "weigh", []⟩]⟩ }

def served : Runner Unit :=
  { runner with
    units :=
      { runner.units with
        step := fun name =>
          if name = "weigh" then
            some fun _ _ => .finish () (.result { status := .failed, exit := ⟨"REJECTED", "too heavy"⟩ })
          else runner.units.step name } }

def servedWorld : World Unit := { world with jobs := world.jobs.insert "carrier" carrier }

def flood : Definition := { graph := Executor.floodGraph }

def flooded : Runner Nat := { config := { maxNodeVisits := Text.maxU32 }, units := Executor.refillUnits }

def flooding : World Nat := { Executor.idleWorld with jobs := Dict.empty.insert "flood" flood }

/-- A record of the attempt is the only one of its instance, in memory, and no call to that
    fails. -/
structure Lone (first : Record) (record : Option Record) (h : Repository) : Prop where
  faultless : h.faults = fun _ _ => none
  held : ∃ r s, record = some r ∧ r.Continues first ∧ h.store = .shelf s ∧ s.list first.instanceId = [r]

theorem opened_flood : ∃ o, Runner.opened? flood Dict.empty flooding = some o ∧ o.start = { node := "load" } ∧
    o.world.cancelled = [] ∧ Lone o.record (some o.record) o.world.repository := by
  refine ⟨_, rfl, rfl, rfl, rfl, _, _, rfl, .refl _, rfl, ?_⟩
  exact (Shelf.list_insert _ _ _ _).trans (if_pos rfl)

theorem Lone.node {first kept : Record} {record : Option Record} {w : World Nat} (h : Lone first record w.repository)
    (hkept : kept.Continues first) :
    ∃ w₁, (Checkpoint.node kept).run w = (.ok (.ok ()), w₁) ∧ w₁.cancelled = w.cancelled ∧
      Lone first (some kept) w₁.repository := by
  obtain ⟨hfaults, r, s, -, hr, hstore, hlist⟩ := h
  have hid : r.id = kept.id := hr.id_eq.trans hkept.id_eq.symm
  have hinstance : kept.instanceId = first.instanceId := by
    have := congrArg Record.instanceId hkept
    exact this
  have hshelf : s.append kept = .ok ⟨s.attempts.insert first.instanceId.text [kept]⟩ := by
    simp [Shelf.append, Shelf.replace, hinstance, hlist, hid]
  have happend : w.repository.append kept = (.ok (), { w.repository with
      store := .shelf ⟨s.attempts.insert first.instanceId.text [kept]⟩
      counts := (w.repository.counts.next .append).2 }) := by
    simp only [Repository.append, Repository.call, hfaults, hstore, Store.append, hshelf, Except.map]
  have hrun : (Act.append kept).run w = (.ok (.ok ()), { w with repository := (w.repository.append kept).2 }) :=
    Prod.ext (Act.append_of_ok (congrArg Prod.fst happend)) (Act.world_append w kept)
  obtain ⟨live, hnode⟩ : ∃ live, (Checkpoint.node kept).run w =
      (.ok (.ok ()), { w with repository := (w.repository.append kept).2, live }) := by
    simp only [Checkpoint.node, Checkpoint.persist, Act.run_bind, hrun]
    exact ⟨_, rfl⟩
  refine ⟨_, hnode, rfl, ?_⟩
  show Lone first (some kept) (w.repository.append kept).2
  rw [happend]
  exact ⟨hfaults, kept, _, rfl, hkept, rfl, (Shelf.list_insert _ _ _ _).trans (if_pos rfl)⟩

theorem Lone.accepting (first : Record) : Executor.Accepting (Lone first) := by
  intro record p o w h
  obtain ⟨r, -, rfl, hr, -⟩ := h.held
  obtain ⟨w₁, hnode, hcancelled, hlone⟩ := h.node (hr.noted p o)
  exact ⟨w₁, Act.run_bind_ok hnode, hcancelled, hlone⟩

/-- A job that runs and fails is told in its own words, and no route for failures takes them.
    A flow that can no longer count its visits leaves its record as its last visit did. -/
theorem not_all_contained :
    ((Runner.opened? delivery Dict.empty servedWorld).map (exits served) =
        some [("load", some (.failed, ⟨"FAILED", "no room: disk full"⟩)),
          ("hand over", some (.failed, ⟨"REJECTED", "too heavy"⟩))] ∧
      verdict served servedWorld = some (.failed, some (.unresolvedTransition "hand over" "REJECTED"))) ∧
    ∃ o rec, Runner.opened? flood Dict.empty flooding = some o ∧ rec.id = o.record.id ∧ rec.finalStatus = none ∧
      ((flooded.run 1 0 "flood" Dict.empty).run flooding).1 = .error (.panic Executor.countOverflow) ∧
      ((flooded.run 1 0 "flood" Dict.empty).run flooding).2.repository.store.latest? o.record.instanceId =
        .ok (some rec) := by
  refine ⟨by decide +kernel, ?_⟩
  obtain ⟨o, ho, hstart, hcancelled, hlone⟩ := opened_flood
  let ex := flooded.executorOf (flooded.run 0) 0 o
  have htraverse := (Executor.run_traverse ex (ex.walkBranch flood.graph.nesting) Executor.floodGraph o.start
    o.record.context (some o.record) o.world).1
  have hloading : Executor.Loading (Lone o.record)
      (.start Executor.floodGraph o.start o.record.context (some o.record))
      ((ex.setPhase (some o.record) .pending none).run o.world).2 :=
    ⟨by rw [hstart]; rfl, hcancelled, hlone⟩
  obtain ⟨last, left, hloop, -, -, -, rec, s, -, hrec, hstore, hlist⟩ :=
    Executor.loop_overflows (Nat.le_refl Text.maxU32)
      (Executor.loading_leads (Lone.accepting o.record) ex (ex.walkBranch flood.graph.nesting)) hloading
  have hexecute : (ex.execute flood.graph o.start o.record).run o.world =
      (.error (.panic Executor.countOverflow), left) := Act.run_bind_error (htraverse.trans hloop)
  obtain ⟨w', hrun, hrepository, -⟩ :=
    Runner.run_of_opened flooded (flooded.run 0) 0 (show flooding.jobs.get? "flood" = some flood from rfl) ho
  rw [hexecute] at hrun hrepository
  have hended : (flooded.run 1 0 "flood" Dict.empty).run flooding = (.error (.panic Executor.countOverflow), w') := hrun
  have hfinal : rec.finalStatus = o.record.finalStatus := by
    have := congrArg Record.finalStatus hrec
    exact this
  refine ⟨o, rec, ho, hrec.id_eq, hfinal.trans (Runner.not_sealed_of_opened ho), by rw [hended], ?_⟩
  rw [hended, hrepository, hstore]
  simp [Store.latest?, Shelf.latest?, hlist]

end Mishaps

end Switchyard
