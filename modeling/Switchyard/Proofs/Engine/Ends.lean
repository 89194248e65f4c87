import Switchyard.Engine.Runner
import Switchyard.Proofs.Engine.Course

/-
  Switchyard.Proofs.Engine.Ends — actions that come to an end, and what may break them off.

  `x.Ends I H` says of every run of `x` from a world whose jobs and memory are in `I`: it
  leaves such a world and the guards as it found them, and it is broken off only by what
  `H` has or by the deadline of a guard that was begun before. The engine's own steps
  change neither jobs nor memory, so `I` is the business of the units alone.

  What is put together from actions that end ends as well. A guard takes its own deadline
  back (`Ends.within`), and where panics become values none is left (`Ends.catchPanic`).

  - `ends_visit`: a visit is never broken off by what a unit or a launched job does.
  - `ends_traverseGraph`, `Runner.ends_runOver`: traversals and runs break off by panics at
    most.
-/

namespace Switchyard

variable {σ α β : Type}

/-! ## Ends -/

/-- What may break an action off under so many guards: what `H` has, or one of their
    deadlines. -/
def Halt.Under (H : Halt → Prop) (guards : Nat) (h : Halt) : Prop := H h ∨ ∃ g < guards, h = .expired g

def Halt.IsPanic (h : Halt) : Prop := ∃ p, h = .panic p

def Halt.Never (_ : Halt) : Prop := False

/-- Once the innermost guard has taken its own deadline back, only those around it are left. -/
theorem Halt.Under.pop {H : Halt → Prop} {guards : Nat} {h : Halt} (hh : h.Under H (guards + 1))
    (hown : h ≠ .expired guards) : h.Under H guards := by
  rcases hh with hH | ⟨g, hg, rfl⟩
  · exact Or.inl hH
  · have hne : g ≠ guards := fun he => hown (congrArg Halt.expired he)
    exact Or.inr ⟨g, by omega, rfl⟩

namespace Act

/-- From a world whose jobs and memory are in `I` an action leaves such a world and the
    guards as they were, and is broken off only by what `H` has or by their deadlines. -/
def Ends (I : Dict Definition → σ → Prop) (H : Halt → Prop) (x : Act σ α) : Prop :=
  ∀ w, I w.jobs w.memory → I (x.run w).2.jobs (x.run w).2.memory ∧ (x.run w).2.deadlines = w.deadlines ∧
    ∀ h, (x.run w).1 = .error h → h.Under H w.deadlines.length

namespace Ends

variable {I : Dict Definition → σ → Prop} {H H' : Halt → Prop} {x : Act σ α}

theorem mono (hx : x.Ends I H) (h : ∀ e, H e → H' e) : x.Ends I H' := by
  intro w hw
  obtain ⟨hI, hguards, hhalt⟩ := hx w hw
  refine ⟨hI, hguards, fun e he => ?_⟩
  rcases hhalt e he with hH | hexpired
  · exact Or.inl (h e hH)
  · exact Or.inr hexpired

theorem pure (a : α) : (Pure.pure a : Act σ α).Ends I H := by
  intro w hw
  exact ⟨hw, rfl, nofun⟩

theorem broken {h : Halt} (hh : H h) : (Act.broken h : Act σ α).Ends I H := by
  intro w hw
  refine ⟨hw, rfl, ?_⟩
  rintro _ ⟨⟩
  exact Or.inl hh

theorem update {f : World σ → α × World σ}
    (h : ∀ w, (f w).2.jobs = w.jobs ∧ (f w).2.memory = w.memory ∧ (f w).2.deadlines = w.deadlines) :
    (Act.update f).Ends I H := by
  intro w hw
  obtain ⟨hjobs, hmemory, hguards⟩ := h w
  refine ⟨?_, hguards, nofun⟩
  rw [run_update, hjobs, hmemory]
  exact hw

theorem change {f : World σ → World σ}
    (h : ∀ w, (f w).jobs = w.jobs ∧ (f w).memory = w.memory ∧ (f w).deadlines = w.deadlines) :
    (Act.change f).Ends I H := update (f := fun w => ((), f w)) h

theorem find (f : World σ → α) : (Act.find f).Ends I H := update (f := fun w => (f w, w)) fun _ => ⟨rfl, rfl, rfl⟩

theorem bind {g : α → Act σ β} (hx : x.Ends I H) (hg : ∀ a, (g a).Ends I H) : (x >>= g).Ends I H := by
  intro w hw
  obtain ⟨hI, hguards, hhalt⟩ := hx w hw
  cases hrun : x.run w with
  | mk r w' =>
    rw [hrun] at hI hguards hhalt
    cases r with
    | error h =>
      rw [run_bind_error hrun]
      refine ⟨hI, hguards, ?_⟩
      rintro _ ⟨⟩
      exact hhalt h rfl
    | ok a =>
      rw [run_bind_ok hrun]
      obtain ⟨hI', hguards', hhalt'⟩ := hg a w' hI
      refine ⟨hI', hguards'.trans hguards, fun h hh => ?_⟩
      rw [← show w'.deadlines.length = w.deadlines.length from congrArg List.length hguards]
      exact hhalt' h hh

/-- An action that goes on whatever breaks another one off. A deadline that is handed on
    is one of the guards begun before. -/
theorem attempt_bind {g : Except Halt α → Act σ β} (hx : x.Ends I H') (hok : ∀ a, (g (.ok a)).Ends I H)
    (hhalt : ∀ h, H' h → (g (.error h)).Ends I H)
    (hexpired : ∀ n, (g (.error (.expired n))).Ends I fun h => H h ∨ h = .expired n) :
    (x.attempt >>= g).Ends I H := by
  intro w hw
  obtain ⟨hI, hguards, hunder⟩ := hx w hw
  have hlength : (x.run w).2.deadlines.length = w.deadlines.length := congrArg List.length hguards
  have hrun : (x.attempt >>= g).run w = (g (x.run w).1).run (x.run w).2 := run_bind_ok (run_attempt x w)
  rw [hrun]
  cases hr : (x.run w).1 with
  | ok a =>
    obtain ⟨hI', hguards', hunder'⟩ := hok a _ hI
    refine ⟨hI', hguards'.trans hguards, fun h hh => ?_⟩
    rw [← hlength]
    exact hunder' h hh
  | error e =>
    rcases hunder e hr with he | ⟨n, hn, rfl⟩
    · obtain ⟨hI', hguards', hunder'⟩ := hhalt e he _ hI
      refine ⟨hI', hguards'.trans hguards, fun h hh => ?_⟩
      rw [← hlength]
      exact hunder' h hh
    · obtain ⟨hI', hguards', hunder'⟩ := hexpired n _ hI
      refine ⟨hI', hguards'.trans hguards, fun h hh => ?_⟩
      rcases hunder' h hh with (hH | rfl) | ⟨m, hm, rfl⟩
      · exact Or.inl hH
      · exact Or.inr ⟨n, hn, rfl⟩
      · exact Or.inr ⟨m, hlength ▸ hm, rfl⟩

/-- Under a deadline of its own an action ends as it does without. -/
theorem within (seconds : Option Nat) (hx : x.Ends I H) : (Act.within seconds x).Ends I H := by
  cases seconds with
  | none => exact hx.bind fun a => .pure _
  | some s =>
    intro w hw
    obtain ⟨hI, hguards, hunder⟩ := hx { w with deadlines := (w.clock.waited + s * 1000) :: w.deadlines } hw
    simp only [Act.within, pushDeadline, popDeadline, run_bind, run_update, run_attempt, run_change]
    generalize hrun : x.run _ = result at hI hguards hunder ⊢
    obtain ⟨r, w'⟩ := result
    simp only at hI hguards hunder
    have hpopped : w'.deadlines.tail = w.deadlines := by rw [hguards, List.tail_cons]
    have hother : ∀ h, r = .error h → h ≠ .expired w.deadlines.length → h.Under H w.deadlines.length :=
      fun h hr hown => (hunder h hr).pop hown
    rcases r with (p | _ | g | _) | a
    · exact ⟨hI, hpopped, by rintro _ ⟨⟩; exact hother _ rfl nofun⟩
    · exact ⟨hI, hpopped, by rintro _ ⟨⟩; exact hother _ rfl nofun⟩
    · by_cases hown : g = w.deadlines.length
      · simp only [hown, if_true]
        exact ⟨hI, hpopped, nofun⟩
      · simp only [if_neg hown]
        exact ⟨hI, hpopped, by rintro _ ⟨⟩; exact hother _ rfl fun he => hown (Halt.expired.inj he)⟩
    · exact ⟨hI, hpopped, by rintro _ ⟨⟩; exact hother _ rfl nofun⟩
    · exact ⟨hI, hpopped, nofun⟩

end Ends

/-! ## Single steps -/

variable {I : Dict Definition → σ → Prop} {H : Halt → Prop}

theorem ends_now : (now : Act σ Instant).Ends I H := .update fun _ => ⟨rfl, rfl, rfl⟩

theorem ends_freshId : (freshId : Act σ ExecutionId).Ends I H := .update fun _ => ⟨rfl, rfl, rfl⟩

theorem ends_publish (e : Event) : (publish e : Act σ Unit).Ends I H := .change fun _ => ⟨rfl, rfl, rfl⟩

theorem ends_cancel (t : Token) : (cancel t : Act σ Unit).Ends I H := .change fun _ => ⟨rfl, rfl, rfl⟩

theorem ends_call (f : Repository → α × Repository) : (call f : Act σ α).Ends I H := .update fun _ => ⟨rfl, rfl, rfl⟩

/-- A record that cannot be kept is an error; only one that cannot be told of panics. -/
theorem ends_append (r : Record) : (append r : Act σ (Except StoreError Unit)).Ends I Halt.IsPanic := by
  refine (ends_call _).bind fun stored => ?_
  rcases stored with (e | _) | _
  · exact .pure _
  · exact .broken ⟨_, rfl⟩
  · exact .pure _

/-- The guard is the innermost one or one of those outside of it. -/
theorem firstExpired_cons (target : Option Nat) (d : Nat) (outer : List Nat) :
    firstExpired target (d :: outer) = some (outer.length, d) ∨
      firstExpired target (d :: outer) = firstExpired target outer := by
  cases target with
  | none => grind [firstExpired]
  | some t => grind [firstExpired]

theorem firstExpired_lt {target : Option Nat} {deadlines : List Nat} {g d : Nat}
    (h : firstExpired target deadlines = some (g, d)) : g < deadlines.length := by
  induction deadlines generalizing g d with
  | nil => cases h
  | cons first outer ih =>
    rcases firstExpired_cons target first outer with hown | hrest
    · rw [hown] at h
      cases h
      exact Nat.lt_succ_self _
    · rw [hrest] at h
      exact Nat.lt_succ_of_lt (ih h)

/-- Waiting is broken off only by a deadline of a guard that was begun before. -/
theorem ends_wait (millis : Nat) : (wait millis : Act σ Unit).Ends I H := by
  intro w hw
  simp only [wait, waited, pass, run_bind, run_find, run_update]
  cases h : firstExpired (some (w.clock.waited + millis)) w.deadlines with
  | none =>
    refine ⟨hw, rfl, ?_⟩
    rintro _ ⟨⟩
  | some first =>
    obtain ⟨g, d⟩ := first
    refine ⟨hw, rfl, ?_⟩
    rintro _ ⟨⟩
    exact Or.inr ⟨g, firstExpired_lt h, rfl⟩

end Act

/-! ## Visits -/

def Executor.called (ex : Executor σ) (unit : Briefing → σ → Script σ α) (b : Briefing) : Act σ (Except String α) := do
  let m ← memory
  ex.guarded (unit b m)

/-- Every call of a registered unit ends, and every launch that is not too deep ends or
    panics. -/
structure Executor.Prompt (ex : Executor σ) (I : Dict Definition → σ → Prop) : Prop where
  step : ∀ name unit, ex.units.step name = some unit → ∀ b, (ex.called unit b).Ends I Halt.Never
  decider : ∀ name unit, ex.units.decider name = some unit → ∀ b, (ex.called unit b).Ends I Halt.Never
  launch : ∀ l, ex.launch = some l → deeper ex.scope.depth ≤ ex.config.maxSubJobDepth → ∀ job parameters,
    (l job parameters (deeper ex.scope.depth)).Ends I Halt.IsPanic

namespace Executor

variable {ex : Executor σ} {I : Dict Definition → σ → Prop} {H : Halt → Prop}

/-- Where panics become values, none is left. -/
theorem ends_catchPanic {x : Act σ α} (hx : x.Ends I Halt.IsPanic) : (catchPanic x).Ends I H := by
  refine hx.attempt_bind (fun a => .pure _) ?_ fun n => .broken (Or.inr rfl)
  rintro _ ⟨p, rfl⟩
  exact .pure _

theorem ends_visitStep (hex : ex.Prompt I) (g : Graph) (node : Node Graph) (p : Progress) (name : String) :
    (ex.visitStep g node p name).Ends I H := by
  unfold visitStep
  cases hunit : ex.units.step name with
  | none => exact .pure _
  | some unit =>
    have hcall : (ex.called unit (ex.briefing g node p)).Ends I H := (hex.step name unit hunit _).mono nofun
    dsimp only
    rw [← bind_assoc]
    refine hcall.bind fun r => ?_
    cases r with
    | error text => exact .pure _
    | ok r => exact .pure _

theorem ends_visitDecision (hex : ex.Prompt I) (g : Graph) (node : Node Graph) (p : Progress) (name : String) :
    (ex.visitDecision g node p name).Ends I H := by
  unfold visitDecision
  cases hunit : ex.units.decider name with
  | none => exact .pure _
  | some unit =>
    have hcall : (ex.called unit (ex.briefing g node p)).Ends I H := (hex.decider name unit hunit _).mono nofun
    dsimp only
    rw [← bind_assoc]
    refine hcall.bind fun r => ?_
    cases r with
    | error text => exact .pure _
    | ok exit => exact .pure _

theorem ends_visitSubJob (hex : ex.Prompt I) (p : Progress) (job : String) (keys : List String) :
    (ex.visitSubJob p job keys).Ends I H := by
  unfold visitSubJob
  cases hlaunch : ex.launch with
  | none => exact .pure _
  | some launch =>
    by_cases hdeep : ex.config.maxSubJobDepth < deeper ex.scope.depth
    · simp only [if_pos hdeep]
      exact .pure _
    · simp only [if_neg hdeep]
      refine (ends_catchPanic (hex.launch launch hlaunch (by omega) _ _)).bind fun r => ?_
      rcases r with payload | (chain | ⟨status, exit⟩)
      · exact .pure _
      · exact .pure _
      · exact .pure _

abbrev WalkEnds (walk : BranchWalk σ) (I : Dict Definition → σ → Prop) : Prop :=
  ∀ branch start context, (walk branch start context).Ends I Halt.IsPanic

variable {walk : BranchWalk σ}

theorem ends_allBegun {halted : List Halt} (hhalted : ∀ h ∈ halted, H h) : (allBegun halted : Act σ _).Ends I H := by
  unfold allBegun
  cases h : halted.getLast? with
  | none => exact .pure _
  | some first => exact .broken (hhalted first (List.mem_of_getLast? h))

/-- A branch that panics is over. One whose deadline has passed breaks the split off, once
    the others are over. -/
theorem ends_walkBranches (hwalk : WalkEnds walk I) (context : Context) (starts : List (Nat × Graph × FlowStart))
    {halted : List Halt} (hhalted : ∀ h ∈ halted, H h) : (ex.walkBranches walk context halted starts).Ends I H := by
  induction starts generalizing halted H with
  | nil => exact ends_allBegun hhalted
  | cons first rest ih =>
    obtain ⟨i, branch, start⟩ := first
    unfold walkBranches
    split
    · exact ends_allBegun hhalted
    · refine (hwalk branch start context).attempt_bind ?_ ?_ ?_
      · exact fun e => (ih hhalted).bind fun ends => .pure _
      · rintro _ ⟨p, rfl⟩
        exact (ih hhalted).bind fun ends => .pure _
      · intro n
        refine ih fun h hh => ?_
        rcases List.mem_cons.mp hh with rfl | hh
        · exact Or.inr rfl
        · exact Or.inl (hhalted h hh)

/-- A limit of branches that cannot be kept is a panic. -/
theorem ends_visitSplit (hwalk : WalkEnds walk I)
    (hplaces : ex.config.maxParallelBranches ≤ maxPlaces ∨ H (.panic tooManyPlaces)) (p : Progress)
    (branches : List Graph) (prior : Option (List FlowOutcome)) : (ex.visitSplit walk p branches prior).Ends I H := by
  have hrest : (ex.walkBranches walk p.context [] (Split.toRun branches (Split.plan prior branches)) >>= fun ends =>
      pure (Split.join branches (Split.plan prior branches) p.context ends)).Ends I H :=
    (ends_walkBranches hwalk _ _ nofun).bind fun ends => .pure _
  unfold visitSplit
  by_cases hover : maxPlaces < ex.config.maxParallelBranches
  · simp only [if_pos hover]
    rcases hplaces with hle | hpanic
    · omega
    · exact (Act.Ends.broken hpanic).bind fun _ => hrest
  · simp only [if_neg hover]
    exact hrest

theorem ends_visit (hex : ex.Prompt I) (hwalk : WalkEnds walk I)
    (hplaces : ex.config.maxParallelBranches ≤ maxPlaces ∨ H (.panic tooManyPlaces)) (g : Graph) (node : Node Graph)
    (p : Progress) (prior : Option (List FlowOutcome)) : (ex.visit walk g node p prior).Ends I H := by
  unfold visit
  cases node.kind with
  | step name => exact ends_visitStep hex g node p name
  | decision decider => exact ends_visitDecision hex g node p decider
  | split branches => exact ends_visitSplit hwalk hplaces p branches prior
  | subJob job keys => exact ends_visitSubJob hex p job keys

/-! ## Traversals -/

theorem ends_setPhase (record : Option Record) (phase : Phase) (node : Option String) :
    (ex.setPhase record phase node).Ends I H := by
  cases record with
  | none => exact .pure _
  | some r => exact .change fun _ => ⟨rfl, rfl, rfl⟩

theorem ends_ended (record : Option Record) (p : Progress) (o : FlowOutcome) : (ex.ended record p o).Ends I H :=
  (ends_setPhase record _ _).bind fun _ => .pure _

theorem ends_exceed (node : Node Graph) (pos : Position) : (ex.exceed node pos).Ends I Halt.IsPanic := by
  unfold exceed
  split
  · exact ends_ended _ _ _
  · exact .broken ⟨_, rfl⟩

theorem ends_enter (g : Graph) (node : Node Graph) (record : Option Record) : (ex.enter g node record).Ends I H :=
  (ends_setPhase record _ _).bind fun _ => (Act.ends_publish _).bind fun _ => .find _

theorem ends_persist (r : Record) : (Checkpoint.persist r : Act σ _).Ends I Halt.IsPanic := by
  refine (Act.ends_append r).bind fun stored => ?_
  cases stored <;> exact .pure _

theorem ends_node (r : Record) : (Checkpoint.node r : Act σ _).Ends I Halt.IsPanic := by
  refine (ends_persist r).bind fun stored => ?_
  cases stored with
  | error e => exact .pure _
  | ok u => exact (Act.Ends.change fun _ => ⟨rfl, rfl, rfl⟩).bind fun _ => .pure _

theorem ends_keep (record : Option Record) (p : Progress) (o : NodeOutcome) :
    (keep record p o : Act σ _).Ends I Halt.IsPanic := by
  cases record with
  | none => exact .pure _
  | some r => exact (ends_node _).bind fun _ => .pure _

theorem ends_leave (g : Graph) (node : Node Graph) (pos : Position) (started : Nat) (v : Visit) :
    (ex.leave g node pos started v).Ends I Halt.IsPanic := by
  refine (Act.Ends.find _).bind fun finished => (Act.ends_publish _).bind fun _ => ?_
  refine (ends_keep pos.record _ _).bind fun ⟨stored, record⟩ => ?_
  cases stored with
  | error e => exact .pure _
  | ok u =>
    dsimp only
    split
    · exact (ends_ended record _ _).bind fun _ => .pure _
    · refine (ends_setPhase record _ _).bind fun _ => (Act.Ends.find _).bind fun stopping => ?_
      split
      · exact (ends_ended record _ _).bind fun _ => .pure _
      · exact .pure _

theorem ends_loop (hex : ex.Prompt I) (hwalk : WalkEnds walk I) (g : Graph) (room : Nat) (pos : Position) :
    (ex.loop walk g room pos).Ends I Halt.IsPanic := by
  induction room generalizing pos with
  | zero =>
    rw [loop_zero]
    cases g.node? pos.node with
    | none => exact .pure _
    | some node => exact ends_exceed node pos
  | succ room ih =>
    rw [loop_succ]
    cases g.node? pos.node with
    | none => exact .pure _
    | some node =>
      refine (ends_enter g node _).bind fun started => ?_
      refine (ends_visit hex hwalk (Or.inr ⟨_, rfl⟩) g node _ _).bind fun v => ?_
      refine (ends_leave g node pos started v).bind fun turn => ?_
      cases turn with
      | done walked => exact .pure _
      | onward next => exact ih next

theorem ends_traverse (hex : ex.Prompt I) (hwalk : WalkEnds walk I) (g : Graph) (start : FlowStart)
    (context : Context) (record : Option Record) : (ex.traverse walk g start context record).Ends I Halt.IsPanic :=
  (ends_setPhase record _ _).bind fun _ => ends_loop hex hwalk g _ _

theorem ends_walkBranch (hex : ex.Prompt I) (levels : Nat) : WalkEnds (ex.walkBranch levels) I := by
  induction levels with
  | zero => exact fun _ _ _ => .pure _
  | succ levels ih =>
    intro g start context
    refine (ends_traverse hex ih g start context none).bind fun walked => ?_
    rcases walked with ⟨e | t, kept⟩
    · exact .pure _
    · exact .pure _

theorem ends_traverseGraph (hex : ex.Prompt I) (g : Graph) (start : FlowStart) (context : Context)
    (record : Option Record) : (ex.traverseGraph g start context record).Ends I Halt.IsPanic :=
  ends_traverse hex (ends_walkBranch hex _) g start context record

theorem ends_execute (hex : ex.Prompt I) (g : Graph) (start : FlowStart) (record : Record) :
    (ex.execute g start record).Ends I Halt.IsPanic := by
  refine (ends_traverseGraph hex g start _ _).bind fun ⟨x, kept⟩ => ?_
  cases x with
  | error e => exact .pure _
  | ok t =>
    refine Act.ends_now.bind fun now => ?_
    have hsealed : ∀ r, (Checkpoint.sealed r : Act σ _).Ends I Halt.IsPanic := by
      intro r
      refine (ends_persist r).bind fun stored => ?_
      cases stored with
      | error e => exact .pure _
      | ok u => exact (Act.Ends.change fun _ => ⟨rfl, rfl, rfl⟩).bind fun _ => .pure _
    refine (hsealed _).bind fun stored => ?_
    cases stored <;> exact .pure _

end Executor

/-! ## Runs -/

namespace Runner

variable {r : Runner σ} {I : Dict Definition → σ → Prop} {inner : Run σ}

theorem ends_refuse (e : RestartError) : (refuse e : Act σ (Except JobError α)).Ends I Halt.IsPanic := by
  cases e with
  | noAttemptLeft => exact .broken ⟨_, rfl⟩
  | _ => exact .pure _

theorem ends_begin? (d : Definition) (id : InstanceId) (parameters : Parameters) :
    (begin? d id parameters : Act σ _).Ends I Halt.IsPanic := by
  refine (Act.ends_call _).bind fun latest => ?_
  cases latest with
  | error e => exact .pure _
  | ok latest =>
    dsimp only
    cases StartPoint.resolve latest d.graph d.restartable with
    | error e => exact ends_refuse e
    | ok point =>
      refine Act.ends_freshId.bind fun fresh => Act.ends_now.bind fun now => ?_
      have hopen : ∀ r, (Checkpoint.openAttempt r : Act σ _).Ends I Halt.IsPanic := by
        intro r
        refine (Executor.ends_persist r).bind fun stored => ?_
        cases stored with
        | error e => exact .pure _
        | ok u => exact (Act.Ends.change fun _ => ⟨rfl, rfl, rfl⟩).bind fun _ => .pure _
      refine (hopen _).bind fun stored => ?_
      cases stored <;> exact .pure _

theorem ends_releasing (id : InstanceId) {x : Act σ α} (hx : x.Ends I Halt.IsPanic) :
    (releasing id x).Ends I Halt.IsPanic := by
  have hrelease : ∀ (H : Halt → Prop), (release id : Act σ Unit).Ends I H := fun H => .change fun _ => ⟨rfl, rfl, rfl⟩
  refine hx.attempt_bind ?_ ?_ ?_
  · exact fun a => (hrelease _).bind fun _ => .pure _
  · exact fun h hh => (hrelease _).bind fun _ => .broken hh
  · exact fun n => (hrelease _).bind fun _ => .broken (Or.inr rfl)

/-- A run ends if, whatever attempt it opens, the calls and launches of that attempt do. -/
theorem ends_runOver {depth : Nat} (hex : ∀ record t, (r.executor inner record depth t).Prompt I) (job : String)
    (parameters : Parameters) : (r.runOver inner depth job parameters).Ends I Halt.IsPanic := by
  refine (Act.Ends.find _).bind fun d => ?_
  cases d with
  | none => exact .pure _
  | some d =>
    refine (Act.Ends.update fun w => by split <;> exact ⟨rfl, rfl, rfl⟩).bind fun t => ?_
    cases t with
    | none => exact .pure _
    | some t =>
      refine ends_releasing _ ((ends_begin? d _ parameters).bind fun begun => ?_)
      rcases begun with e | ⟨start, record⟩
      · exact .pure _
      · refine (Act.ends_publish _).bind fun _ => (Act.Ends.find _).bind fun before => ?_
        refine (Executor.ends_execute (hex record t) d.graph start record).bind fun ⟨x, sealed⟩ => ?_
        cases x with
        | error e => exact .pure _
        | ok o => exact (Act.Ends.find _).bind fun after => (Act.ends_publish _).bind fun _ => .pure _

end Runner

end Switchyard
