import Switchyard.Proofs.Engine.Views
import Switchyard.Proofs.History.Reached

/-
  Switchyard.Proofs.Engine.Claims — claims and live views are given back, however a run
  ends.

  A run takes the claim of an instance, and its attempt puts a live view up. The seal
  takes the view down, and what gives the claim back takes it down if it still stands. In
  between, the attempt's units and launching nodes may nest runs of any instances, each of
  which does the same, so what a run leaves is told from what it found: the same claims
  under the same tokens, and live views of the same instances (`Restored`). An attempt
  leaves the view of its own instance besides.

  All this needs a world in which every instance with a live view is claimed
  (`Attended`), as requests leave it at every moment.

  - `restoring own`: to leave claims as they were, and live views but for these instances.
  - `restores_run`: by induction on the levels that runs nest.
  - `claims_given_back`: the claim of a run while it goes on and after it has returned.
-/

namespace Switchyard

variable {σ α : Type}

/-- Every instance with a live view is claimed. -/
def Attended (w : World σ) : Prop :=
  ∀ id : InstanceId, w.live.contains id.text = true → w.running.contains id.text = true

structure Holding (w w' : World σ) : Prop where
  attended : Attended w'
  held : ∀ (id : InstanceId) (t : Token), w.running.get? id.text = some t → w'.running.get? id.text = some t

/-- The same instances are claimed under the same tokens, and live views are of the same
    instances, but for these. -/
structure Restored (own : List InstanceId) (w w' : World σ) : Prop where
  attended : Attended w'
  running : w'.running = w.running
  shown : ∀ id, id ∉ own → w'.live.contains id.text = w.live.contains id.text

variable {own : List InstanceId} {id : InstanceId} {w w' w'' : World σ}

theorem Attended.holding (h : Attended w) : Holding w w := ⟨h, fun _ _ ht => ht⟩

theorem Attended.restored (h : Attended w) : Restored own w w := ⟨h, rfl, fun _ _ => rfl⟩

theorem Attended.of_eq (h : Attended w) (hrunning : w'.running = w.running) (hlive : w'.live = w.live) :
    Attended w' := by
  intro id hid
  rw [hrunning]
  rw [hlive] at hid
  exact h id hid

namespace Restored

theorem of_eq (h : Attended w) (hrunning : w'.running = w.running) (hlive : w'.live = w.live) : Restored own w w' :=
  ⟨h.of_eq hrunning hlive, hrunning, fun _ _ => by rw [hlive]⟩

theorem holding (h : Restored own w w') : Holding w w' :=
  ⟨h.attended, fun id t ht => by rw [h.running]; exact ht⟩

theorem holding_of_after (h : Restored own w w') (h' : Holding w' w'') : Holding w w'' :=
  ⟨h'.attended, fun id t ht => h'.held id t (by rw [h.running]; exact ht)⟩

theorem trans (h : Restored own w w') (h' : Restored own w' w'') : Restored own w w'' :=
  ⟨h'.attended, h'.running.trans h.running, fun id hid => (h'.shown id hid).trans (h.shown id hid)⟩

/-- Live views of these instances, all claimed, come and go. -/
theorem of_live (h : Attended w) (hown : ∀ id ∈ own, w.running.contains id.text = true) {live : Dict Snapshot}
    (hlive : ∀ id, id ∉ own → live.contains id.text = w.live.contains id.text) : Restored own w { w with live } := by
  refine ⟨fun id hid => ?_, rfl, hlive⟩
  by_cases hmem : id ∈ own
  · exact hown id hmem
  · exact h id ((hlive id hmem).symm.trans hid)

end Restored

/-! ## The claim of a run -/

theorem Attended.not_live (h : Attended w) (hfree : w.running.contains id.text = false) :
    w.live.contains id.text = false := by
  refine Bool.eq_false_iff.mpr fun hlive => ?_
  rw [h id hlive] at hfree
  cases hfree

theorem Attended.claiming (h : Attended w) (id : InstanceId) : Attended (w.claiming id) := by
  intro i hi
  have hi : w.running.contains i.text = true := h i hi
  by_cases heq : i = id
  · subst heq
    exact Dict.contains_insert_self _ _ _
  · exact (Dict.contains_insert_of_ne _ (InstanceId.text_ne heq) _).trans hi

/-- Whatever is held is held along with a claim that was free. -/
theorem Holding.of_claiming (h : Holding (w.claiming id) w') (hfree : w.running.contains id.text = false) :
    Holding w w' := by
  refine ⟨h.attended, fun i t ht => h.held i t ?_⟩
  have hne : i ≠ id := by
    rintro rfl
    simp [Dict.contains, ht] at hfree
  exact (w.running_claiming hne.symm).trans ht

/-- A claim that is given back leaves the claims as they were before it was taken, and no
    live view of its instance. -/
theorem Restored.releasing (h : Restored [id] (w.claiming id) w') (hw : Attended w)
    (hfree : w.running.contains id.text = false) : Restored [] w (w'.releasing id) := by
  have hrunning : (w'.releasing id).running = w.running := by
    show w'.running.erase id.text = w.running
    rw [h.running]
    exact (Dict.erase_insert _ _ _).trans (Dict.erase_of_not_contains hfree)
  have hshown : ∀ i : InstanceId, (w'.releasing id).live.contains i.text = w.live.contains i.text := by
    intro i
    by_cases heq : i = id
    · subst heq
      exact (Dict.contains_erase_self _ _).trans (hw.not_live hfree).symm
    · exact (Dict.contains_erase_of_ne _ (InstanceId.text_ne heq)).trans (h.shown i (by simpa using heq))
  refine ⟨fun i hi => ?_, hrunning, fun i _ => hshown i⟩
  rw [hrunning]
  exact hw i ((hshown i).symm.trans hi)

/-! ## A manner of acting -/

/-- To leave claims as they were, and live views but for those of these instances, which
    are claimed. -/
def Restores (own : List InstanceId) (x : Act σ α) : Prop :=
  ∀ w, Attended w → (∀ id ∈ own, w.running.contains id.text = true) →
    x.Meets (Holding w) (fun _ w' => Restored own w w') w

theorem restores_update {f : World σ → α × World σ}
    (h : ∀ w, Attended w → (∀ id ∈ own, w.running.contains id.text = true) → Restored own w (f w).2) :
    Restores own (Act.update f) := fun w hw hown => ⟨(h w hw hown).holding, h w hw hown⟩

/-- A change of live views. -/
theorem restores_live {f : Dict Snapshot → Dict Snapshot}
    (hf : ∀ live, ∀ id, id ∉ own → (f live).contains id.text = live.contains id.text) :
    Restores own (Act.change fun w : World σ => { w with live := f w.live }) :=
  restores_update (f := fun w => ((), { w with live := f w.live })) fun w hw hown => .of_live hw hown (hf w.live)

theorem restores_changeLive (other : InstanceId) (f : Snapshot → Snapshot) :
    Restores own (Checkpoint.changeLive other f : Act σ Unit) :=
  restores_live fun live id _ => live.contains_modify other.text id.text f

def restoring (own : List InstanceId) : Manner σ :=
  { Has := fun x => Restores own x
    pure := fun _ _ hw _ => hw.restored
    broken := fun _ _ hw _ => hw.restored
    quiet := fun h => restores_update fun w hw _ => .of_eq hw (congrArg Core.running (h w).1) (h w).2.2.1
    status := fun id s => restores_changeLive id _
    bind := by
      intro α β x g hx hg w hw hown
      refine Act.meets_bind.mpr ((hx w hw hown).with_run.mono (fun _ h => h) ?_)
      rintro (e | a) w₁ ⟨h₁, hrun⟩
      · exact h₁
      · have hown₁ : ∀ id ∈ own, w₁.running.contains id.text = true := fun id hid => h₁.running ▸ hown id hid
        exact (hg a (.of_run hrun) w₁ h₁.attended hown₁).mono (fun _ h => h₁.holding_of_after h) fun _ _ h => h₁.trans h
    attempt := fun hx w hw hown => Act.meets_attempt.mpr (hx w hw hown) }

/-- What leaves all live views leaves those of other instances. -/
theorem Restores.of_nil {x : Act σ α} (h : Restores [] x) : Restores own x := fun w hw _ =>
  (h w hw (by simp)).mono (fun _ h => h) fun _ _ h => ⟨h.attended, h.running, fun id _ => h.shown id (by simp)⟩

theorem restores_publish (e : Event) : Restores own (Act.publish e : Act σ Unit) :=
  restores_update (f := fun w => ((), { w with bus := w.bus.publish e })) fun _ hw _ => .of_eq hw rfl rfl

theorem storing_restoring : (restoring own : Manner σ).Storing :=
  ⟨fun _ => restores_update fun _ hw _ => .of_eq hw rfl rfl, restores_update fun _ hw _ => .of_eq hw rfl rfl⟩

theorem showing_restoring (hid : id ∈ own) : (restoring own : Manner σ).Showing id := by
  refine fun f hf => restores_live fun live other hother => congrArg Option.isSome (hf live other ?_)
  rintro rfl
  exact hother hid

/-! ## An attempt -/

variable {r : Runner σ} {run : Runner.Run σ}

theorem restores_attemptOver (hrun : ∀ depth job parameters, Restores [] (run depth job parameters)) (d : Definition)
    (id : InstanceId) (depth : Nat) (t : Token) (parameters : Parameters) :
    Restores [id] (r.attemptOver run d id depth t parameters) :=
  storing_restoring.attemptOver (showing_restoring (List.mem_singleton_self id)) (fun _ _ _ => (hrun _ _ _).of_nil)
    (fun e _ => restores_publish e) d depth t parameters

/-! ## Runs -/

namespace Runner

variable {inner : Run σ} {depth : Nat} {job : String} {d : Definition} {parameters : Parameters}

theorem claim?_of_free (hfree : w.running.contains id.text = false) :
    (claim? id).run w = (.ok (some w.tokens), w.claiming id) := by
  simp only [claim?, Act.run_update, hfree]
  rfl

/-- A run that takes its claim does its attempt under the claim and gives it back. -/
theorem run_of_free (r : Runner σ) (inner : Run σ) (depth : Nat) (hjob : w.jobs.get? job = some d)
    (hid : InstanceId.derive d.name parameters = id) (hfree : w.running.contains id.text = false) :
    (r.runOver inner depth job parameters).run w =
      (((r.attemptOver inner d id depth w.tokens parameters).run (w.claiming id)).1,
        ((r.attemptOver inner d id depth w.tokens parameters).run (w.claiming id)).2.releasing id) := by
  subst hid
  simp only [runOver, job?, Act.run_bind, Act.run_find, hjob, claim?_of_free hfree, releasing, Act.run_attempt]
  generalize (r.attemptOver inner d _ depth w.tokens parameters).run _ = result
  obtain ⟨x, w'⟩ := result
  cases x <;> rfl

/-- The moments of such a run: before the claim, under it, and after it. -/
theorem passes_of_free (hjob : w.jobs.get? job = some d) (hid : InstanceId.derive d.name parameters = id)
    (hfree : w.running.contains id.text = false) (h : (r.runOver inner depth job parameters).Passes w w') :
    w' = w ∨ (r.attemptOver inner d id depth w.tokens parameters).Passes (w.claiming id) w' ∨
      w' = ((r.runOver inner depth job parameters).run w).2 := by
  rw [run_of_free r inner depth hjob hid hfree]
  subst hid
  have hmeets : (r.runOver inner depth job parameters).Meets (fun w' => w' = w ∨
      (r.attemptOver inner d (InstanceId.derive d.name parameters) depth w.tokens parameters).Passes
        (w.claiming (InstanceId.derive d.name parameters)) w' ∨
      w' = ((r.attemptOver inner d (InstanceId.derive d.name parameters) depth w.tokens parameters).run
        (w.claiming (InstanceId.derive d.name parameters))).2.releasing (InstanceId.derive d.name parameters))
      (fun _ _ => True) w := by
    refine Act.meets_bind.mpr ⟨Or.inl rfl, ?_⟩
    simp only [hjob]
    refine Act.meets_bind.mpr (meets_claim (fun hheld => ?_) fun _ => ⟨Or.inr (Or.inl (.start _ _)), ?_⟩)
    · rw [hfree] at hheld
      cases hheld
    · refine meets_releasing ((Act.passes_meets _ _).mono (fun _ h => Or.inr (Or.inl h)) fun x w₁ hrun => ?_)
      exact ⟨Or.inr (Or.inr (by rw [hrun])), trivial⟩
  exact hmeets.passes (Or.inl rfl) h

theorem restores_runOver (hrun : ∀ depth job parameters, Restores [] (inner depth job parameters)) (depth : Nat)
    (job : String) (parameters : Parameters) : Restores [] (r.runOver inner depth job parameters) := by
  refine (restoring []).bind ((restoring []).find _) fun found _ => ?_
  rcases found with _ | d
  · exact (restoring []).pure _
  intro w hw _
  refine Act.meets_bind.mpr (meets_claim (fun _ => ⟨hw.holding, hw.restored⟩) fun hfree => ?_)
  have hclaimed := hw.claiming (InstanceId.derive d.name parameters)
  refine ⟨hclaimed.holding.of_claiming hfree, meets_releasing ?_⟩
  have hown : ∀ i ∈ [InstanceId.derive d.name parameters],
      (w.claiming (InstanceId.derive d.name parameters)).running.contains i.text = true := by
    intro i hi
    rw [List.mem_singleton.mp hi]
    exact Dict.contains_insert_self _ _ _
  refine (restores_attemptOver hrun d _ depth _ parameters _ hclaimed hown).mono (fun _ h => h.of_claiming hfree) ?_
  intro x w' hw'
  have hreleased := hw'.releasing hw hfree
  exact ⟨hreleased.holding, hreleased⟩

theorem restores_run (r : Runner σ) (levels depth : Nat) (job : String) (parameters : Parameters) :
    Restores [] (r.run levels depth job parameters) := by
  induction levels generalizing depth job parameters with
  | zero => exact (restoring []).broken _
  | succ levels ih => exact restores_runOver ih depth job parameters

theorem restores_request (r : Runner σ) (q : Request) : Restores [] (r.request q) :=
  has_handle (M := restoring []) (restores_run r ampleLevels 0) storing_restoring.abandon q

end Runner

/-! ## Worlds of a runner -/

/-- The worlds that requests lead to once a runner is set up, with no instance claimed,
    over a history that was reached. -/
inductive Served : World σ → Prop
  | setUp {w : World σ} : Reached w → w.running = Dict.empty → w.live = Dict.empty → Served w
  /-- Some moment of a request, be it the last one. -/
  | during {w w' : World σ} (r : Runner σ) (q : Request) : Served w → (r.request q).Passes w w' → Served w'
  /-- What is not the runner's own changes: who listens, what units remember, the time. -/
  | apart {w w' : World σ} : Served w → w'.repository.store = w.repository.store → w'.running = w.running →
      w'.live = w.live → w'.clock.originMillis = w.clock.originMillis → w.clock.issued ≤ w'.clock.issued → Served w'

theorem Served.reached {w : World σ} (h : Served w) : Reached w := by
  induction h with
  | setUp h => exact h
  | during r q _ hpasses ih => exact .during r q ih hpasses
  | apart _ hstore _ _ hmillis hissued ih => exact .reopened ih hstore hmillis hissued

theorem Served.attended {w : World σ} (h : Served w) : Attended w := by
  induction h with
  | setUp _ _ hlive =>
    intro id hid
    rw [hlive] at hid
    cases hid
  | during r q _ hpasses ih =>
    exact ((Runner.restores_request r q _ ih (by simp)).passes ih.holding hpasses).attended
  | apart _ _ hrunning hlive _ _ ih => exact ih.of_eq hrunning hlive

/-- The instance can neither be run nor be abandoned: it is running already. -/
structure Refusing (id : InstanceId) (w : World σ) : Prop where
  run : ∀ (r : Runner σ) (levels depth : Nat) (job : String) (parameters : Parameters) (d : Definition),
    w.jobs.get? job = some d → InstanceId.derive d.name parameters = id →
    (r.run (levels + 1) depth job parameters).run w = (.ok (.error (.alreadyRunning id)), w)
  abandon : (Runner.abandon id).run w = (.ok (.error (.alreadyRunning id)), w)

theorem refusing_of_claimed {t : Token} (h : w.running.get? id.text = some t) : Refusing id w := by
  have hclaimed : w.running.contains id.text = true := by rw [Dict.contains, h]; rfl
  refine ⟨fun r levels depth job parameters d hjob hid => ?_, ?_⟩
  · subst hid
    simp only [Runner.run, Runner.runOver, Runner.job?, Act.run_bind, Act.run_find, hjob, Runner.claim?,
      Act.run_update, hclaimed, if_true]
    rfl
  · simp only [Runner.abandon, Runner.isClaimed, Act.run_bind, Act.run_find, hclaimed, if_true]
    rfl

/-- A run that takes its claim has it, under one token, from the moment it took it until it
    returns, and all that time its instance is refused to everyone else. However it ended,
    then its instance is neither claimed nor has it a live view, and the other instances
    are claimed under the tokens they were claimed under and have a live view if they had
    one. -/
theorem Runner.claims_given_back (r : Runner σ) (levels depth : Nat) {job : String} {parameters : Parameters}
    {d : Definition} (hw : Served w) (hjob : w.jobs.get? job = some d) (hid : InstanceId.derive d.name parameters = id)
    (hfree : w.running.contains id.text = false) :
    let run := r.run (levels + 1) depth job parameters
    (∀ w', run.Passes w w' →
      w' = w ∨ (w'.running.get? id.text = some w.tokens ∧ Refusing id w') ∨ w' = (run.run w).2) ∧
    (run.run w).2.running = w.running ∧
    (∀ i : InstanceId, (run.run w).2.live.contains i.text = w.live.contains i.text) ∧
    (run.run w).2.running.contains id.text = false ∧ (run.run w).2.live.contains id.text = false := by
  intro run
  have hrestored : Restored [] w (run.run w).2 :=
    (restores_run r (levels + 1) depth job parameters w hw.attended (by simp)).run
  have hlive := hw.attended.not_live hfree
  refine ⟨fun w' hpasses => ?_, hrestored.running, fun i => hrestored.shown i (by simp), ?_, ?_⟩
  · refine (passes_of_free hjob hid hfree hpasses).imp_right (Or.imp_left fun hunder => ?_)
    have hclaimed := hw.attended.claiming id
    have hattempt := restores_attemptOver (r := r) (restores_run r levels) d id depth w.tokens parameters _ hclaimed
      (by simp [World.claiming, Dict.contains_insert_self])
    have hheld := (hattempt.passes hclaimed.holding hunder).held id w.tokens (Dict.get?_insert_self _ _ _)
    exact ⟨hheld, refusing_of_claimed hheld⟩
  · rw [hrestored.running]
    exact hfree
  · rw [hrestored.shown id (by simp)]
    exact hlive

/-! ### A run whose step asks for its own instance, and that cannot be sealed -/

namespace Convoy

def lead : Definition := { graph := ⟨"lead", "drive", [⟨"drive", .step "drive", []⟩]⟩ }

def trail : Definition := { graph := ⟨"trail", "park", [⟨"park", .step "park", []⟩]⟩ }

def leadId : InstanceId := InstanceId.derive "lead" Dict.empty

def isRefusal : Reply → Bool
  | .report (.error (.alreadyRunning _)) | .record (.error (.alreadyRunning _)) => true
  | _ => false

def completed : StepResult := { status := .completed, exit := .completed }

def drive (b : Briefing) (refusals : Nat) : Script Nat StepResult :=
  .ask refusals (.run b.job b.parameters) fun reply refusals =>
  .ask (refusals + (isRefusal reply).toNat) (.abandon b.instanceId) fun reply refusals =>
  .ask (refusals + (isRefusal reply).toNat) (.run "trail" Dict.empty) fun _ refusals =>
  .finish refusals (.result completed)

def runner : Runner Nat :=
  { config := {}
    units :=
      { step := fun name => some (if name = "drive" then drive else fun _ m => .finish m (.result completed))
        decider := fun _ => none } }

def world : World Nat :=
  { repository :=
      { store := .shelf Shelf.empty
        faults := fun m n => if m = .append ∧ n = 6 then some .connection else none }
    jobs := (Dict.empty.insert "lead" lead).insert "trail" trail
    bus := Bus.ofCapacity 4
    clock := { origin := Instant.ofSeconds 0 0 }
    memory := 0 }

theorem served : Served world := .setUp (.empty (Or.inl rfl)) rfl rfl

def returned : World Nat := ((runner.run 2 0 "lead" Dict.empty).run world).2

/-- Two requests are refused, the other job is run, and the record stays open; the claims
    of both are given back. -/
theorem convoy_given_back :
    returned.memory = 2 ∧ (returned.repository.store.page leadId).map (·.final) = [none] ∧
    returned.running = Dict.empty ∧ returned.live.contains leadId.text = false := by
  have hjob : world.jobs.get? "lead" = some lead := rfl
  have hid : InstanceId.derive lead.name Dict.empty = leadId := rfl
  obtain ⟨-, hrunning, -, -, hlive⟩ := runner.claims_given_back 1 0 served hjob hid rfl
  have hrun : returned.memory = 2 ∧ (returned.repository.store.page leadId).map (·.final) = [none] := by decide +kernel
  exact ⟨hrun.1, hrun.2, hrunning, hlive⟩

end Convoy

end Switchyard
