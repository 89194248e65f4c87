import Switchyard.Engine.Runner
import Switchyard.Proofs.Engine.Course

/-
  Switchyard.Proofs.Engine.Nesting — how deep launched jobs nest.

  An attempt knows how many launches it is inside of, and a node that launches a job
  compares the depth of the launch with the limit. Below the greatest number a depth can
  have that comparison cuts every chain of launches (`nested_within_limit`): what is put
  in place of the attempts beyond the limit plays no part, so no such attempt is made.

  The depth does not grow beyond that number. Where it is the limit itself, no launch is
  too deep (`visitSubJob_at_top`), and jobs that launch each other nest without end.

  - `visitSubJob_at_limit`: the node that would exceed the limit fails and launches
    nothing.
  - `runOver_congr`: a run does not depend on what its nodes would launch beyond it.
-/

namespace Switchyard

variable {σ α : Type}

namespace Executor

variable {ex : Executor σ}

/-! ## Counting launches -/

theorem deeper_of_lt {depth : Nat} (h : depth < Text.maxU8) : deeper depth = depth + 1 := by
  unfold deeper
  omega

theorem limit_lt_deeper {limit depth : Nat} (hlimit : limit < Text.maxU8) (h : limit ≤ depth) :
    limit < deeper depth := by
  unfold deeper
  omega

theorem visitSubJob_at_limit {launch : Launch σ} (hlaunch : ex.launch = some launch)
    (hlimit : ex.config.maxSubJobDepth < Text.maxU8) (hdepth : ex.config.maxSubJobDepth ≤ ex.scope.depth)
    (p : Progress) (job : String) (keys : List String) :
    ex.visitSubJob p job keys =
      pure (Visit.failed ("sub-job depth limit of " ++ toString ex.config.maxSubJobDepth ++ " reached")) := by
  have hcut : ex.config.maxSubJobDepth < deeper ex.scope.depth := limit_lt_deeper hlimit hdepth
  simp only [visitSubJob, hlaunch, if_pos hcut]

/-- Inside of as many launches as can be counted, with that many allowed, a node launches
    its job, and that counts as no deeper. -/
theorem visitSubJob_at_top {launch : Launch σ} (hlaunch : ex.launch = some launch)
    (hlimit : ex.config.maxSubJobDepth = Text.maxU8) (hdepth : ex.scope.depth = Text.maxU8) (p : Progress)
    (job : String) (keys : List String) (w : World σ) :
    ((ex.visitSubJob p job keys).run w).2 =
      ((launch job (Parameters.extract p.context ex.scope.parameters keys) Text.maxU8).run w).2 := by
  have htop : deeper ex.scope.depth = Text.maxU8 := by
    rw [hdepth]
    rfl
  have hcut : ¬ ex.config.maxSubJobDepth < Text.maxU8 := by omega
  simp only [visitSubJob, hlaunch, htop, if_neg hcut, catchPanic, Act.run_bind, Act.run_attempt]
  rcases ((launch job _ Text.maxU8).run w).1 with (p | _ | g | _) | (chain | ⟨status, exit⟩) <;> rfl

/-! ## Executors that launch in other ways -/

abbrev launching (ex : Executor σ) (launch : Option (Launch σ)) : Executor σ := { ex with launch }

/-- Wherever a node may launch a job, the other way launches it likewise. -/
def LaunchesLike (ex : Executor σ) (launch : Option (Launch σ)) : Prop :=
  ∀ p job keys, ex.visitSubJob p job keys = (ex.launching launch).visitSubJob p job keys

variable {launch : Option (Launch σ)}

theorem perform_launching (ex : Executor σ) (launch : Option (Launch σ)) (s : Script σ α) :
    (ex.launching launch).perform s = ex.perform s := by
  have hreply : ∀ r, (ex.launching launch).reply r = ex.reply r := by
    intro r
    cases r <;> rfl
  induction s with
  | finish m e => rfl
  | ask m r resume ih => simp only [perform, hreply, ih]
  | wait m millis resume ih => simp only [perform, ih]
  | hang m => rfl

theorem guarded_launching (ex : Executor σ) (launch : Option (Launch σ)) (s : Script σ α) :
    (ex.launching launch).guarded s = ex.guarded s := by
  simp only [guarded, perform_launching]

theorem walkBranches_launching (ex : Executor σ) (launch : Option (Launch σ)) (walk : BranchWalk σ)
    (context : Context) (halted : List Halt) (starts : List (Nat × Graph × FlowStart)) :
    (ex.launching launch).walkBranches walk context halted starts = ex.walkBranches walk context halted starts := by
  have hfull : ∀ halted, (ex.launching launch).isFull halted = ex.isFull halted := fun _ => rfl
  induction starts generalizing halted with
  | nil => rfl
  | cons first rest ih =>
    obtain ⟨i, branch, start⟩ := first
    simp only [walkBranches, hfull, ih]

theorem visit_congr (h : ex.LaunchesLike launch) (walk : BranchWalk σ) (g : Graph) (node : Node Graph) (p : Progress)
    (prior : Option (List FlowOutcome)) :
    ex.visit walk g node p prior = (ex.launching launch).visit walk g node p prior := by
  have hbriefing : (ex.launching launch).briefing g node p = ex.briefing g node p := rfl
  unfold visit
  cases node.kind with
  | step name => simp only [visitStep, guarded_launching, hbriefing]
  | decision decider => simp only [visitDecision, guarded_launching, hbriefing]
  | split branches => simp only [visitSplit, walkBranches_launching]
  | subJob job keys => exact h p job keys

theorem loop_congr (h : ex.LaunchesLike launch) (walk : BranchWalk σ) (g : Graph) (room : Nat) (pos : Position) :
    ex.loop walk g room pos = (ex.launching launch).loop walk g room pos := by
  induction room generalizing pos with
  | zero => rw [loop_zero, loop_zero]; rfl
  | succ room ih =>
    rw [loop_succ, loop_succ]
    cases hnode : g.node? pos.node with
    | none => rfl
    | some node =>
      refine bind_congr fun started => ?_
      rw [visit_congr h]
      refine bind_congr fun v => bind_congr fun turn => ?_
      cases turn with
      | done walked => rfl
      | onward next => exact ih next

theorem traverse_congr (h : ex.LaunchesLike launch) {walk walk' : BranchWalk σ} (hwalk : walk = walk') (g : Graph)
    (start : FlowStart) (context : Context) (record : Option Record) :
    ex.traverse walk g start context record = (ex.launching launch).traverse walk' g start context record := by
  subst hwalk
  exact bind_congr fun _ => loop_congr h walk g _ _

theorem walkBranch_congr (h : ex.LaunchesLike launch) (levels : Nat) :
    ex.walkBranch levels = (ex.launching launch).walkBranch levels := by
  induction levels with
  | zero => rfl
  | succ levels ih =>
    funext g start context
    unfold walkBranch
    rw [traverse_congr h ih]

theorem execute_congr (h : ex.LaunchesLike launch) (g : Graph) (start : FlowStart) (record : Record) :
    ex.execute g start record = (ex.launching launch).execute g start record := by
  unfold execute traverseGraph
  rw [traverse_congr h (walkBranch_congr h _)]

end Executor

/-! ## Runs inside runs -/

namespace Runner

variable {r : Runner σ}

theorem handle_congr {run run' : Run σ} (h : run 0 = run' 0) (q : Request) : r.handle run q = r.handle run' q := by
  cases q with
  | run job parameters => simp only [handle, h]
  | _ => rfl

/-- A run depends on other runs only as far as its units ask for them, and its nodes
    launch them within the limit. -/
theorem runOver_congr (hlimit : r.config.maxSubJobDepth < Text.maxU8) {inner inner' : Run σ} {depth : Nat}
    (hasked : inner 0 = inner' 0)
    (hlaunched : depth < r.config.maxSubJobDepth → inner (depth + 1) = inner' (depth + 1)) :
    r.runOver inner depth = r.runOver inner' depth := by
  have hanswer : r.handle inner = r.handle inner' := funext (handle_congr hasked)
  have hexecutor : ∀ record t, (r.executor inner record depth t).launching (some (launch inner')) =
      r.executor inner' record depth t := by
    intro record t
    simp only [executor, hanswer]
  have hlike : ∀ record t, (r.executor inner record depth t).LaunchesLike (some (launch inner')) := by
    intro record t p job keys
    by_cases hdepth : depth < r.config.maxSubJobDepth
    · have hnext : Executor.deeper depth = depth + 1 := Executor.deeper_of_lt (by omega)
      simp only [Executor.visitSubJob, executor, launch, hnext, hlaunched hdepth]
    · have hdeep : r.config.maxSubJobDepth ≤ depth := by omega
      rw [Executor.visitSubJob_at_limit rfl hlimit hdeep, Executor.visitSubJob_at_limit rfl hlimit hdeep]
  funext job parameters
  unfold runOver attemptOver drive
  simp only [Executor.execute_congr (hlike _ _), hexecutor]

/-- A run with room for so many nested attempts, itself the first of them: its units ask
    for runs by `asked`, and what the last of them launches is `beyond`. -/
def chain (r : Runner σ) (asked : Nat → Run σ) (beyond : Run σ) : (room : Nat) → Run σ
  | 0 => beyond
  | room + 1 => r.runOver fun depth => if depth = 0 then asked room 0 else r.chain asked beyond room depth

/-- Every run is a chain of as many nested attempts as one likes to look at. -/
theorem chain_run (r : Runner σ) (base room : Nat) :
    r.chain (fun n => r.run (base + n)) (r.run base) room = r.run (base + room) := by
  induction room with
  | zero => rfl
  | succ room ih =>
    have hinner : (fun depth => if depth = 0 then r.run (base + room) 0 else r.run (base + room) depth) =
        r.run (base + room) := by
      funext depth
      by_cases h : depth = 0
      · rw [if_pos h, h]
      · rw [if_neg h]
    rw [chain, ih, hinner]
    rfl

theorem chain_congr (hlimit : r.config.maxSubJobDepth < Text.maxU8) (asked : Nat → Run σ) (beyond beyond' : Run σ)
    {room depth : Nat} (hdepth : depth ≤ r.config.maxSubJobDepth) (hroom : r.config.maxSubJobDepth < depth + room) :
    r.chain asked beyond room depth = r.chain asked beyond' room depth := by
  induction room generalizing depth with
  | zero => omega
  | succ room ih =>
    refine runOver_congr hlimit rfl fun hlt => ?_
    rw [if_neg (Nat.succ_ne_zero depth), if_neg (Nat.succ_ne_zero depth)]
    exact ih (by omega) (by omega)

/-- Whatever is put in place of the attempts that are nested deeper than the limit, a run
    asked for is the same, and a node that would launch one fails and launches nothing. -/
theorem nested_within_limit (r : Runner σ) (hlimit : r.config.maxSubJobDepth < Text.maxU8) :
    (∀ base beyond, r.run (base + (r.config.maxSubJobDepth + 1)) 0 =
      r.chain (fun n => r.run (base + n)) beyond (r.config.maxSubJobDepth + 1) 0) ∧
    ∀ inner record depth t, r.config.maxSubJobDepth ≤ depth → ∀ p job keys,
      (r.executor inner record depth t).visitSubJob p job keys =
        pure (Visit.failed ("sub-job depth limit of " ++ toString r.config.maxSubJobDepth ++ " reached")) := by
  constructor
  · intro base beyond
    rw [← chain_run]
    exact chain_congr hlimit _ _ _ (Nat.zero_le _) (by omega)
  · intro inner record depth t hdepth p job keys
    exact Executor.visitSubJob_at_limit rfl hlimit hdepth p job keys

end Runner

/-! ### At the limit, and at the greatest limit there is -/

namespace Nested

def graph : Graph := ⟨"job", "c", [⟨"c", .subJob "o" [], []⟩]⟩

/-- An attempt at a depth of launches, with as many launches allowed. Its launches all
    complete, and the depths they were made at are remembered. -/
def deepest (limit : Nat) : Executor (List Nat) :=
  { config := { maxSubJobDepth := limit }
    units := { step := fun _ => none, decider := fun _ => none }
    launch := some fun _ _ depth => do
      Act.change fun w => { w with memory := depth :: w.memory }
      return .ok (.completed, ⟨"OK", ""⟩)
    answer := fun _ => pure .unavailable
    scope :=
      { job := "job", instanceId := ⟨"i"⟩, id := ⟨1⟩, attempt := 1, parameters := Dict.empty, depth := limit
        token := 0 } }

def world : World (List Nat) :=
  { repository := { store := .shelf Shelf.empty }
    bus := Bus.ofCapacity 4
    clock := { origin := Instant.ofSeconds 0 0 }
    memory := [] }

def came (limit : Nat) : Option (Status × String) × List Nat :=
  match ((deepest limit).traverseGraph graph { node := "c" } Dict.empty none).run world with
  | (.ok (.ok t, _), w) => (some (t.outcome.status, t.outcome.exit.description), w.memory)
  | (_, w) => (none, w.memory)

def runner : Runner (List Nat) := { config := (deepest 254).config, units := (deepest 254).units }

/-- With 254 launches allowed the attempt inside of 254 launches nothing. -/
theorem cut_at_limit :
    came 254 = (some (.failed, "sub-job depth limit of 254 reached"), []) ∧
      (∀ base beyond, runner.run (base + 255) 0 = runner.chain (fun n => runner.run (base + n)) beyond 255 0) := by
  have hnested := runner.nested_within_limit (by decide)
  exact ⟨by decide +kernel, hnested.1⟩

/-- With 255 allowed the attempt inside of 255 launches goes on launching, and what it
    launches counts as no deeper than itself. -/
theorem launches_on_at_top : came 255 = (some (.completed, ""), [255]) := by decide +kernel

end Nested

end Switchyard
