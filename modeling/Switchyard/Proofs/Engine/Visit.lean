import Switchyard.Engine.Executor
import Switchyard.Proofs.Act

/-
  Switchyard.Proofs.Engine.Visit — what a visit to a node can come to.

  - `failure_of_visit`: the engine ends a flow at a visit exactly if the node's step or
    decider is not registered.
  - `branches_of_visit`: only a visit to a split leaves branch outcomes, and those are
    what the ends of its branches join to.
  - `visit_split`: a visit to a split walks the branches that its plan has it walk.
  - `calm_visit`: a visit does not panic, whatever its unit or a launched job does, if there
    can be places for its branches.
-/

namespace Switchyard

variable {σ : Type}

def Units.missing? (units : Units σ) (n : Node Graph) : Option Failure :=
  match n.kind with
  | .step name => if (units.step name).isNone then some (.unknownStep n.id name) else none
  | .decision name => if (units.decider name).isNone then some (.unknownDecider n.id name) else none
  | _ => none

def Node.isUnit (n : Node Graph) : Bool :=
  match n.kind with
  | .step _ => true
  | .decision _ => true
  | _ => false

namespace Executor

variable {ex : Executor σ} {walk : BranchWalk σ} {g : Graph} {node : Node Graph} {p : Progress}
  {prior : Option (List FlowOutcome)} {w w' : World σ} {v : Visit}

theorem of_visitStep {name : String} (h : (visitStep ex g node p name).Yields v) :
    v.failure = (if (ex.units.step name).isNone then some (.unknownStep node.id name) else none) ∧
      v.branches = none := by
  simp only [visitStep] at h
  cases hunit : ex.units.step name with
  | none =>
    rw [hunit] at h
    cases h
    exact ⟨rfl, rfl⟩
  | some unit =>
    simp only [hunit] at h
    obtain ⟨m, -, h⟩ := Act.yields_bind h
    obtain ⟨r, -, h⟩ := Act.yields_bind h
    cases r <;> cases h <;> exact ⟨rfl, rfl⟩

theorem of_visitDecision {name : String} (h : (visitDecision ex g node p name).Yields v) :
    v.failure = (if (ex.units.decider name).isNone then some (.unknownDecider node.id name) else none) ∧
      v.branches = none := by
  simp only [visitDecision] at h
  cases hunit : ex.units.decider name with
  | none =>
    rw [hunit] at h
    cases h
    exact ⟨rfl, rfl⟩
  | some unit =>
    simp only [hunit] at h
    obtain ⟨m, -, h⟩ := Act.yields_bind h
    obtain ⟨r, -, h⟩ := Act.yields_bind h
    cases r <;> cases h <;> exact ⟨rfl, rfl⟩

theorem of_visitSubJob {job : String} {keys : List String} (h : (visitSubJob ex p job keys).Yields v) :
    v.failure = none ∧ v.branches = none := by
  simp only [visitSubJob] at h
  cases hlaunch : ex.launch with
  | none =>
    rw [hlaunch] at h
    cases h
    exact ⟨rfl, rfl⟩
  | some launch =>
    simp only [hlaunch] at h
    split at h
    · cases h
      exact ⟨rfl, rfl⟩
    · obtain ⟨r, -, h⟩ := Act.yields_bind h
      rcases r with payload | (chain | ⟨status, exit⟩) <;> cases h <;> exact ⟨rfl, rfl⟩

/-- A split comes to what its branches join to. -/
theorem of_visitSplit {branches : List Graph} (h : (visitSplit ex walk p branches prior).Yields v) :
    ∃ ends, (walkBranches ex walk p.context [] (Split.toRun branches (Split.plan prior branches))).Yields ends ∧
      v = Split.join branches (Split.plan prior branches) p.context ends := by
  simp only [visitSplit] at h
  split at h
  · obtain ⟨u, h, -⟩ := Act.yields_bind h
    cases Act.not_yields_broken h
  · obtain ⟨ends, hends, h⟩ := Act.yields_bind h
    exact ⟨ends, hends, Act.yields_pure h⟩

theorem failure_of_visit (h : (visit ex walk g node p prior).Yields v) : v.failure = ex.units.missing? node := by
  simp only [visit] at h
  simp only [Units.missing?]
  split at h
  next hkind => rw [(of_visitStep h).1, hkind]
  next hkind => rw [(of_visitDecision h).1, hkind]
  next hkind =>
    obtain ⟨ends, -, rfl⟩ := of_visitSplit h
    rw [hkind]
    rfl
  next hkind => rw [(of_visitSubJob h).1, hkind]

/-- Only a split leaves branch outcomes. -/
theorem branches_of_visit (h : (visit ex walk g node p prior).Yields v) :
    v.branches = none ∨ ∃ branches ends, node.kind = .split branches ∧
      (walkBranches ex walk p.context [] (Split.toRun branches (Split.plan prior branches))).Yields ends ∧
      v = Split.join branches (Split.plan prior branches) p.context ends := by
  simp only [visit] at h
  split at h
  next => exact Or.inl (of_visitStep h).2
  next => exact Or.inl (of_visitDecision h).2
  next branches hkind =>
    obtain ⟨ends, hends, hv⟩ := of_visitSplit h
    exact Or.inr ⟨branches, ends, hkind, hends, hv⟩
  next => exact Or.inl (of_visitSubJob h).2

theorem branches_of_isUnit (hunit : node.isUnit = true) (h : (visit ex walk g node p prior).Yields v) :
    v.branches = none := by
  rcases branches_of_visit h with hnone | ⟨branches, ends, hkind, -, -⟩
  · exact hnone
  · simp [Node.isUnit, hkind] at hunit

/-- A visit to a split walks the branches that its plan has it walk. -/
theorem visit_split {branches : List Graph} (hsplit : node.kind = .split branches)
    (hplaces : ex.config.maxParallelBranches ≤ maxPlaces) :
    ex.visit walk g node p prior =
      ex.walkBranches walk p.context [] (Split.toRun branches (Split.plan prior branches)) >>= fun ends =>
        pure (Split.join branches (Split.plan prior branches) p.context ends) := by
  simp only [visit, hsplit, visitSplit, if_neg (Nat.not_lt.mpr hplaces)]

/-! ## Visits that do not panic -/

variable {P : Payload → Prop}

theorem calm_catchPanic {α : Type} (x : Act σ α) : (catchPanic x).Calm P := by
  refine (Act.sure_attempt x).calm.bind fun r => ?_
  rcases r with (p | _ | g | _) | a
  · trivial
  · exact nofun
  · exact nofun
  · exact nofun
  · trivial

theorem calm_guarded {α : Type} (ex : Executor σ) (s : Script σ α) : (ex.guarded s).Calm P := by
  refine (calm_catchPanic _).bind fun r => ?_
  rcases r with p | _ | chain | a
  all_goals trivial

theorem calm_allBegun {halted : List Halt} (h : ∀ e ∈ halted, ∀ p, e ≠ .panic p) : (allBegun halted : Act σ _).Calm P := by
  unfold allBegun
  split
  next e hlast => exact fun p hp => absurd hp (h e (List.mem_of_getLast? hlast) p)
  · trivial

/-- However branches are walked, one that panics is noted. -/
theorem calm_walkBranches {context : Context} {halted : List Halt} (h : ∀ e ∈ halted, ∀ p, e ≠ .panic p)
    (starts : List (Nat × Graph × FlowStart)) : (ex.walkBranches walk context halted starts).Calm P := by
  induction starts generalizing halted with
  | nil => exact calm_allBegun h
  | cons x rest ih =>
    obtain ⟨i, branch, start⟩ := x
    simp only [walkBranches]
    split
    · exact calm_allBegun h
    · refine (Act.sure_attempt _).calm.bind fun r => ?_
      rcases r with (p | _ | g | _) | e
      · exact (ih h).bind fun _ => trivial
      · exact ih (List.forall_mem_cons.mpr ⟨by simp, h⟩)
      · exact ih (List.forall_mem_cons.mpr ⟨by simp, h⟩)
      · exact ih (List.forall_mem_cons.mpr ⟨by simp, h⟩)
      · exact (ih h).bind fun _ => trivial

theorem calm_visit
    (hmany : ∀ branches, node.kind = .split branches → maxPlaces < ex.config.maxParallelBranches → P tooManyPlaces)
    (g : Graph) (p : Progress) (prior : Option (List FlowOutcome)) : (ex.visit walk g node p prior).Calm P := by
  unfold visit
  split
  · unfold visitStep
    split
    · trivial
    · refine Act.Sure.find.calm.bind fun m => (calm_guarded ex _).bind fun r => ?_
      cases r <;> trivial
  · unfold visitDecision
    split
    · trivial
    · refine Act.Sure.find.calm.bind fun m => (calm_guarded ex _).bind fun r => ?_
      cases r <;> trivial
  next branches hkind =>
    simp only [visitSplit]
    split
    next hplaces =>
      refine Act.Calm.bind ?_ fun _ => (calm_walkBranches (by simp) _).bind fun _ => trivial
      rintro p ⟨⟩
      exact hmany branches hkind hplaces
    · exact (calm_walkBranches (by simp) _).bind fun _ => trivial
  · simp only [visitSubJob]
    split
    · trivial
    · split
      · trivial
      · refine (calm_catchPanic _).bind fun r => ?_
        rcases r with payload | (chain | ⟨status, exit⟩) <;> trivial

/-- Only a visit to a split panics, and only for want of places. -/
theorem panic_of_visit {q : Payload} (h : ((ex.visit walk g node p prior).run w).1 = .error (.panic q)) :
    q = tooManyPlaces ∧ maxPlaces < ex.config.maxParallelBranches ∧ ∃ branches, node.kind = .split branches :=
  (calm_visit (P := fun q => q = tooManyPlaces ∧ _ ∧ ∃ branches, node.kind = .split branches)
    (fun branches hkind hmany => ⟨rfl, hmany, branches, hkind⟩) g p prior).run h

end Executor

end Switchyard
