import Switchyard.Proofs.Engine.Frame
import Switchyard.Proofs.Engine.Visit
import Switchyard.Proofs.Flow.Join

/-
  Switchyard.Proofs.Engine.Branches — the branches of a split, run at once.

  The branches of a split change one world in turns, so what a branch comes to is told
  by `Act.Yields`: its steps may be taken in any worlds. `BranchEnd.Of` are the ends its
  task can have. `of_traverse_yields` holds of every traversal all the same: its outcome
  is of the graph's name, and the entries it collected are in key order.

  - `split_joined`: whatever the branches come to, every order in which their tasks can
    end joins to one visit, and so does the walk that takes them one after the other.
-/

namespace Switchyard

variable {σ : Type}

namespace Executor

variable {ex : Executor σ} {walk : BranchWalk σ} {g : Graph}

/-! ## What a traversal yields while others act -/

/-- A traversal's outcome has its flow's name, and its entries are in key order. -/
def Tidy (flow : String) (t : Traversal) : Prop := t.outcome.flow = flow ∧ t.updates.Sorted

theorem tidy_ending {p : Progress} {o : FlowOutcome} (hp : p.updates.Sorted) (ho : o.flow = p.flow) :
    Tidy p.flow (ending p o) := ⟨ho, hp⟩

theorem Comes.sorted {pos p : Position} (h : Comes ex walk g pos p) (hpos : pos.progress.updates.Sorted) :
    p.progress.updates.Sorted := by
  induction h with
  | here => exact hpos
  | onward _ _ _ hturn ih =>
    cases hturn
    exact ih.merge _

theorem of_traverse_yields {start : FlowStart} {context : Context} {record : Option Record} {t : Traversal}
    {kept : Option Record} (h : (traverse ex walk g start context record).Yields (.ok t, kept)) : Tidy g.name t := by
  obtain ⟨p, hcomes, hends⟩ := ends_of_traverse h
  have hflow : p.progress.flow = g.name := hcomes.flow_eq
  have hsorted := hcomes.sorted Dict.sorted_empty
  rw [← hflow]
  cases hends with
  | full => exact tidy_ending hsorted rfl
  | done _ _ hturn =>
    cases hturn with
    | failed => exact tidy_ending (hsorted.merge _) rfl
    | finished o stopping _ hroute => exact tidy_ending (hsorted.merge _) (Progress.flow_of_route_finish hroute)

end Executor

/-- The ends that the task of a branch can have: a traversal that the branch comes to
    while others act, an error, a panic, or none. -/
inductive BranchEnd.Of (ex : Executor σ) (levels : Nat) (branch : Graph) (start : FlowStart) (context : Context) :
    BranchEnd → Prop
  | finished {t : Traversal} {kept : Option Record} :
      (ex.traverse (ex.walkBranch levels) branch start context none).Yields (.ok t, kept) →
      Of ex levels branch start context (.finished t)
  | aborted (reason : String) : Of ex levels branch start context (.aborted reason)
  | panicked : Of ex levels branch start context .panicked
  | lost : Of ex levels branch start context .lost

theorem BranchEnd.Of.tidy {ex : Executor σ} {levels : Nat} {branch : Graph} {start : FlowStart} {context : Context}
    {t : Traversal} (h : BranchEnd.Of ex levels branch start context (.finished t)) : Executor.Tidy branch.name t := by
  cases h with
  | finished hyields => exact Executor.of_traverse_yields hyields

namespace Executor

variable {ex : Executor σ} {walk : BranchWalk σ}

/-! ## One after the other -/

/-- A walk from any world comes to this end; what it panics with is not told. -/
def Brings (walk : BranchWalk σ) (branch : Graph) (start : FlowStart) (context : Context) (e : BranchEnd) : Prop :=
  ∀ w, (∃ w', (walk branch start context).run w = (.ok e, w')) ∨
    e = .panicked ∧ ∃ p w', (walk branch start context).run w = (.error (.panic p), w')

theorem isFull_nil (ex : Executor σ) : ex.isFull [] = false := by
  by_cases h : ex.config.maxParallelBranches = 0 <;> simp [isFull, h]

/-- A branch for which there is a place is walked before the others. -/
theorem run_walkBranches_cons {context : Context} {halted : List Halt} (hfull : ex.isFull halted = false) (i : Nat)
    (b : Graph) (start : FlowStart) (rest : List (Nat × Graph × FlowStart)) (w : World σ) :
    (ex.walkBranches walk context halted ((i, b, start) :: rest)).run w =
      match (walk b start context).run w with
      | (.ok e, w) => (ex.walkBranches walk context halted rest >>= fun ends => pure ((i, e) :: ends)).run w
      | (.error (.panic _), w) =>
        (ex.walkBranches walk context halted rest >>= fun ends => pure ((i, .panicked) :: ends)).run w
      | (.error h, w) => (ex.walkBranches walk context (h :: halted) rest).run w := by
  simp only [walkBranches, hfull, Bool.false_eq_true, if_false]
  rw [Act.run_bind, Act.run_attempt]
  rcases (walk b start context).run w with ⟨h | e, w₁⟩
  · cases h <;> rfl
  · rfl

theorem run_walkBranches {context : Context} {result : Nat → BranchEnd} {starts : List (Nat × Graph × FlowStart)}
    (h : ∀ i b start, (i, b, start) ∈ starts → Brings walk b start context (result i)) (w : World σ) :
    ∃ w', (ex.walkBranches walk context [] starts).run w = (.ok (starts.map fun x => (x.1, result x.1)), w') := by
  induction starts generalizing w with
  | nil => exact ⟨w, rfl⟩
  | cons x rest ih =>
    obtain ⟨i, b, start⟩ := x
    have hrest := ih fun j c s hmem => h j c s (List.mem_cons_of_mem _ hmem)
    rw [run_walkBranches_cons (isFull_nil ex)]
    rcases h i b start List.mem_cons_self w with ⟨w₁, hrun⟩ | ⟨hpanicked, p, w₁, hrun⟩
    · obtain ⟨w₂, hwalk⟩ := hrest w₁
      simp only [hrun, Act.run_bind_ok hwalk, Act.run_pure]
      exact ⟨w₂, rfl⟩
    · obtain ⟨w₂, hwalk⟩ := hrest w₁
      simp only [hrun, Act.run_bind_ok hwalk, Act.run_pure, List.map_cons, hpanicked]
      exact ⟨w₂, rfl⟩

/-- The walk that takes the branches one after the other joins to the same visit. -/
theorem run_visitSplit {p : Progress} {branches : List Graph} {prior : Option (List FlowOutcome)}
    {result : Nat → BranchEnd} (hplaces : ex.config.maxParallelBranches ≤ maxPlaces)
    (h : ∀ i b start, (i, b, start) ∈ Split.toRun branches (Split.plan prior branches) →
      Brings walk b start p.context (result i)) (w : World σ) :
    ∃ w', (visitSplit ex walk p branches prior).run w =
      (.ok (Split.joined branches (Split.plan prior branches) p.context result), w') := by
  have hwalks : ∃ w', (ex.walkBranches walk p.context [] (Split.toRun branches (Split.plan prior branches))).run w =
      (.ok ((Split.toRun branches (Split.plan prior branches)).map fun x => (x.1, result x.1)), w') :=
    run_walkBranches h w
  obtain ⟨w', hrun⟩ := hwalks
  refine ⟨w', ?_⟩
  simp only [visitSplit, if_neg (Nat.not_lt.mpr hplaces)]
  have hends : ∀ x ∈ Split.toRun branches (Split.plan prior branches),
      Split.endAt ((Split.toRun branches (Split.plan prior branches)).map fun y => (y.1, result y.1)) x.1
        = result x.1 := by
    intro x hx
    refine Split.Tasks.endAt_eq (fun y hy => ?_) (Or.inl (List.mem_map.mpr ⟨x, hx, rfl⟩))
    obtain ⟨z, -, rfl⟩ := List.mem_map.mp hy
    rfl
  simp only [Act.run_bind, Act.run_pure, hrun, Split.join_eq hends]

/-! ## In any order -/

/-- Whatever the branches of a split come to, the visit does not depend on the order in
    which their tasks end, nor on how many may run at once. It has one outcome for each
    branch, in their order and of their names; it fails exactly if one of them ended
    unsuccessfully; of the entries of one key it has the latest branch's. -/
theorem split_joined (ex : Executor σ) (hplaces : ex.config.maxParallelBranches ≤ maxPlaces) (levels : Nat)
    (p : Progress) (branches : List Graph) (prior : Option (List FlowOutcome)) (result : Nat → BranchEnd)
    (hresult : ∀ i b start, (i, b, start) ∈ Split.toRun branches (Split.plan prior branches) →
      BranchEnd.Of ex levels b start p.context (result i)) :
    ∃ v : Visit, ∃ outcomes : List FlowOutcome,
      (∀ tasks, Split.Tasks.Steps ex.config.maxParallelBranches result
          (Split.Tasks.launched (Split.toRun branches (Split.plan prior branches))) tasks →
        (tasks.Over → Split.join branches (Split.plan prior branches) p.context tasks.ends = v) ∧
          ∃ last, Split.Tasks.Steps ex.config.maxParallelBranches result tasks last ∧ last.Over) ∧
      (∀ walk : BranchWalk σ, (∀ i b start, (i, b, start) ∈ Split.toRun branches (Split.plan prior branches) →
          Brings walk b start p.context (result i)) →
        ∀ w, ∃ w', (visitSplit ex walk p branches prior).run w = (.ok v, w')) ∧
      v.branches = some outcomes ∧ v.failure = none ∧
      outcomes = (Split.filled branches (Split.plan prior branches) p.context result).map (·.outcome) ∧
      outcomes.map (·.flow) = branches.map (·.name) ∧
      (if ∃ o ∈ outcomes, o.status = .failed ∨ o.status = .abandoned ∨ o.status = .unknown then
        v.status = .failed ∧ v.exit.code = Exit.failed.code
      else v.status = .completed ∧ v.exit = Exit.completed) ∧
      ∀ key, v.updates.get? key =
        (Split.filled branches (Split.plan prior branches) p.context result).reverse.findSome? (·.updates.get? key) := by
  refine ⟨Split.joined branches (Split.plan prior branches) p.context result, _, ?_, ?_, rfl, rfl, rfl, ?_, ?_, ?_⟩
  · intro tasks hsteps
    exact ⟨fun hover => Split.join_of_over hsteps hover, Split.Tasks.exists_over _ _ tasks⟩
  · intro walk hwalk w
    exact run_visitSplit hplaces hwalk w
  · rw [List.map_map]
    refine Split.flows_filled fun i b start hmem t hend => ?_
    have hof := hresult i b start hmem
    rw [hend] at hof
    exact hof.tidy.1
  · have hcases := Split.aggregate_cases
      ((Split.filled branches (Split.plan prior branches) p.context result).map (·.outcome))
    split
    next hbad =>
      rw [if_pos hbad] at hcases
      exact hcases
    next hgood =>
      rw [if_neg hgood] at hcases
      simp only [Split.joined, hcases, and_self]
  · intro key
    refine Split.get?_merged (Split.sorted_filled fun x hx t hend => ?_) key
    have hof := hresult x.1 x.2.1 x.2.2 hx
    rw [hend] at hof
    exact hof.tidy.2

/-! ## Three reports at once -/

namespace Reports

def sums : Graph := ⟨"sums", "add", [⟨"add", .step "add", []⟩]⟩

def letters : Graph := ⟨"letters", "print", [⟨"print", .step "print", []⟩]⟩

def totals : Graph := ⟨"totals", "count", [⟨"count", .step "count", []⟩]⟩

/-- Runs one branch at a time; every step leaves its name. -/
def clerk : Executor Unit :=
  { config := { maxParallelBranches := 1 }
    units :=
      { step := fun name => some fun _ m => .finish m (.result
          { status := .completed, exit := Exit.completed, updates := Dict.empty.insert "by" (.str name) })
        decider := fun _ => none }
    launch := none
    answer := fun _ => pure .unavailable
    scope := ⟨"reports", ⟨"reports"⟩, ExecutionId.numbered 0 0, 2, Dict.empty, 0, 0⟩ }

def before : Progress := Progress.start "reports" Dict.empty none

def summed : List FlowOutcome := [{ flow := "sums", status := .completed, exit := Exit.completed }]

def printed : Traversal :=
  { outcome :=
      { flow := "letters"
        status := .completed
        exit := Exit.completed
        completed := ["print"]
        lastNode := some "print"
        lastExit := some Exit.completed }
    context := Dict.empty.insert "by" (.str "print")
    updates := Dict.empty.insert "by" (.str "print") }

def result (i : Nat) : BranchEnd := if i = 1 then .finished printed else .panicked

def office : World Unit :=
  { repository := { store := .shelf Shelf.empty }
    bus := Bus.ofCapacity 4
    clock := { origin := Instant.ofSeconds 0 0 }
    memory := () }

theorem run_letters : ((clerk.traverse (clerk.walkBranch 0) letters (FlowStart.entry letters) Dict.empty none).run
    office).1 = .ok (.ok printed, none) := by rfl

theorem reports_joined :
    ∃ v : Visit,
      (∀ tasks, Split.Tasks.Steps 1 result
          (Split.Tasks.launched (Split.toRun [sums, letters, totals] (Split.plan (some summed) [sums, letters, totals])))
          tasks → tasks.Over →
        Split.join [sums, letters, totals] (Split.plan (some summed) [sums, letters, totals]) Dict.empty tasks.ends
          = v) ∧
      v.branches.map (·.map fun o => (o.flow, o.status)) =
        some [("sums", .completed), ("letters", .completed), ("totals", .failed)] ∧
      v.status = .failed ∧ v.updates.get? "by" = some (.str "print") := by
  have hresult : ∀ i b start, (i, b, start) ∈ Split.toRun [sums, letters, totals]
      (Split.plan (some summed) [sums, letters, totals]) →
      BranchEnd.Of clerk 0 b start before.context (result i) := by
    intro i b start hmem
    have hstarts : Split.toRun [sums, letters, totals] (Split.plan (some summed) [sums, letters, totals]) =
        [(1, letters, FlowStart.entry letters), (2, totals, FlowStart.entry totals)] := by rfl
    rw [hstarts] at hmem
    rcases List.mem_cons.mp hmem with heq | hmem
    · cases heq
      exact .finished (Act.Yields.of_run (Prod.ext run_letters rfl))
    · cases List.mem_singleton.mp hmem
      exact .panicked
  obtain ⟨v, outcomes, hany, -, hbranches, -, rfl, -, hstatus, hupdates⟩ :=
    split_joined clerk (by decide) 0 before [sums, letters, totals] (some summed) result hresult
  refine ⟨v, fun tasks hsteps hover => (hany tasks hsteps).1 hover, ?_, ?_, ?_⟩
  · rw [hbranches]
    rfl
  · have hfailed : ∃ o ∈ (Split.filled [sums, letters, totals] (Split.plan (some summed) [sums, letters, totals])
        before.context result).map (·.outcome), o.status = .failed ∨ o.status = .abandoned ∨ o.status = .unknown :=
      ⟨_, List.mem_cons_of_mem _ (List.mem_cons_of_mem _ List.mem_cons_self), Or.inl rfl⟩
    rw [if_pos hfailed] at hstatus
    exact hstatus.1
  · rw [hupdates]
    rfl

end Reports

end Executor

end Switchyard
