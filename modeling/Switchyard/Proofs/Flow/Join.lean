import Mathlib.Logic.Relation
import Switchyard.Proofs.Dict
import Switchyard.Proofs.Flow.Split

/-
  Switchyard.Proofs.Flow.Join — the tasks of a split's branches, and the visit they
  are joined to.

  Every branch walked is a task of its own. A task waits until fewer than the limit run,
  runs, and ends; its end is noted with the place of its branch, so the ends stand in
  the order in which they came in. A task that is lost, waiting or running, leaves no
  end behind. `Tasks.Steps` takes such steps in any order.

  - `Tasks.Tally.step`: no step loses count of a place, or puts another end in it.
  - `Tasks.Step.left_lt`, `Tasks.exists_over`: no schedule is longer than two steps for
    each task, and from wherever the tasks are they can all come to their ends.
  - `join_of_over`: once they are over, the ends join to what `filled` says, which is
    told by the result of each place alone.
  - `flows_filled`, `aggregate_cases`, `get?_merged`: the names, the status and the
    entries of what is joined.
-/

namespace Switchyard.Split

structure Tasks where
  waiting : List Nat
  running : List Nat
  /-- The ends that have come in, the earliest first. -/
  ends : List (Nat × BranchEnd) := []

/-- What each branch contributes when the branch at place `i` comes to `result i`. -/
def filled (branches : List Graph) (plans : List Plan) (context : Context) (result : Nat → BranchEnd) :
    List Traversal :=
  (branches.zip plans).zipIdx.map fun
    | ((_, .reuse o), _) => { outcome := o, context, updates := Dict.empty }
    | ((b, .run _), i) => settle b context (result i)

namespace Tasks

def launched (started : List (Nat × Graph × FlowStart)) : Tasks := { waiting := started.map (·.1), running := [] }

/-- May another one run? No limit is written as zero. -/
def HasRoom (limit : Nat) (s : Tasks) : Prop := limit = 0 ∨ s.running.length < limit

def Over (s : Tasks) : Prop := s.waiting = [] ∧ s.running = []

inductive Step (limit : Nat) (result : Nat → BranchEnd) : Tasks → Tasks → Prop
  | begin {s : Tasks} {i : Nat} : i ∈ s.waiting → s.HasRoom limit →
      Step limit result s { s with waiting := s.waiting.erase i, running := i :: s.running }
  | finish {s : Tasks} {i : Nat} : i ∈ s.running →
      Step limit result s { s with running := s.running.erase i, ends := s.ends ++ [(i, result i)] }
  | lose {s : Tasks} {i : Nat} : i ∈ s.waiting ∨ i ∈ s.running → result i = .lost →
      Step limit result s { s with waiting := s.waiting.erase i, running := s.running.erase i }

abbrev Steps (limit : Nat) (result : Nat → BranchEnd) : Tasks → Tasks → Prop :=
  Relation.ReflTransGen (Step limit result)

variable {limit : Nat} {result : Nat → BranchEnd} {places : List Nat} {s t : Tasks}

/-! ## No place is lost sight of -/

/-- Every place is waiting, running, ended or lost, and every end is the one of its
    place. -/
structure Tally (result : Nat → BranchEnd) (places : List Nat) (s : Tasks) : Prop where
  held : ∀ i ∈ places, i ∈ s.waiting ∨ i ∈ s.running ∨ (i, result i) ∈ s.ends ∨ result i = .lost
  truthful : ∀ x ∈ s.ends, x.2 = result x.1

theorem Tally.launched (result : Nat → BranchEnd) (started : List (Nat × Graph × FlowStart)) :
    Tally result (started.map (·.1)) (Tasks.launched started) where
  held _ hi := Or.inl hi
  truthful _ hx := by cases hx

theorem mem_erase_or {i : Nat} {l : List Nat} (h : i ∈ l) (j : Nat) : i ∈ l.erase j ∨ i = j := by
  by_cases hij : i = j
  · exact Or.inr hij
  · exact Or.inl ((List.mem_erase_of_ne hij).mpr h)

theorem Tally.step (h : Tally result places s) (hstep : Step limit result s t) : Tally result places t := by
  cases hstep with
  | @begin j hj hroom =>
    refine ⟨fun i hi => ?_, h.truthful⟩
    rcases h.held i hi with hw | hr | he | hl
    · rcases mem_erase_or hw j with hw | rfl
      · exact Or.inl hw
      · exact Or.inr (Or.inl List.mem_cons_self)
    · exact Or.inr (Or.inl (List.mem_cons_of_mem _ hr))
    · exact Or.inr (Or.inr (Or.inl he))
    · exact Or.inr (Or.inr (Or.inr hl))
  | @finish j hj =>
    constructor
    · intro i hi
      rcases h.held i hi with hw | hr | he | hl
      · exact Or.inl hw
      · rcases mem_erase_or hr j with hr | rfl
        · exact Or.inr (Or.inl hr)
        · exact Or.inr (Or.inr (Or.inl (List.mem_append_right _ List.mem_cons_self)))
      · exact Or.inr (Or.inr (Or.inl (List.mem_append_left _ he)))
      · exact Or.inr (Or.inr (Or.inr hl))
    · intro x hx
      rcases List.mem_append.mp hx with hx | hx
      · exact h.truthful x hx
      · rw [List.mem_singleton.mp hx]
  | @lose j hj hlost =>
    refine ⟨fun i hi => ?_, h.truthful⟩
    rcases h.held i hi with hw | hr | he | hl
    · rcases mem_erase_or hw j with hw | rfl
      · exact Or.inl hw
      · exact Or.inr (Or.inr (Or.inr hlost))
    · rcases mem_erase_or hr j with hr | rfl
      · exact Or.inr (Or.inl hr)
      · exact Or.inr (Or.inr (Or.inr hlost))
    · exact Or.inr (Or.inr (Or.inl he))
    · exact Or.inr (Or.inr (Or.inr hl))

theorem Tally.steps (h : Tally result places s) (hsteps : Steps limit result s t) : Tally result places t := by
  induction hsteps with
  | refl => exact h
  | tail _ hstep ih => exact ih.step hstep

theorem endAt_eq {ends : List (Nat × BranchEnd)} (htrue : ∀ x ∈ ends, x.2 = result x.1) {i : Nat}
    (hi : (i, result i) ∈ ends ∨ result i = .lost) : endAt ends i = result i := by
  unfold endAt
  cases hfind : ends.reverse.find? (·.1 = i) with
  | some x =>
    have hmem : x ∈ ends := List.mem_reverse.mp (List.mem_of_find?_eq_some hfind)
    have hplace : x.1 = i := by simpa using List.find?_some hfind
    simp [htrue x hmem, hplace]
  | none =>
    rcases hi with hi | hlost
    · have hnot := List.find?_eq_none.mp hfind (i, result i) (List.mem_reverse.mpr hi)
      simp at hnot
    · simp [hlost]

theorem Tally.endAt (h : Tally result places s) (hover : s.Over) {i : Nat} (hi : i ∈ places) :
    Split.endAt s.ends i = result i := by
  refine endAt_eq h.truthful ?_
  rcases h.held i hi with hw | hr | hrest
  · rw [hover.1] at hw
    cases hw
  · rw [hover.2] at hr
    cases hr
  · exact hrest

/-! ## The tasks come to their ends -/

/-- The steps that are left: two for a task that waits, one for a task that runs. -/
def left (s : Tasks) : Nat := 2 * s.waiting.length + s.running.length

theorem length_erase_lt {i : Nat} {l : List Nat} (h : i ∈ l) : (l.erase i).length < l.length := by
  have hpos : 0 < l.length := List.length_pos_of_mem h
  rw [List.length_erase_of_mem h]
  omega

/-- Every step brings the tasks nearer to their ends. -/
theorem Step.left_lt (h : Step limit result s t) : t.left < s.left := by
  cases h with
  | begin hi =>
    have := length_erase_lt hi
    simp only [left, List.length_cons]
    omega
  | finish hi =>
    have := length_erase_lt hi
    simp only [left]
    omega
  | @lose i hi =>
    have hwaiting : (s.waiting.erase i).length ≤ s.waiting.length := List.length_erase_le
    have hrunning : (s.running.erase i).length ≤ s.running.length := List.length_erase_le
    simp only [left]
    rcases hi with hi | hi
    · have := length_erase_lt hi
      omega
    · have := length_erase_lt hi
      omega

/-- A task that runs can finish, and where none runs there is room for one. -/
theorem exists_step (limit : Nat) (result : Nat → BranchEnd) (h : ¬ s.Over) : ∃ t, Step limit result s t := by
  cases hrunning : s.running with
  | cons i rest => exact ⟨_, .finish (i := i) (by simp [hrunning])⟩
  | nil =>
    cases hwaiting : s.waiting with
    | nil => exact absurd ⟨hwaiting, hrunning⟩ h
    | cons i rest =>
      have hroom : s.HasRoom limit := by
        by_cases hlimit : limit = 0
        · exact Or.inl hlimit
        · refine Or.inr ?_
          rw [hrunning, List.length_nil]
          omega
      exact ⟨_, .begin (i := i) (by simp [hwaiting]) hroom⟩

theorem exists_over (limit : Nat) (result : Nat → BranchEnd) (s : Tasks) : ∃ t, Steps limit result s t ∧ t.Over := by
  induction hn : s.left using Nat.strongRecOn generalizing s with
  | ind n ih =>
    by_cases hover : s.Over
    · exact ⟨s, .refl, hover⟩
    · obtain ⟨t, hstep⟩ := exists_step limit result hover
      obtain ⟨u, hsteps, hover⟩ := ih t.left (hn ▸ hstep.left_lt) t rfl
      exact ⟨u, .head hstep hsteps, hover⟩

end Tasks

/-! ## What is joined -/

variable {branches : List Graph} {plans : List Plan} {context : Context} {result : Nat → BranchEnd}

theorem mem_toRun {i : Nat} {b : Graph} {start : FlowStart} :
    (i, b, start) ∈ toRun branches plans ↔ ((b, .run start), i) ∈ (branches.zip plans).zipIdx := by
  simp only [toRun, List.mem_filterMap]
  constructor
  · rintro ⟨⟨⟨c, plan⟩, j⟩, hmem, heq⟩
    cases plan with
    | reuse o => cases heq
    | run s =>
      cases heq
      exact hmem
  · intro h
    exact ⟨_, h, rfl⟩

theorem contributions_eq {ends : List (Nat × BranchEnd)}
    (h : ∀ x ∈ toRun branches plans, endAt ends x.1 = result x.1) :
    contributions branches plans context ends = filled branches plans context result := by
  refine List.map_congr_left fun x hx => ?_
  obtain ⟨⟨b, plan⟩, i⟩ := x
  cases plan with
  | reuse o => rfl
  | run start =>
    have hend : endAt ends i = result i := h (i, b, start) (mem_toRun.mpr hx)
    simp only [hend]

def joined (branches : List Graph) (plans : List Plan) (context : Context) (result : Nat → BranchEnd) : Visit :=
  let traversals := filled branches plans context result
  let outcomes := traversals.map (·.outcome)
  { status := (aggregate outcomes).1
    exit := (aggregate outcomes).2
    updates := traversals.foldl (fun acc t => acc.merge t.updates) Dict.empty
    branches := some outcomes }

theorem join_eq {ends : List (Nat × BranchEnd)} (h : ∀ x ∈ toRun branches plans, endAt ends x.1 = result x.1) :
    join branches plans context ends = joined branches plans context result := by
  simp only [join, joined, contributions_eq h]

/-- In whatever order the tasks ended, they are joined to one visit. -/
theorem join_of_over {limit : Nat} {tasks : Tasks}
    (hsteps : Tasks.Steps limit result (Tasks.launched (toRun branches plans)) tasks) (hover : tasks.Over) :
    join branches plans context tasks.ends = joined branches plans context result := by
  have htally := (Tasks.Tally.launched result (toRun branches plans)).steps hsteps
  refine join_eq fun x hx => ?_
  exact htally.endAt hover (List.mem_map_of_mem hx)

/-! ## Names -/

/-- Earlier outcomes are found by the names of their flows. -/
theorem flow_of_mem_byFlow {prior : List FlowOutcome} : ∀ x ∈ (byFlow prior).entries, x.2.flow = x.1 := by
  suffices h : ∀ (os : List FlowOutcome) (d : Dict FlowOutcome), (∀ x ∈ d.entries, x.2.flow = x.1) →
      ∀ x ∈ ((os.map fun o => (o.flow, o)).foldl (fun acc e => acc.insert e.1 e.2) d).entries, x.2.flow = x.1 from
    h prior Dict.empty (by intro x hx; cases hx)
  intro os
  induction os with
  | nil => exact fun d hd => hd
  | cons o rest ih =>
    intro d hd
    refine ih (d.insert o.flow o) fun x hx => ?_
    rcases Dict.mem_insert hx with rfl | hx
    · rfl
    · exact hd x hx

theorem planFrom_named {prior : Dict FlowOutcome} (h : ∀ x ∈ prior.entries, x.2.flow = x.1) :
    ∀ x ∈ branches.zip (planFrom prior branches), ∀ o, x.2 = .reuse o → o.flow = x.1.name := by
  induction branches generalizing prior with
  | nil =>
    intro x hx
    cases hx
  | cons b rest ih =>
    intro x hx o ho
    rw [planFrom, List.zip_cons_cons] at hx
    rcases List.mem_cons.mp hx with rfl | hx
    · cases hget : prior.get? b.name with
      | none => simp [planOne, hget] at ho
      | some previous =>
        have hflow : previous.flow = b.name := h _ (Dict.mem_of_get? hget)
        by_cases hdone : previous.status = .completed
        · simp only [planOne, hget, if_pos hdone] at ho
          cases ho
          exact hflow
        · simp [planOne, hget, hdone] at ho
    · have herased : ∀ y ∈ (prior.erase b.name).entries, y.2.flow = y.1 := fun y hy => h y (List.mem_of_mem_filter hy)
      exact ih herased x hx o ho

theorem length_planFrom (prior : Dict FlowOutcome) (branches : List Graph) :
    (planFrom prior branches).length = branches.length := by
  induction branches generalizing prior with
  | nil => rfl
  | cons b rest ih => simp [planFrom, ih]

/-- One outcome for each branch, in their order and of their names. -/
theorem flows_filled {prior : Option (List FlowOutcome)}
    (hresult : ∀ i b start, (i, b, start) ∈ toRun branches (plan prior branches) → ∀ t, result i = .finished t →
      t.outcome.flow = b.name) :
    (filled branches (plan prior branches) context result).map (·.outcome.flow) = branches.map (·.name) := by
  have hlength : branches.length ≤ (plan prior branches).length := Nat.le_of_eq (length_planFrom _ branches).symm
  calc (filled branches (plan prior branches) context result).map (·.outcome.flow)
      = (branches.zip (plan prior branches)).zipIdx.map fun x => x.1.1.name := by
        rw [filled, List.map_map]
        refine List.map_congr_left fun x hx => ?_
        obtain ⟨⟨b, plan⟩, i⟩ := x
        cases plan with
        | reuse o =>
          have hmem : (b, .reuse o) ∈ branches.zip (Split.plan prior branches) := List.fst_mem_of_mem_zipIdx hx
          exact planFrom_named flow_of_mem_byFlow (b, .reuse o) hmem o rfl
        | run start =>
          simp only [Function.comp]
          cases hend : result i with
          | finished t => exact hresult i b start (mem_toRun.mpr hx) t hend
          | aborted reason => rfl
          | panicked => rfl
          | lost => rfl
    _ = ((branches.zip (plan prior branches)).zipIdx.map Prod.fst).map (·.1.name) := by rw [List.map_map]; rfl
    _ = ((branches.zip (plan prior branches)).map Prod.fst).map (·.name) := by
        rw [List.zipIdx_map_fst, List.map_map]
        rfl
    _ = branches.map (·.name) := by rw [List.map_fst_zip hlength]

/-! ## Status and entries -/

theorem isUnsuccessful_iff (s : Status) :
    s.isUnsuccessful = true ↔ s = .failed ∨ s = .abandoned ∨ s = .unknown := by
  cases s <;> decide

/-- A split fails exactly if a branch ended unsuccessfully, and completes otherwise. -/
theorem aggregate_cases (outcomes : List FlowOutcome) :
    if ∃ o ∈ outcomes, o.status = .failed ∨ o.status = .abandoned ∨ o.status = .unknown then
      (aggregate outcomes).1 = .failed ∧ (aggregate outcomes).2.code = Exit.failed.code
    else aggregate outcomes = (.completed, Exit.completed) := by
  simp only [← isUnsuccessful_iff]
  split
  next h =>
    obtain ⟨o, ho, hbad⟩ := h
    have hne : (outcomes.filter (·.status.isUnsuccessful)).map (·.flow) ≠ [] := by
      intro hnil
      have hmem : o ∈ outcomes.filter (·.status.isUnsuccessful) := List.mem_filter.mpr ⟨ho, hbad⟩
      rw [List.map_eq_nil_iff.mp hnil] at hmem
      cases hmem
    rw [aggregate, if_neg hne]
    exact ⟨rfl, rfl⟩
  next h =>
    have hnil : outcomes.filter (·.status.isUnsuccessful) = [] :=
      List.filter_eq_nil_iff.mpr fun o ho hbad => h ⟨o, ho, hbad⟩
    simp [aggregate, hnil]

/-- Of several entries of one key, the one of the latest branch stays. -/
theorem get?_merged {ts : List Traversal} (h : ∀ t ∈ ts, t.updates.Sorted) (key : String) :
    (ts.foldl (fun acc t => acc.merge t.updates) Dict.empty).get? key =
      ts.reverse.findSome? fun t => t.updates.get? key := by
  suffices hacc : ∀ acc : Context, (ts.foldl (fun acc t => acc.merge t.updates) acc).get? key =
      (ts.reverse.findSome? fun t => t.updates.get? key).or (acc.get? key) by
    rw [hacc, show (Dict.empty : Context).get? key = none from rfl, Option.or_none]
  induction ts with
  | nil => exact fun acc => rfl
  | cons t rest ih =>
    intro acc
    rw [List.foldl_cons, ih (fun u hu => h u (List.mem_cons_of_mem _ hu)),
      Dict.get?_merge acc (h t List.mem_cons_self), List.reverse_cons, List.findSome?_append, Option.or_assoc]
    simp

theorem sorted_filled (hresult : ∀ x ∈ toRun branches plans, ∀ t, result x.1 = .finished t → t.updates.Sorted) :
    ∀ t ∈ filled branches plans context result, t.updates.Sorted := by
  intro t ht
  obtain ⟨⟨⟨b, plan⟩, i⟩, hx, rfl⟩ := List.mem_map.mp ht
  cases plan with
  | reuse o => exact Dict.sorted_empty
  | run start =>
    simp only
    cases hend : result i with
    | finished t => exact hresult (i, b, start) (mem_toRun.mpr hx) t hend
    | aborted reason => exact Dict.sorted_empty
    | panicked => exact Dict.sorted_empty
    | lost => exact Dict.sorted_empty

end Switchyard.Split
