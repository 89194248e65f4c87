import Switchyard.Proofs.Engine.Branches
import Switchyard.Proofs.Engine.Resplit

/-
  Switchyard.Proofs.Engine.Tour — traversals, and the traversals of branches within them.

  A `Tour` is a traversal with everything it is done with, the world it begins in
  included; the job's own flow and every branch walked are tours. `Tour.branches` lists
  the tours that a visit to a split makes, each in the world that the one before left.

  What a visit to a split comes to is told by these tours and by the earlier outcomes
  that it was given:
  - `joined_of_came`: a visit that comes to an end makes the tours that its plan asks
    for, and joins their ends;
  - `reused_of_earlier`: a branch with an earlier outcome that completed is not walked,
    and the visit leaves that outcome as it is;
  - `walked_of_earlier`: every other branch is walked, from where its earlier outcome
    stands, and the visit leaves what it came to;
  - `updates_of_came`: the visit writes what its tours wrote, and nothing else.
-/

namespace Switchyard

variable {σ : Type}

/-! ## Joining, branch by branch -/

def BranchEnd.updates : BranchEnd → Context
  | .finished t => t.updates
  | _ => Dict.empty

namespace Split

def contribution (context : Context) (ends : List (Nat × BranchEnd)) (branch : Graph) (i : Nat) : Plan → Traversal
  | .reuse o => { outcome := o, context, updates := Dict.empty }
  | .run _ => settle branch context (endAt ends i)

theorem contributions_map (plan : Graph → Plan) (branches : List Graph) (context : Context)
    (ends : List (Nat × BranchEnd)) :
    contributions branches (branches.map plan) context ends =
      branches.zipIdx.map fun x => contribution context ends x.1 x.2 (plan x.1) := by
  have hzip : (branches.map id).zip (branches.map plan) = branches.map fun b => (b, plan b) := List.zip_map'
  rw [List.map_id] at hzip
  rw [contributions, hzip, List.zipIdx_map, List.map_map]
  refine List.map_congr_left fun x _ => ?_
  simp only [Function.comp, Prod.map, contribution]
  cases plan x.1 <;> rfl

theorem find?_of_nodup {α : Type u} {β : Type} [DecidableEq β] {f : α → β} {l : List α} (h : (l.map f).Nodup) {x : α}
    (hx : x ∈ l) : l.find? (fun y => f y = f x) = some x := by
  induction l with
  | nil => cases hx
  | cons y rest ih =>
    obtain ⟨hy, hrest⟩ := List.nodup_cons.mp h
    rcases List.mem_cons.mp hx with rfl | hx
    · simp
    · have hne : f y ≠ f x := fun heq => hy (heq ▸ List.mem_map_of_mem hx)
      rw [List.find?_cons_of_neg (by simpa using hne)]
      exact ih hrest hx

/-- Where no place has two ends, every end is found at its place. -/
theorem endAt_of_mem {ends : List (Nat × BranchEnd)} (h : (ends.map (·.1)).Nodup) {i : Nat} {e : BranchEnd}
    (he : (i, e) ∈ ends) : endAt ends i = e := by
  have hreverse : (ends.reverse.map (·.1)).Nodup := by
    rw [List.map_reverse]
    exact List.nodup_reverse.mpr h
  have hfind := find?_of_nodup hreverse (List.mem_reverse.mpr he)
  rw [endAt, hfind]
  rfl

/-- No place is walked twice. -/
theorem nodup_toRun (branches : List Graph) (plans : List Plan) : ((toRun branches plans).map (·.1)).Nodup := by
  have hsub : ((toRun branches plans).map (·.1)).Sublist ((branches.zip plans).zipIdx.map (·.2)) := by
    rw [toRun]
    generalize (branches.zip plans).zipIdx = l
    induction l with
    | nil => exact List.Sublist.refl _
    | cons x rest ih =>
      obtain ⟨⟨b, plan⟩, i⟩ := x
      cases plan with
      | reuse o => exact ih.cons _
      | run s => exact ih.cons_cons _
  refine hsub.nodup ?_
  rw [List.zipIdx_map_snd]
  exact List.nodup_range'

theorem updates_settle (b : Graph) (context : Context) (e : BranchEnd) : (settle b context e).updates = e.updates := by
  cases e <;> rfl

/-- A join writes what the branches that were walked contribute, in their order. -/
theorem updates_join {branches : List Graph} {plans : List Plan} (context : Context) {ends : List (Nat × BranchEnd)}
    (hends : ends.map (·.1) = (toRun branches plans).map (·.1)) :
    (join branches plans context ends).updates = ends.foldl (fun acc x => acc.merge x.2.updates) Dict.empty := by
  have hwalked : (join branches plans context ends).updates =
      (toRun branches plans).foldl (fun acc x => acc.merge (endAt ends x.1).updates) Dict.empty := by
    simp only [join, contributions, toRun, List.foldl_map, List.foldl_filterMap]
    refine List.foldl_ext _ _ _ fun acc x _ => ?_
    obtain ⟨⟨b, o | s⟩, i⟩ := x
    · rfl
    · exact congrArg acc.merge (updates_settle b context _)
  have hnodup : (ends.map (·.1)).Nodup := hends ▸ nodup_toRun branches plans
  calc (join branches plans context ends).updates
      = ((toRun branches plans).map (·.1)).foldl (fun acc i => acc.merge (endAt ends i).updates) Dict.empty := by
        rw [hwalked, List.foldl_map]
    _ = ends.foldl (fun acc x => acc.merge (endAt ends x.1).updates) Dict.empty := by rw [← hends, List.foldl_map]
    _ = ends.foldl (fun acc x => acc.merge x.2.updates) Dict.empty :=
        List.foldl_ext _ _ _ fun acc x hx => by rw [endAt_of_mem hnodup hx]

end Split

/-- What a visit to a split leaves of one of its branches. -/
def Visit.told? (v : Visit) (branch : String) : Option FlowOutcome := (v.branches.getD []).find? (·.flow = branch)

/-- What a visit knows of the earlier outcome of a branch. -/
def Executor.Stage.earlier (s : Executor.Stage σ) : String → Option FlowOutcome :=
  (Split.byFlow (s.pos.prior.getD [])).get?

/-! ## Tours -/

/-- A traversal of a flow, a job's own or a branch. -/
structure Tour (σ : Type) where
  ex : Executor σ
  /-- How deep the splits in it may be nested. -/
  levels : Nat
  graph : Graph
  start : FlowStart
  context : Context
  record : Option Record := none
  world : World σ

namespace Tour

def visits (t : Tour σ) : List (Executor.Stage σ) :=
  t.ex.stages (t.ex.walkBranch t.levels) t.graph t.start t.context t.record t.world

def came (t : Tour σ) : Except Halt Executor.Walked × World σ :=
  (t.ex.traverse (t.ex.walkBranch t.levels) t.graph t.start t.context t.record).run t.world

def traversal? (t : Tour σ) : Option Traversal :=
  match t.came.1 with
  | .ok (.ok x, _) => some x
  | _ => none

def outcome? (t : Tour σ) : Option FlowOutcome := t.traversal?.map (·.outcome)

def updates (t : Tour σ) : Context := (t.traversal?.map (·.updates)).getD Dict.empty

def ending (t : Tour σ) : BranchEnd :=
  match t.came.1 with
  | .ok (.ok x, _) => .finished x
  | .ok (.error e, _) => .aborted e.message
  | .error (.panic _) => .panicked
  | .error _ => .lost

theorem course (t : Tour σ) :
    Executor.Course t.ex t.graph t.ex.config.maxNodeVisits (Executor.Position.start t.graph t.start t.context t.record)
      t.visits t.came.1 t.came.2 :=
  Executor.course_of_traverse t.ex (t.ex.walkBranch t.levels) t.graph t.start t.context t.record t.world

theorem traversal?_eq_some {t : Tour σ} {x : Traversal} (h : t.traversal? = some x) :
    ∃ kept, t.came.1 = .ok (.ok x, kept) := by
  unfold traversal? at h
  split at h
  next y kept hcame =>
    cases h
    exact ⟨kept, hcame⟩
  · cases h

theorem flow_of_traversal {t : Tour σ} {x : Traversal} (h : t.traversal? = some x) :
    x.outcome.flow = t.graph.name := by
  obtain ⟨kept, hcame⟩ := traversal?_eq_some h
  exact (Executor.of_traverse_yields (Act.Yields.of_run (Prod.ext hcame rfl))).1

theorem flow_of_ending {t : Tour σ} {x : Traversal} (h : t.ending = .finished x) : x.outcome.flow = t.graph.name := by
  refine flow_of_traversal ?_
  unfold ending at h
  unfold traversal?
  split at h <;> cases h
  next hcame => rw [hcame]

theorem outcome_of_settle {t : Tour σ} {context : Context} {o : FlowOutcome} (h : t.outcome? = some o) :
    (Split.settle t.graph context t.ending).outcome = o := by
  obtain ⟨x, hx, rfl⟩ := Option.map_eq_some_iff.mp h
  obtain ⟨kept, hcame⟩ := traversal?_eq_some hx
  simp only [ending, hcame, Split.settle]

theorem updates_ending (t : Tour σ) : t.ending.updates = t.updates := by
  unfold ending updates traversal?
  rcases t.came.1 with h | ⟨e | x, kept⟩
  · cases h <;> rfl
  · rfl
  · rfl

/-- A branch that came to no outcome of its own counts as failed, and that is all there is. -/
theorem failed_of_settle {t : Tour σ} {b : Graph} {context : Context} (h : t.outcome? = none) :
    ∃ reason, Split.settle b context t.ending = Split.failedBranch b.name context reason := by
  have hnone : t.traversal? = none := Option.map_eq_none_iff.mp h
  unfold traversal? at hnone
  unfold ending
  rcases hcame : t.came.1 with e | ⟨e | x, kept⟩
  · cases e <;> exact ⟨_, rfl⟩
  · exact ⟨_, rfl⟩
  · simp [hcame] at hnone

end Tour

/-! ## The tours of a visit -/

namespace Executor

variable {ex : Executor σ} {walk : BranchWalk σ} {context : Context}

theorem run_walkBranch_ok {t : Tour σ} (hrecord : t.record = none) {x : Walked} {w' : World σ}
    (h : t.came = (.ok x, w')) :
    (t.ex.walkBranch (t.levels + 1) t.graph t.start t.context).run t.world = (.ok t.ending, w') := by
  have hrun : (t.ex.traverse (t.ex.walkBranch t.levels) t.graph t.start t.context none).run t.world = (.ok x, w') := by
    rw [← hrecord]
    exact h
  rw [walkBranch, Act.run_bind_ok hrun]
  obtain ⟨e | y, kept⟩ := x <;> simp [Tour.ending, h]

theorem run_walkBranch_error {t : Tour σ} (hrecord : t.record = none) {e : Halt} {w' : World σ}
    (h : t.came = (.error e, w')) :
    (t.ex.walkBranch (t.levels + 1) t.graph t.start t.context).run t.world = (.error e, w') := by
  have hrun : (t.ex.traverse (t.ex.walkBranch t.levels) t.graph t.start t.context none).run t.world = (.error e, w') := by
    rw [← hrecord]
    exact h
  rw [walkBranch, Act.run_bind_error hrun]

theorem run_allBegun {halted : List Halt} (h : halted ≠ []) (w : World σ) :
    ∃ e, (allBegun halted : Act σ _).run w = (.error e, w) := by
  refine ⟨halted.getLast h, ?_⟩
  rw [allBegun, List.getLast?_eq_some_getLast h, Act.run_broken]

/-- Once a branch never ends, neither does the split. -/
theorem run_walkBranches_halted {halted : List Halt} (h : halted ≠ []) (starts : List (Nat × Graph × FlowStart))
    (w : World σ) : ∃ e w', (ex.walkBranches walk context halted starts).run w = (.error e, w') := by
  induction starts generalizing halted w with
  | nil =>
    obtain ⟨e, he⟩ := run_allBegun h w
    exact ⟨e, w, by rw [walkBranches, he]⟩
  | cons x rest ih =>
    obtain ⟨i, b, start⟩ := x
    by_cases hfull : ex.isFull halted
    · obtain ⟨e, he⟩ := run_allBegun h w
      exact ⟨e, w, by simp only [walkBranches, hfull, if_true, he]⟩
    · rw [run_walkBranches_cons (by simpa using hfull)]
      rcases (walk b start context).run w with ⟨e | x, w₁⟩
      · cases e with
        | panic p =>
          obtain ⟨e, w₂, hrest⟩ := ih h w₁
          exact ⟨e, w₂, Act.run_bind_error hrest⟩
        | hang => exact ih (List.cons_ne_nil _ _) w₁
        | expired g => exact ih (List.cons_ne_nil _ _) w₁
        | tooDeep => exact ih (List.cons_ne_nil _ _) w₁
      · obtain ⟨e, w₂, hrest⟩ := ih h w₁
        exact ⟨e, w₂, Act.run_bind_error hrest⟩

/-- The tours that `walkBranches` makes, each with the place of its branch. -/
def followed (ex : Executor σ) (levels : Nat) (context : Context) :
    List Halt → List (Nat × Graph × FlowStart) → World σ → List (Nat × Tour σ)
  | _, [], _ => []
  | halted, (i, graph, start) :: rest, w =>
    if ex.isFull halted then []
    else
      let t : Tour σ := { ex, levels, graph, start, context, world := w }
      match t.came with
      | (.ok _, w) => (i, t) :: followed ex levels context halted rest w
      | (.error (.panic _), w) => (i, t) :: followed ex levels context halted rest w
      | (.error h, w) => (i, t) :: followed ex levels context (h :: halted) rest w

/-- Where every branch comes to an end, all were walked, and those are the ends. -/
theorem followed_of_walkBranches {levels : Nat} {starts : List (Nat × Graph × FlowStart)}
    {ends : List (Nat × BranchEnd)} {w w' : World σ}
    (h : (ex.walkBranches (ex.walkBranch (levels + 1)) context [] starts).run w = (.ok ends, w')) :
    (followed ex levels context [] starts w).map (fun x => (x.1, x.2.graph, x.2.start)) = starts ∧
      ends = (followed ex levels context [] starts w).map fun x => (x.1, x.2.ending) := by
  induction starts generalizing w ends with
  | nil =>
    cases h
    exact ⟨rfl, rfl⟩
  | cons x rest ih =>
    obtain ⟨i, graph, start⟩ := x
    rw [run_walkBranches_cons (isFull_nil ex)] at h
    simp only [followed, isFull_nil, Bool.false_eq_true, if_false]
    generalize ht : ({ ex, levels, graph, start, context, world := w } : Tour σ) = t
    have hrecord : t.record = none := by rw [← ht]
    have hpart : (i, t.graph, t.start) = (i, graph, start) := by rw [← ht]
    have hwalk : (ex.walkBranch (levels + 1) graph start context).run w =
        (t.ex.walkBranch (t.levels + 1) t.graph t.start t.context).run t.world := by rw [← ht]
    rw [hwalk] at h
    -- Only a panic breaks off a branch and lets the split come to an end.
    have hnever : ∀ e : Halt, (ex.walkBranches (ex.walkBranch (levels + 1)) context [e] rest).run t.came.2 ≠
        (.ok ends, w') := by
      intro e hok
      have hhalted : ∃ e' w₂, (ex.walkBranches (ex.walkBranch (levels + 1)) context [e] rest).run t.came.2 =
          (.error e', w₂) := run_walkBranches_halted (List.cons_ne_nil e []) rest t.came.2
      obtain ⟨e', w₂, herror⟩ := hhalted
      cases herror.symm.trans hok
    rcases hcame : t.came with ⟨e | x, w₁⟩
    · rw [run_walkBranch_error hrecord hcame] at h
      rw [hcame] at hnever
      cases e with
      | panic p =>
        obtain ⟨others, w₂, hrest, h⟩ := Act.run_bind_eq_ok h
        cases h
        obtain ⟨hstarts, rfl⟩ := ih hrest
        have hending : t.ending = .panicked := by simp [Tour.ending, hcame]
        simp only [List.map_cons, hstarts, hpart, hending, and_self]
      | hang => exact absurd h (hnever _)
      | expired g => exact absurd h (hnever _)
      | tooDeep => exact absurd h (hnever _)
    · rw [run_walkBranch_ok hrecord hcame] at h
      obtain ⟨others, w₂, hrest, h⟩ := Act.run_bind_eq_ok h
      cases h
      obtain ⟨hstarts, rfl⟩ := ih hrest
      simp only [List.map_cons, hstarts, hpart, and_self]

theorem of_mem_followed {levels : Nat} {halted : List Halt} {starts : List (Nat × Graph × FlowStart)} {w : World σ}
    {x : Nat × Tour σ} (h : x ∈ followed ex levels context halted starts w) :
    x.2.ex = ex ∧ x.2.levels = levels ∧ x.2.record = none := by
  induction starts generalizing halted w with
  | nil => cases h
  | cons y rest ih =>
    obtain ⟨i, graph, start⟩ := y
    simp only [followed] at h
    split at h
    · cases h
    · split at h
      all_goals
        rcases List.mem_cons.mp h with rfl | h
        · exact ⟨rfl, rfl, rfl⟩
        · exact ih h

/-- Every tour begins as one of the branches that were to be walked. -/
theorem start_of_mem_followed {levels : Nat} {halted : List Halt} {starts : List (Nat × Graph × FlowStart)} {w : World σ}
    {x : Nat × Tour σ} (h : x ∈ followed ex levels context halted starts w) : (x.1, x.2.graph, x.2.start) ∈ starts := by
  induction starts generalizing halted w with
  | nil => cases h
  | cons y rest ih =>
    obtain ⟨i, graph, start⟩ := y
    simp only [followed] at h
    split at h
    · cases h
    · split at h
      all_goals
        rcases List.mem_cons.mp h with rfl | h
        · exact List.mem_cons_self
        · exact List.mem_cons_of_mem _ (ih h)

/-- What every walk keeps is so of the world in which a branch is begun. -/
theorem world_of_mem_followed {levels : Nat} {J : World σ → Prop}
    (hJ : ∀ graph start w, J w → J ((ex.traverse (ex.walkBranch levels) graph start context none).run w).2)
    {halted : List Halt} {starts : List (Nat × Graph × FlowStart)} {w : World σ} (hw : J w) :
    ∀ x ∈ followed ex levels context halted starts w, J x.2.world := by
  induction starts generalizing halted w with
  | nil =>
    intro x hx
    simp only [followed, List.not_mem_nil] at hx
  | cons first rest ih =>
    obtain ⟨i, graph, start⟩ := first
    intro x hx
    simp only [followed] at hx
    split at hx
    · cases hx
    · have hwalk := hJ graph start w hw
      split at hx
      all_goals
        next hcame =>
          have hleft := congrArg Prod.snd hcame
          rw [Tour.came] at hleft
          rw [hleft] at hwalk
          rcases List.mem_cons.mp hx with rfl | hx
          · exact hw
          · exact ih hwalk x hx

end Executor

namespace Tour

/-- The tours that a visit makes of the branches of its node. -/
def branches (t : Tour σ) (s : Executor.Stage σ) : List (Nat × Tour σ) :=
  match t.levels with
  | 0 => []
  | levels + 1 => t.ex.followed levels s.pos.progress.context [] s.walks s.entered

variable {t : Tour σ} {s : Executor.Stage σ} {branches : List Graph} {v : Visit}

theorem of_mem_branches {x : Nat × Tour σ} (h : x ∈ t.branches s) :
    x.2.ex = t.ex ∧ x.2.levels + 1 = t.levels ∧ x.2.record = none := by
  unfold Tour.branches at h
  split at h
  · cases h
  next levels hlevels =>
    obtain ⟨hex, hl, hrecord⟩ := Executor.of_mem_followed h
    exact ⟨hex, by omega, hrecord⟩

theorem joined_of_came (hs : s ∈ t.visits) (hsplit : s.node.kind = .split branches) (hlevels : 0 < t.levels)
    (hcame : s.came = .ok v) :
    (t.branches s).map (fun x => (x.1, x.2.graph, x.2.start)) = s.walks ∧
      v = Split.join branches (Split.plan s.pos.prior branches) s.pos.progress.context
        ((t.branches s).map fun x => (x.1, x.2.ending)) := by
  obtain ⟨levels, hlevels⟩ : ∃ levels, t.levels = levels + 1 := ⟨t.levels - 1, by omega⟩
  have hvisit := Executor.came_of_mem_trail hs
  have hplaces : t.ex.config.maxParallelBranches ≤ Executor.maxPlaces := by
    by_contra hmany
    have hbroken : (t.ex.visit (t.ex.walkBranch t.levels) t.graph s.node s.pos.progress s.pos.prior).run s.entered =
        (.error (.panic Executor.tooManyPlaces), s.entered) := by
      simp only [Executor.visit, hsplit, Executor.visitSplit, if_pos (Nat.lt_of_not_le hmany)]
      rfl
    rw [hbroken, hcame] at hvisit
    cases hvisit
  have hjoined := Executor.came_of_walks hplaces hs hsplit
  rw [hcame] at hjoined
  obtain ⟨ends, w₁, hwalks, hjoin⟩ := Act.run_bind_eq_ok (Prod.ext hjoined.symm rfl)
  rw [hlevels] at hwalks
  obtain ⟨hstarts, rfl⟩ := Executor.followed_of_walkBranches hwalks
  unfold Tour.branches
  rw [hlevels]
  refine ⟨hstarts, ?_⟩
  exact (Except.ok.inj (congrArg Prod.fst hjoin)).symm

/-! ## What a visit leaves of the branches -/

theorem plan_eq (hnames : (branches.map (·.name)).Nodup) :
    Split.plan s.pos.prior branches = branches.map fun b => Split.planOne b (s.earlier b.name) :=
  Split.planFrom_eq hnames _

/-- Each tour ends at the place of its branch. -/
theorem endAt_branches (hs : s ∈ t.visits) (hsplit : s.node.kind = .split branches) (hlevels : 0 < t.levels)
    (hcame : s.came = .ok v) {x : Nat × Tour σ} (hx : x ∈ t.branches s) :
    Split.endAt ((t.branches s).map fun y => (y.1, y.2.ending)) x.1 = x.2.ending := by
  obtain ⟨hwalks, -⟩ := joined_of_came hs hsplit hlevels hcame
  have hplaces : (((t.branches s).map fun y => (y.1, y.2.ending)).map (·.1)) = s.walks.map (·.1) := by
    rw [← hwalks]
    simp only [List.map_map, Function.comp_def]
  refine Split.endAt_of_mem ?_ (List.mem_map.mpr ⟨x, hx, rfl⟩)
  rw [hplaces]
  simp only [Executor.Stage.walks, hsplit]
  exact Split.nodup_toRun _ _

theorem mem_branches_of_mem_toRun (hs : s ∈ t.visits) (hsplit : s.node.kind = .split branches) (hlevels : 0 < t.levels)
    (hcame : s.came = .ok v) {i : Nat} {b : Graph} {start : FlowStart}
    (h : (i, b, start) ∈ Split.toRun branches (Split.plan s.pos.prior branches)) :
    ∃ x ∈ t.branches s, x.1 = i ∧ x.2.graph = b ∧ x.2.start = start := by
  obtain ⟨hwalks, -⟩ := joined_of_came hs hsplit hlevels hcame
  simp only [Executor.Stage.walks, hsplit] at hwalks
  rw [← hwalks] at h
  obtain ⟨x, hx, heq⟩ := List.mem_map.mp h
  cases heq
  exact ⟨x, hx, rfl, rfl, rfl⟩

def contributed (t : Tour σ) (s : Executor.Stage σ) (b : Graph) (i : Nat) : Traversal :=
  Split.contribution s.pos.progress.context ((t.branches s).map fun x => (x.1, x.2.ending)) b i
    (Split.planOne b (s.earlier b.name))

theorem flow_of_earlier {name : String} {o : FlowOutcome} (h : s.earlier name = some o) : o.flow = name :=
  Split.flow_of_mem_byFlow (name, o) (Dict.mem_of_get? h)

theorem contributed_eq_earlier {b : Graph} {i : Nat} {o : FlowOutcome} (h : s.earlier b.name = some o)
    (hdone : o.status = .completed) : (t.contributed s b i).outcome = o := by
  simp only [contributed, h, Split.planOne, if_pos hdone, Split.contribution]

/-- A branch that is not taken as done is walked, and contributes what its tour came to. -/
theorem exists_tour (hs : s ∈ t.visits) (hsplit : s.node.kind = .split branches) (hlevels : 0 < t.levels)
    (hcame : s.came = .ok v) (hnames : (branches.map (·.name)).Nodup) {b : Graph} {i : Nat}
    (hb : (b, i) ∈ branches.zipIdx) (hopen : ∀ o, s.earlier b.name = some o → o.status ≠ .completed) :
    ∃ x ∈ t.branches s, x.1 = i ∧ x.2.graph = b ∧ Split.begun? b (s.earlier b.name) = some x.2.start ∧
      t.contributed s b i = Split.settle b s.pos.progress.context x.2.ending := by
  have hplan : ∃ start, Split.planOne b (s.earlier b.name) = .run start ∧
      Split.begun? b (s.earlier b.name) = some start := by
    cases hearlier : s.earlier b.name with
    | none => exact ⟨_, rfl, rfl⟩
    | some o => exact ⟨_, by rw [Split.planOne, if_neg (hopen o hearlier)],
        by rw [Split.begun?, if_neg (hopen o hearlier)]⟩
  obtain ⟨start, hrun, hbegun⟩ := hplan
  have hmem : (i, b, start) ∈ Split.toRun branches (Split.plan s.pos.prior branches) := by
    rw [plan_eq hnames, Split.toRun_map]
    exact List.mem_filterMap.mpr ⟨(b, i), hb, by simp only [hrun]⟩
  obtain ⟨x, hx, rfl, rfl, rfl⟩ := mem_branches_of_mem_toRun hs hsplit hlevels hcame hmem
  refine ⟨x, hx, rfl, rfl, hbegun, ?_⟩
  rw [contributed, hrun, Split.contribution, endAt_branches hs hsplit hlevels hcame hx]

theorem flow_of_contributed (hs : s ∈ t.visits) (hsplit : s.node.kind = .split branches) (hlevels : 0 < t.levels)
    (hcame : s.came = .ok v) (hnames : (branches.map (·.name)).Nodup) {b : Graph} {i : Nat}
    (hb : (b, i) ∈ branches.zipIdx) : (t.contributed s b i).outcome.flow = b.name := by
  by_cases hdone : ∃ o, s.earlier b.name = some o ∧ o.status = .completed
  · obtain ⟨o, hearlier, hdone⟩ := hdone
    rw [contributed_eq_earlier hearlier hdone]
    exact flow_of_earlier hearlier
  · have hopen : ∀ o, s.earlier b.name = some o → o.status ≠ .completed := fun o ho hd => hdone ⟨o, ho, hd⟩
    obtain ⟨x, hx, -, rfl, -, hsettle⟩ := exists_tour hs hsplit hlevels hcame hnames hb hopen
    rw [hsettle]
    cases hend : x.2.ending with
    | finished y => exact flow_of_ending hend
    | aborted reason => rfl
    | panicked => rfl
    | lost => rfl

/-- What a visit joins, place by place. -/
theorem branches_of_came (hs : s ∈ t.visits) (hsplit : s.node.kind = .split branches) (hlevels : 0 < t.levels)
    (hcame : s.came = .ok v) (hnames : (branches.map (·.name)).Nodup) :
    v.branches = some (branches.zipIdx.map fun x => (t.contributed s x.1 x.2).outcome) := by
  obtain ⟨-, hjoin⟩ := joined_of_came hs hsplit hlevels hcame
  rw [hjoin, plan_eq hnames]
  simp only [Split.join, Split.contributions_map, List.map_map, Function.comp_def, contributed]

/-- A visit leaves one outcome for each branch, of the branch's name. -/
theorem flows_of_came (hs : s ∈ t.visits) (hsplit : s.node.kind = .split branches) (hlevels : 0 < t.levels)
    (hcame : s.came = .ok v) (hnames : (branches.map (·.name)).Nodup) :
    (v.branches.getD []).map (·.flow) = branches.map (·.name) := by
  rw [branches_of_came hs hsplit hlevels hcame hnames, Option.getD_some, List.map_map]
  calc branches.zipIdx.map ((·.flow) ∘ fun x => (t.contributed s x.1 x.2).outcome)
      = branches.zipIdx.map fun x => x.1.name :=
        List.map_congr_left fun x hx => flow_of_contributed hs hsplit hlevels hcame hnames hx
    _ = (branches.zipIdx.map Prod.fst).map (·.name) := by rw [List.map_map]; rfl
    _ = branches.map (·.name) := by rw [List.zipIdx_map_fst]

theorem told?_of_place (hs : s ∈ t.visits) (hsplit : s.node.kind = .split branches) (hlevels : 0 < t.levels)
    (hcame : s.came = .ok v) (hnames : (branches.map (·.name)).Nodup) {b : Graph} {i : Nat}
    (hb : (b, i) ∈ branches.zipIdx) : v.told? b.name = some (t.contributed s b i).outcome := by
  have hmem : (t.contributed s b i).outcome ∈ v.branches.getD [] := by
    rw [branches_of_came hs hsplit hlevels hcame hnames]
    exact List.mem_map.mpr ⟨(b, i), hb, rfl⟩
  have hnodup : ((v.branches.getD []).map (·.flow)).Nodup := by
    rw [flows_of_came hs hsplit hlevels hcame hnames]
    exact hnames
  rw [Visit.told?, ← flow_of_contributed hs hsplit hlevels hcame hnames hb]
  exact Split.find?_of_nodup hnodup hmem

theorem walks_of_mem_branches {x : Nat × Tour σ} (hx : x ∈ t.branches s) : (x.1, x.2.graph, x.2.start) ∈ s.walks := by
  unfold Tour.branches at hx
  split at hx
  · cases hx
  · exact Executor.start_of_mem_followed hx

/-- Only a split has branches that are walked. -/
theorem split_of_mem_branches {x : Nat × Tour σ} (hx : x ∈ t.branches s) : ∃ branches, s.node.kind = .split branches := by
  have hmem := walks_of_mem_branches hx
  unfold Executor.Stage.walks at hmem
  split at hmem
  next branches hkind => exact ⟨branches, hkind⟩
  · cases hmem

/-- Only branches that did not complete earlier are walked. -/
theorem begun_of_mem_branches (hsplit : s.node.kind = .split branches) (hnames : (branches.map (·.name)).Nodup)
    {x : Nat × Tour σ} (hx : x ∈ t.branches s) :
    x.2.graph ∈ branches ∧ Split.begun? x.2.graph (s.earlier x.2.graph.name) = some x.2.start := by
  have hmem := walks_of_mem_branches hx
  rw [Executor.Stage.walks_eq hsplit hnames] at hmem
  obtain ⟨⟨b, i⟩, hb, hbegun⟩ := List.mem_filterMap.mp hmem
  obtain ⟨start, hstart, heq⟩ := Option.map_eq_some_iff.mp hbegun
  cases heq
  exact ⟨List.mem_of_getElem? (List.mem_zipIdx_iff_getElem?.mp hb), hstart⟩

/-- A branch that completed earlier is not walked, and its outcome is left as it is. -/
theorem reused_of_earlier (hs : s ∈ t.visits) (hsplit : s.node.kind = .split branches) (hlevels : 0 < t.levels)
    (hcame : s.came = .ok v) (hnames : (branches.map (·.name)).Nodup) {b : Graph} (hb : b ∈ branches) {o : FlowOutcome}
    (hearlier : s.earlier b.name = some o) (hdone : o.status = .completed) :
    v.told? b.name = some o ∧ ∀ x ∈ t.branches s, x.2.graph.name ≠ b.name := by
  obtain ⟨i, hi⟩ := List.mem_iff_getElem?.mp hb
  constructor
  · rw [told?_of_place hs hsplit hlevels hcame hnames (List.mk_mem_zipIdx_iff_getElem?.mpr hi),
      contributed_eq_earlier hearlier hdone]
  · intro x hx hname
    obtain ⟨-, hbegun⟩ := begun_of_mem_branches hsplit hnames hx
    rw [hname, hearlier, Split.begun?, if_pos hdone] at hbegun
    cases hbegun

/-- Every other branch is walked, and what it comes to is left. -/
theorem walked_of_earlier (hs : s ∈ t.visits) (hsplit : s.node.kind = .split branches) (hlevels : 0 < t.levels)
    (hcame : s.came = .ok v) (hnames : (branches.map (·.name)).Nodup) {b : Graph} (hb : b ∈ branches)
    (hopen : ∀ o, s.earlier b.name = some o → o.status ≠ .completed) :
    ∃ x ∈ t.branches s, x.2.graph = b ∧ Split.begun? b (s.earlier b.name) = some x.2.start ∧
      v.told? b.name = some (Split.settle b s.pos.progress.context x.2.ending).outcome := by
  obtain ⟨i, hi⟩ := List.mem_iff_getElem?.mp hb
  have hplace := List.mk_mem_zipIdx_iff_getElem?.mpr hi
  obtain ⟨x, hx, -, hgraph, hbegun, hsettle⟩ := exists_tour hs hsplit hlevels hcame hnames hplace hopen
  refine ⟨x, hx, hgraph, hbegun, ?_⟩
  rw [told?_of_place hs hsplit hlevels hcame hnames hplace, hsettle]

/-- A branch that is left without having completed was walked. -/
theorem walked_of_told (hs : s ∈ t.visits) (hsplit : s.node.kind = .split branches) (hlevels : 0 < t.levels)
    (hcame : s.came = .ok v) (hnames : (branches.map (·.name)).Nodup) {b : Graph} (hb : b ∈ branches) {o : FlowOutcome}
    (htold : v.told? b.name = some o) (hopen : o.status ≠ .completed) :
    ∃ x ∈ t.branches s, x.2.graph = b ∧ (Split.settle b s.pos.progress.context x.2.ending).outcome = o := by
  have hearlier : ∀ e, s.earlier b.name = some e → e.status ≠ .completed := by
    intro e he hdone
    obtain ⟨hreused, -⟩ := reused_of_earlier hs hsplit hlevels hcame hnames hb he hdone
    rw [htold] at hreused
    cases hreused
    exact hopen hdone
  obtain ⟨x, hx, hgraph, -, hwalked⟩ := walked_of_earlier hs hsplit hlevels hcame hnames hb hearlier
  exact ⟨x, hx, hgraph, Option.some.inj (hwalked.symm.trans htold)⟩

/-- What a visit writes is what the branches walked in it wrote, in their order. -/
theorem updates_of_came (hs : s ∈ t.visits) (hsplit : s.node.kind = .split branches) (hlevels : 0 < t.levels)
    (hcame : s.came = .ok v) :
    v.updates = (t.branches s).foldl (fun acc x => acc.merge x.2.updates) Dict.empty := by
  obtain ⟨hwalks, hjoin⟩ := joined_of_came hs hsplit hlevels hcame
  have hplaces : ((t.branches s).map fun x => (x.1, x.2.ending)).map (·.1) =
      (Split.toRun branches (Split.plan s.pos.prior branches)).map (·.1) := by
    simp only [Executor.Stage.walks, hsplit] at hwalks
    rw [← hwalks, List.map_map, List.map_map]
    rfl
  rw [hjoin, Split.updates_join _ hplaces, List.foldl_map]
  simp only [updates_ending]

end Tour

end Switchyard
