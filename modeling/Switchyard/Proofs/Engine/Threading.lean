import Switchyard.Proofs.Engine.Ends
import Switchyard.Proofs.Engine.Journey

/-
  Switchyard.Proofs.Engine.Threading — how the context is handed from node to node.

  A traversal keeps two maps: the context that it hands on, and the entries that it
  collected. Both are written by the same visits, so the one is what it was given with the
  other written over it (`Visits.written_eq_merge`), whichever keys collide.

  What a visit writes is told by its kind (`Tour.Wrote`): the entries of a step that reports
  a result, whatever its status; nothing for a unit that fails in any other way, a decision
  or a launched job; and for a split what its branches collected, merged in their order. A
  branch is a traversal of its own, given the context of its split (`Executor.Strands`), so
  all of this holds of it in turn.

  - `Tour.context_threads`: all of this for every traversal, whatever others do between two
    of its steps.
-/

namespace Switchyard

variable {σ : Type}

/-! ## Writing over a map -/

namespace Visits

theorem written_cons (x : String × Visit) (vs : Visits) (c : Context) :
    written (x :: vs) c = written vs (c.merge x.2.updates) := rfl

/-- What visits write comes before what was there. -/
theorem get?_written (vs : Visits) (c : Context) (k : String) :
    (vs.written c).get? k = ((vs.written Dict.empty).get? k).or (c.get? k) := by
  induction vs generalizing c with
  | nil => rfl
  | cons x rest ih =>
    rw [written_cons, written_cons, ih, ih (Dict.empty.merge x.2.updates), Dict.get?_merge_empty, Option.or_assoc]

theorem sorted_written (vs : Visits) {c : Context} (h : c.Sorted) : (vs.written c).Sorted := by
  induction vs generalizing c with
  | nil => exact h
  | cons x rest ih => exact ih (h.merge _)

theorem written_eq_merge (vs : Visits) {c : Context} (h : c.Sorted) : vs.written c = c.merge (vs.written Dict.empty) := by
  have hsorted := vs.sorted_written Dict.sorted_empty
  refine Dict.eq_of_get? (vs.sorted_written h) (h.merge _) fun k => ?_
  rw [get?_written, Dict.get?_merge _ hsorted]

end Visits

/-! ## Branches, as far as they have come -/

/-- The traversal of one branch of a split: its steps, and what is left to do. -/
structure Strand (σ : Type) where
  place : Nat
  /-- The traversal; the world it begins in plays no part here. -/
  tour : Tour σ
  steps : List (World σ × World σ)
  left : Act σ Executor.Walked

namespace Strand

def start (x : Strand σ) : Nat × Graph × FlowStart := (x.place, x.tour.graph, x.tour.start)

def ending (x : Strand σ) : BranchEnd :=
  match x.left with
  | .done (.ok t, _) => .finished t
  | .done (.error e, _) => .aborted e.message
  | .broken (.panic _) => .panicked
  | _ => .lost

def updates (x : Strand σ) : Context := x.ending.updates

structure Of (ex : Executor σ) (levels : Nat) (context : Context) (x : Strand σ) : Prop where
  ex_eq : x.tour.ex = ex
  levels_eq : x.tour.levels = levels
  context_eq : x.tour.context = context
  record_eq : x.tour.record = none
  goes : x.tour.act.Goes x.steps x.left

end Strand

namespace Executor

variable {ex : Executor σ} {levels : Nat} {context : Context} {steps : List (World σ × World σ)}

theorem goes_allBegun {halted : List Halt} {z : Act σ (List (Nat × BranchEnd))} (h : (allBegun halted).Goes steps z) :
    steps = [] ∧ ∀ ends, z = pure ends → halted = [] ∧ ends = [] := by
  unfold allBegun at h
  cases hlast : halted.getLast? with
  | none =>
    rw [hlast] at h
    obtain ⟨rfl, rfl⟩ := Act.goes_pure h
    refine ⟨rfl, fun ends hends => ⟨List.getLast?_eq_none_iff.mp hlast, ?_⟩⟩
    cases hends
    rfl
  | some e =>
    rw [hlast] at h
    cases h
    exact ⟨rfl, nofun⟩

def branchEnd : Walked → BranchEnd
  | (.ok t, _) => .finished t
  | (.error e, _) => .aborted e.message

theorem walkBranch_succ (ex : Executor σ) (levels : Nat) (graph : Graph) (start : FlowStart) (context : Context) :
    ex.walkBranch (levels + 1) graph start context =
      ex.traverse (ex.walkBranch levels) graph start context none >>= fun x => pure (branchEnd x) := by
  refine bind_congr fun x => ?_
  obtain ⟨e | t, kept⟩ := x <;> rfl

/-- A branch that is walked is a strand, and what the walk comes to is how that ends. -/
theorem strand_of_walkBranch (w : World σ) (i : Nat) {graph : Graph} {start : FlowStart}
    {z : Act σ (Except Halt BranchEnd)} (h : (ex.walkBranch (levels + 1) graph start context).attempt.Goes steps z) :
    ∃ x : Strand σ, x.steps = steps ∧ x.start = (i, graph, start) ∧ x.Of ex levels context ∧
      (∀ e, z = pure (.ok e) → x.ending = e) ∧ ∀ p, z = pure (.error (.panic p)) → x.ending = .panicked := by
  obtain ⟨y, hwalk, rfl⟩ := Act.goes_attempt h
  rw [walkBranch_succ] at hwalk
  obtain ⟨left, htraverse, rfl⟩ := Act.goes_map hwalk
  refine ⟨⟨i, ⟨ex, levels, graph, start, context, none, w⟩, steps, left⟩, rfl, rfl, ⟨rfl, rfl, rfl, rfl, htraverse⟩,
    fun e he => ?_, fun p hp => ?_⟩
  · cases left with
    | done x => obtain ⟨e | t, kept⟩ := x <;> cases he <;> rfl
    | broken => cases he
    | step => cases he
  · cases left with
    | done => cases hp
    | broken => cases hp; rfl
    | step => cases hp

/-- The strands of branches that are walked one after the other, as far as that has come; a
    halt is a branch before them that never ends. -/
structure Strands (ex : Executor σ) (levels : Nat) (context : Context) (halted : List Halt)
    (starts : List (Nat × Graph × FlowStart)) (steps : List (World σ × World σ)) (z : Act σ (List (Nat × BranchEnd)))
    (strands : List (Strand σ)) : Prop where
  steps_eq : steps = strands.flatMap Strand.steps
  begun : strands.map Strand.start <+: starts
  walked : ∀ x ∈ strands, x.Of ex levels context
  ended : ∀ ends, z = pure ends → halted = [] ∧ strands.map Strand.start = starts ∧
    ends = strands.map fun x => (x.place, x.ending)

namespace Strands

variable {halted : List Halt} {starts : List (Nat × Graph × FlowStart)} {z : Act σ (List (Nat × BranchEnd))}
  {strands : List (Strand σ)} {x : Strand σ}

/-- None is walked any more. -/
theorem of_allBegun (h : (allBegun halted).Goes steps z) (hstarts : halted = [] → starts = []) :
    Strands ex levels context halted starts steps z [] := by
  obtain ⟨rfl, hends⟩ := goes_allBegun h
  refine ⟨rfl, List.nil_prefix, by simp, fun ends hz => ?_⟩
  obtain ⟨hnone, rfl⟩ := hends ends hz
  exact ⟨hnone, (hstarts hnone).symm, rfl⟩

/-- One is still walked. -/
theorem single {y : Act σ (List (Nat × BranchEnd))} (hx : x.Of ex levels context) (hopen : y.Open) :
    Strands ex levels context halted (x.start :: starts) x.steps y [x] where
  steps_eq := by simp
  begun := by simp
  walked := by simpa using hx
  ended ends hy := absurd hy (hopen ends)

/-- One is over and noted, and the others are walked. -/
theorem noted (hx : x.Of ex levels context) (h : Strands ex levels context halted starts steps z strands) :
    Strands ex levels context halted (x.start :: starts) (x.steps ++ steps)
      (z >>= fun ends => pure ((x.place, x.ending) :: ends)) (x :: strands) where
  steps_eq := by rw [h.steps_eq, List.flatMap_cons]
  begun := List.cons_prefix_cons.mpr ⟨rfl, h.begun⟩
  walked := List.forall_mem_cons.mpr ⟨hx, h.walked⟩
  ended ends hz := by
    cases z with
    | done others =>
      cases hz
      obtain ⟨hnone, hstarts, hothers⟩ := h.ended others rfl
      exact ⟨hnone, by rw [List.map_cons, hstarts], by rw [hothers, List.map_cons]⟩
    | broken => cases hz
    | step => cases hz

/-- One never ends and keeps its place, and neither does the split. -/
theorem held {e : Halt} (hx : x.Of ex levels context)
    (h : Strands ex levels context (e :: halted) starts steps z strands) :
    Strands ex levels context halted (x.start :: starts) (x.steps ++ steps) z (x :: strands) where
  steps_eq := by rw [h.steps_eq, List.flatMap_cons]
  begun := List.cons_prefix_cons.mpr ⟨rfl, h.begun⟩
  walked := List.forall_mem_cons.mpr ⟨hx, h.walked⟩
  ended ends hz := by cases (h.ended ends hz).1

end Strands

theorem strands_of_walkBranches (w : World σ) {halted : List Halt} {starts : List (Nat × Graph × FlowStart)}
    {z : Act σ (List (Nat × BranchEnd))}
    (h : (ex.walkBranches (ex.walkBranch (levels + 1)) context halted starts).Goes steps z) :
    ∃ strands, Strands ex levels context halted starts steps z strands := by
  induction starts generalizing halted steps z with
  | nil => exact ⟨[], .of_allBegun h fun _ => rfl⟩
  | cons first rest ih =>
    obtain ⟨i, graph, start⟩ := first
    by_cases hfull : ex.isFull halted = true
    · simp only [walkBranches, hfull, if_true] at h
      refine ⟨[], .of_allBegun h fun hnone => ?_⟩
      rw [hnone, isFull_nil] at hfull
      cases hfull
    · simp only [walkBranches, hfull, Bool.false_eq_true, if_false] at h
      rcases Act.goes_bind_open h with ⟨y, hwalk, hopen, rfl⟩ | ⟨r, before, after, rfl, hwalk, hrest⟩
      · obtain ⟨x, rfl, hstart, hx, -⟩ := strand_of_walkBranch w i hwalk
        exact ⟨[x], hstart ▸ .single hx (hopen.bind _)⟩
      obtain ⟨x, rfl, hstart, hx, hended, hpanicked⟩ := strand_of_walkBranch w i hwalk
      obtain rfl : x.place = i := congrArg Prod.fst hstart
      rw [← hstart]
      rcases r with e | e
      · cases e with
        | panic p =>
          rw [← hpanicked p rfl] at hrest
          obtain ⟨y, hothers, rfl⟩ := Act.goes_map hrest
          obtain ⟨strands, hstrands⟩ := ih hothers
          exact ⟨x :: strands, hstrands.noted hx⟩
        | _ =>
          obtain ⟨strands, hstrands⟩ := ih hrest
          exact ⟨x :: strands, hstrands.held hx⟩
      · obtain rfl := hended e rfl
        obtain ⟨y, hothers, rfl⟩ := Act.goes_map hrest
        obtain ⟨strands, hstrands⟩ := ih hothers
        exact ⟨x :: strands, hstrands.noted hx⟩

/-- A visit to a split walks its branches and joins what they come to, if there may be that
    many at once. -/
theorem goes_visitSplit {walk : BranchWalk σ} {p : Progress} {branches : List Graph} {prior : Option (List FlowOutcome)}
    {z : Act σ Visit} (h : (ex.visitSplit walk p branches prior).Goes steps z) :
    (steps = [] ∧ z = .broken (.panic tooManyPlaces)) ∨
      ¬ maxPlaces < ex.config.maxParallelBranches ∧
        ∃ y, (ex.walkBranches walk p.context [] (Split.toRun branches (Split.plan prior branches))).Goes steps y ∧
          z = y >>= fun ends => pure (Split.join branches (Split.plan prior branches) p.context ends) := by
  unfold visitSplit at h
  by_cases hmany : maxPlaces < ex.config.maxParallelBranches
  · simp only [if_pos hmany] at h
    cases h
    exact Or.inl ⟨rfl, rfl⟩
  · simp only [if_neg hmany] at h
    exact Or.inr ⟨hmany, Act.goes_map h⟩

/-- Each branch is given the context of the split. -/
theorem strands_of_visitSplit (w : World σ) {p : Progress} {branches : List Graph} {prior : Option (List FlowOutcome)}
    {z : Act σ Visit} (h : (ex.visitSplit (ex.walkBranch (levels + 1)) p branches prior).Goes steps z) :
    ∃ y strands, Strands ex levels p.context [] (Split.toRun branches (Split.plan prior branches)) steps y strands ∧
      ∀ v, z = pure v → ∃ ends, y = pure ends ∧ v = Split.join branches (Split.plan prior branches) p.context ends := by
  rcases goes_visitSplit h with ⟨rfl, rfl⟩ | ⟨-, y, hwalks, rfl⟩
  · exact ⟨.broken (.panic tooManyPlaces), [], ⟨rfl, List.nil_prefix, by simp, nofun⟩, nofun⟩
  · obtain ⟨strands, hstrands⟩ := strands_of_walkBranches w hwalks
    refine ⟨y, strands, hstrands, fun v hv => ?_⟩
    cases y with
    | done ends =>
      cases hv
      exact ⟨ends, rfl, rfl⟩
    | broken => cases hv
    | step => cases hv

def Station.given (s : Station σ) : Context := s.pos.progress.context

end Executor

/-! ## What a visit writes -/

namespace Tour

open Executor (Station Strands)

variable {u : Tour σ} {s : Station σ} {made : List (Station σ)} {steps : List (World σ × World σ)}
  {y : Act σ Executor.Walked}

def starts (s : Station σ) (branches : List Graph) : List (Nat × Graph × FlowStart) :=
  Split.toRun branches (Split.plan s.pos.prior branches)

/-- What a visit writes once it has come to an end, by the kind of its node. -/
inductive Wrote (u : Tour σ) (s : Station σ) : Context → Prop
  /-- A step reports a result; whether it reports that it failed makes no difference. -/
  | reported {name : String} {unit : Briefing → σ → Script σ StepResult} {b : Briefing} {r : StepResult} :
      s.node.kind = .step name → u.ex.units.step name = some unit → b.context = s.given →
      (u.ex.called unit b).Goes s.visiting (pure (.ok r)) → Wrote u s r.updates
  /-- It fails in any other way. -/
  | failed {name : String} {unit : Briefing → σ → Script σ StepResult} {b : Briefing} {text : String} :
      s.node.kind = .step name → u.ex.units.step name = some unit → b.context = s.given →
      (u.ex.called unit b).Goes s.visiting (pure (.error text)) → Wrote u s Dict.empty
  | decided {name : String} {unit : Briefing → σ → Script σ Exit} {b : Briefing} {came : Except String Exit} :
      s.node.kind = .decision name → u.ex.units.decider name = some unit → b.context = s.given →
      (u.ex.called unit b).Goes s.visiting (pure came) → Wrote u s Dict.empty
  | unregistered {f : Failure} : u.ex.units.missing? s.node = some f → Wrote u s Dict.empty
  | launched {job : String} {keys : List String} {launch : Launch σ}
      {came : Except Payload (Except (List String) (Status × Exit))} :
      s.node.kind = .subJob job keys → u.ex.launch = some launch →
      (Executor.catchPanic (launch job (Parameters.extract s.given u.ex.scope.parameters keys)
        (Executor.deeper u.ex.scope.depth))).Goes s.visiting (pure came) → Wrote u s Dict.empty
  | unlaunched {job : String} {keys : List String} : s.node.kind = .subJob job keys →
      u.ex.launch = none ∨ u.ex.config.maxSubJobDepth < Executor.deeper u.ex.scope.depth → Wrote u s Dict.empty
  /-- The branches of a split have all come to an end, and are merged in their order. -/
  | joined {branches : List Graph} {levels : Nat} {ends : List (Nat × BranchEnd)} {strands : List (Strand σ)} :
      s.node.kind = .split branches → u.levels = levels + 1 →
      Strands u.ex levels s.given [] (starts s branches) s.visiting (pure ends) strands →
      Wrote u s (strands.foldl (fun acc x => acc.merge x.updates) Dict.empty)

theorem wrote_of_visitStep {name : String} (hkind : s.node.kind = .step name) {v : Visit}
    (h : (u.ex.visitStep u.graph s.node s.pos.progress name).Goes s.visiting (pure v)) : u.Wrote s v.updates := by
  unfold Executor.visitStep at h
  cases hunit : u.ex.units.step name with
  | none =>
    simp only [hunit] at h
    cases (Act.goes_pure h).2
    exact .unregistered (f := .unknownStep s.node.id name) (by simp [Units.missing?, hkind, hunit])
  | some unit =>
    simp only [hunit, ← bind_assoc] at h
    obtain ⟨came, hcalled, htold⟩ := Act.goes_bind_told (by rintro (text | r) <;> exact ⟨_, rfl⟩) h
    rcases came with text | r
    · cases htold
      exact .failed hkind hunit rfl hcalled
    · cases htold
      exact .reported hkind hunit rfl hcalled

theorem wrote_of_visitDecision {name : String} (hkind : s.node.kind = .decision name) {v : Visit}
    (h : (u.ex.visitDecision u.graph s.node s.pos.progress name).Goes s.visiting (pure v)) : u.Wrote s v.updates := by
  unfold Executor.visitDecision at h
  cases hunit : u.ex.units.decider name with
  | none =>
    simp only [hunit] at h
    cases (Act.goes_pure h).2
    exact .unregistered (f := .unknownDecider s.node.id name) (by simp [Units.missing?, hkind, hunit])
  | some unit =>
    simp only [hunit, ← bind_assoc] at h
    obtain ⟨came, hcalled, htold⟩ := Act.goes_bind_told (by rintro (text | exit) <;> exact ⟨_, rfl⟩) h
    rcases came with text | exit
    all_goals
      cases htold
      exact .decided hkind hunit rfl hcalled

theorem wrote_of_visitSubJob {job : String} {keys : List String} (hkind : s.node.kind = .subJob job keys) {v : Visit}
    (h : (u.ex.visitSubJob s.pos.progress job keys).Goes s.visiting (pure v)) : u.Wrote s v.updates := by
  unfold Executor.visitSubJob at h
  cases hlaunch : u.ex.launch with
  | none =>
    simp only [hlaunch] at h
    cases (Act.goes_pure h).2
    exact .unlaunched hkind (Or.inl hlaunch)
  | some launch =>
    simp only [hlaunch] at h
    split at h
    next hdeep =>
      cases (Act.goes_pure h).2
      exact .unlaunched hkind (Or.inr hdeep)
    · obtain ⟨came, hlaunched, htold⟩ :=
        Act.goes_bind_told (by rintro (payload | (chain | ⟨status, exit⟩)) <;> exact ⟨_, rfl⟩) h
      rcases came with payload | (chain | ⟨status, exit⟩)
      all_goals
        cases htold
        exact .launched hkind hlaunch hlaunched

/-- A split writes what its branches collected, for they are joined in their order. -/
theorem wrote_of_visitSplit {branches : List Graph} (hkind : s.node.kind = .split branches) {levels : Nat}
    (hlevels : u.levels = levels + 1) {v : Visit}
    (h : (u.ex.visitSplit (u.ex.walkBranch (levels + 1)) s.pos.progress branches s.pos.prior).Goes s.visiting (pure v)) :
    u.Wrote s v.updates := by
  obtain ⟨y, strands, hstrands, hjoined⟩ := Executor.strands_of_visitSplit u.world h
  obtain ⟨ends, rfl, rfl⟩ := hjoined v rfl
  obtain ⟨-, hstarts, rfl⟩ := hstrands.ended ends rfl
  have hplaces : (strands.map fun x => (x.place, x.ending)).map (·.1) = (starts s branches).map (·.1) := by
    rw [starts, ← hstarts, List.map_map, List.map_map]
    rfl
  rw [Split.updates_join _ hplaces, List.foldl_map]
  exact .joined hkind hlevels hstrands

theorem wrote_of_visit (hlevels : ∀ branches, s.node.kind = .split branches → 0 < u.levels) {v : Visit}
    (h : (u.ex.visit (u.ex.walkBranch u.levels) u.graph s.node s.pos.progress s.pos.prior).Goes s.visiting (pure v)) :
    u.Wrote s v.updates := by
  unfold Executor.visit at h
  cases hkind : s.node.kind with
  | step name =>
    simp only [hkind] at h
    exact wrote_of_visitStep hkind h
  | decision name =>
    simp only [hkind] at h
    exact wrote_of_visitDecision hkind h
  | subJob job keys =>
    simp only [hkind] at h
    exact wrote_of_visitSubJob hkind h
  | split branches =>
    obtain ⟨levels, hu⟩ := Nat.exists_eq_succ_of_ne_zero (Nat.ne_of_gt (hlevels branches hkind))
    simp only [hkind, hu] at h
    exact wrote_of_visitSplit hkind hu h

/-! ## Whole traversals -/

/-- Every node is given the context of the traversal with what the visits before wrote over
    it, one after the other. -/
theorem given_of_travels {before after : List (Station σ)} (h : u.Travels steps made y) (hmade : made = before ++ s :: after) :
    s.given = (Station.visits before).written u.context := by
  cases h with
  | opening => simp at hmade
  | underway _ hjourney =>
    rw [Station.given, hjourney.progress_eq hmade, Progress.after_eq]
    rfl

/-- How a traversal hands its context on. -/
structure Threads (u : Tour σ) (made : List (Station σ)) (y : Act σ Executor.Walked) : Prop where
  given : ∀ before s after, made = before ++ s :: after → s.given = (Station.visits before).written u.context
  /-- From there the node is visited, as far as that has come. -/
  visited : ∀ s ∈ made, ∃ x, (u.ex.visit (u.ex.walkBranch u.levels) u.graph s.node s.pos.progress s.pos.prior).Goes
    s.visiting x ∧ ∀ v, s.visit? = some v → x = pure v
  wrote : ∀ s ∈ made, ∀ v, s.visit? = some v → u.Wrote s v.updates
  /-- A branch is a traversal given the context of its split. Its nodes are given that and what
      the visits before in the same branch wrote, however far the other branches have come. -/
  branched : ∀ s ∈ made, ∀ branches, s.node.kind = .split branches → ∃ levels z strands, u.levels = levels + 1 ∧
    Strands u.ex levels s.given [] (starts s branches) s.visiting z strands ∧
    ∀ x ∈ strands, x.tour.graph.nesting ≤ x.tour.levels ∧ ∀ inner, x.tour.Travels x.steps inner x.left →
      ∀ before r after, inner = before ++ r :: after → r.given = (Station.visits before).written s.given
  /-- In the end the context is the one given, with all that was collected written over it. -/
  ended : ∀ t kept, y = pure (.ok t, kept) →
    t.updates = (Station.visits made).written Dict.empty ∧ t.context = (Station.visits made).written u.context ∧
    (∀ key, t.context.get? key = (t.updates.get? key).or (u.context.get? key)) ∧
    (u.context.Sorted → t.context = u.context.merge t.updates)

theorem nesting_le_of_mem_starts {branches : List Graph} {x : Nat × Graph × FlowStart} (h : x ∈ starts s branches) :
    x.2.1.nesting ≤ Graph.nestingOfBranches branches := by
  obtain ⟨i, b, start⟩ := x
  have hzip := List.fst_mem_of_mem_zipIdx (Split.mem_toRun.mp h)
  exact Graph.nesting_le_nestingOfBranches (List.of_mem_zip hzip).1

/-- The splits of a branch are walked to their depth if the split it belongs to is. -/
theorem nesting_le_of_mem_strands {levels : Nat} {context : Context} {halted : List Halt} {branches : List Graph}
    {z : Act σ (List (Nat × BranchEnd))} {strands : List (Strand σ)} {x : Strand σ}
    (h : Strands u.ex levels context halted (starts s branches) steps z strands)
    (hdeep : Graph.nestingOfBranches branches ≤ levels) (hx : x ∈ strands) : x.tour.graph.nesting ≤ x.tour.levels := by
  rw [(h.walked x hx).levels_eq]
  exact Nat.le_trans (nesting_le_of_mem_starts (h.begun.subset (List.mem_map_of_mem hx))) hdeep

theorem threads_of_travels (hdeep : u.graph.nesting ≤ u.levels) (h : u.Travels steps made y) : u.Threads made y := by
  have hgiven : ∀ before s after, made = before ++ s :: after → s.given = (Station.visits before).written u.context :=
    fun _ _ _ hmade => given_of_travels h hmade
  cases h with
  | opening _ hopen => exact ⟨hgiven, by simp, by simp, by simp, fun t kept hy => absurd hy (hopen.bind _ _)⟩
  | underway _ hjourney =>
    have hlevels : ∀ s ∈ made, ∀ branches, s.node.kind = .split branches → Graph.nestingOfBranches branches < u.levels :=
      fun s hs branches hkind =>
        Nat.lt_of_lt_of_le (Graph.nestingOfBranches_lt (hjourney.of_mem hs).1 hkind) hdeep
    refine ⟨hgiven, fun s hs => (hjourney.of_mem hs).2, fun s hs v hv => ?_, fun s hs branches hkind => ?_,
      fun t kept hy => ?_⟩
    · obtain ⟨-, x, hvisit, hx⟩ := hjourney.of_mem hs
      rw [hx v hv] at hvisit
      exact wrote_of_visit (fun branches hkind => Nat.zero_lt_of_lt (hlevels s hs branches hkind)) hvisit
    · obtain ⟨-, x, hvisit, -⟩ := hjourney.of_mem hs
      have hlt := hlevels s hs branches hkind
      obtain ⟨levels, hu⟩ := Nat.exists_eq_succ_of_ne_zero (Nat.ne_zero_of_lt hlt)
      simp only [Executor.visit, hkind, hu] at hvisit
      obtain ⟨z, strands, hstrands, -⟩ := Executor.strands_of_visitSplit u.world hvisit
      refine ⟨levels, z, strands, hu, hstrands, fun x hx => ⟨?_, fun inner htravels before r after hinner => ?_⟩⟩
      · exact nesting_le_of_mem_strands hstrands (by omega) hx
      · rw [given_of_travels htravels hinner, (hstrands.walked x hx).context_eq]
        rfl
    · obtain ⟨_, _, _, _, rfl⟩ := hjourney.traversal_eq hy
      rw [Progress.after_eq]
      exact ⟨rfl, rfl, Visits.get?_written _ _, Visits.written_eq_merge _⟩

/-- Every traversal whose splits are walked to their depth gives each node the context it was
    given itself, overwritten by what the visits before wrote, and ends with that context
    overwritten by all that it collected. Its branches are such traversals again. -/
theorem context_threads {u : Tour σ} (hdeep : u.graph.nesting ≤ u.levels) :
    (∀ steps y, u.act.Goes steps y ↔ ∃ made, u.Travels steps made y) ∧
      ∀ steps made y, u.Travels steps made y → u.Threads made y :=
  ⟨fun _ _ => goes_iff_travels, fun _ _ _ h => threads_of_travels hdeep h⟩

end Tour

/-! ### Counting the stock -/

namespace Stock

def hall (name : String) : Graph := ⟨name, name, [⟨name, .step name, []⟩]⟩

def stock : Graph :=
  ⟨"stock", "load", [⟨"load", .step "load", [.goto "*" "amend"]⟩, ⟨"amend", .step "amend", [.goto "*" "lose"]⟩,
    ⟨"lose", .step "lose", [.goto "*" "halls"]⟩, ⟨"halls", .split [hall "north", hall "south"], []⟩]⟩

def found (b : Briefing) : Json := (b.context.get? "kegs").getD .null

def units : Units Unit :=
  { step := fun name => some fun b m => .finish m (
      if name = "load" then .result
        { status := .completed, exit := Exit.completed
          updates := (Dict.empty.insert "crates" (.int 1)).insert "kegs" (.int 1) }
      else if name = "amend" then .result
        { status := .failed, exit := Exit.failed, updates := Dict.empty.insert "crates" (.int 2) }
      else if name = "lose" then .error ["lost"]
      else .result
        { status := .completed, exit := Exit.completed
          updates := (Dict.empty.insert "kegs" (.int (if name = "north" then 5 else 6))).insert name (found b) })
    decider := fun _ => none }

def given : Context := (Dict.empty.insert "crates" (.int 0)).insert "sacks" (.int 9)

def tour : Tour Unit :=
  { ex :=
      { config := {}
        units
        launch := none
        answer := fun _ => pure .unavailable
        scope := ⟨"stock", ⟨"stock"⟩, ExecutionId.numbered 0 0, 1, Dict.empty, 0, 0⟩ }
    levels := 1
    graph := stock
    start := FlowStart.entry stock
    context := given
    world :=
      { repository := { store := .shelf Shelf.empty }
        bus := Bus.ofCapacity 4
        clock := { origin := Instant.ofSeconds 0 0 }
        memory := () } }

def total : Traversal := tour.traversal?.getD default

theorem came_of_tour : tour.came.1 = .ok (.ok total, none) := by rfl

/-- Neither hall finds what the other counted; of the two counts the later one is left. -/
theorem stock_threads : ∃ made, tour.Travels (tour.act.path tour.world) made (pure (.ok total, none)) ∧
    tour.Threads made (pure (.ok total, none)) ∧ total.context = given.merge total.updates ∧
    ["crates", "kegs", "sacks", "north", "south"].map (Context.text? total.context) =
      [some "2", some "6", some "9", some "1", some "1"] := by
  have hdeep : tour.graph.nesting ≤ tour.levels := by decide +kernel
  obtain ⟨hdivides, hthreads⟩ := Tour.context_threads hdeep
  obtain ⟨made, htravels⟩ := (hdivides _ _).mp (Act.goes_path (Prod.ext came_of_tour rfl))
  have h := hthreads _ made _ htravels
  have hsorted : given.Sorted := (Dict.sorted_empty.insert _ _).insert _ _
  exact ⟨made, htravels, h, (h.ended total none rfl).2.2.2 hsorted, by decide +kernel⟩

end Stock

end Switchyard
