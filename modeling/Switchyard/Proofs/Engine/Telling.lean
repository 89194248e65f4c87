import Switchyard.Proofs.Engine.Sealing
import Switchyard.Proofs.Engine.Storing
import Switchyard.Proofs.Engine.Threading

/-
  Switchyard.Proofs.Engine.Telling — what a traversal tells, node by node.

  Every event is published with one step. `Tells` reads the events off the steps, whatever
  others publish in between, and `Tells.heard` says what somebody who listens gets of them.

  A traversal tells that a node is started with the steps that enter it, and that it is
  finished with those that leave it (`Executor.Journey.telling`); what is told in between is
  told by the visit. The steps of a visit to a split are those of its branches, and each of
  these is a traversal that tells of its own nodes (`Tour.Traced`). A branch that panics in a
  visit would not tell of its end, but none does: the engine catches what a unit does, and a
  branch panics only where its visits can no longer be counted, between two of them
  (`Executor.calm_loop`). So once a split has come to an end, its branches have told of all
  their visits.

  - `Tour.Travels.chronicle`: what a traversal tells of its own nodes;
  - `Tour.branched_of_travels`: and what is told in its splits, at any depth.
-/

namespace Switchyard

variable {σ α β : Type}

/-! ## Traversals that do not panic -/

namespace Executor

variable {ex : Executor σ} {walk : BranchWalk σ} {g : Graph} {node : Node Graph} {pos : Position} {v : Visit}

/-- A traversal without a record panics only where its visits can no longer be counted. -/
theorem calm_loop (hplaces : ¬ maxPlaces < ex.config.maxParallelBranches) {room : Nat} (hrecord : pos.record = none) :
    (loop ex walk g room pos).Calm (· = countOverflow) := by
  induction room generalizing pos with
  | zero =>
    rw [loop_zero]
    split
    · trivial
    · unfold exceed
      split
      · exact (sure_ended _ _ _).calm
      · rintro p ⟨⟩
        rfl
  | succ room ih =>
    rw [loop_succ]
    split
    · trivial
    next node _ =>
      have henter : (enter ex g node pos.record).Calm (· = countOverflow) :=
        (sure_setPhase _ _ _).calm.bind fun _ => Act.Sure.change.calm.bind fun _ => Act.Sure.find.calm
      refine henter.bind fun started => (calm_visit (fun _ _ hmany => absurd hmany hplaces) g _ _).bind fun v => ?_
      refine (sure_leave hrecord g node started v).calm.bind_yields fun turn hturn => ?_
      cases turn with
      | done walked => trivial
      | onward next =>
        cases turn_of_leave hturn with
        | onward target =>
          refine ih ?_
          simp [Position.onward, Position.kept, hrecord]

/-- A traversal that does nothing more: it has come to an end, or its visits can no longer be
    counted. -/
def Over (y : Act σ Walked) : Prop := (∃ x, y = pure x) ∨ y = .broken (.panic countOverflow)

theorem text_straddle_ne (id : InstanceId) : Payload.text id.straddle ≠ countOverflow := by
  intro h
  have hfront := id.head?_straddle
  rw [countOverflow, Payload.text.injEq] at h
  rw [h] at hfront
  exact absurd hfront (by decide)

theorem tooManyPlaces_ne : tooManyPlaces ≠ countOverflow := by decide

theorem calm_enter {record : Option Record} : (enter ex g node record).Calm (· ≠ countOverflow) :=
  (sure_setPhase _ _ _).calm.bind fun _ => Act.Sure.change.calm.bind fun _ => Act.Sure.find.calm

theorem calm_keep (record : Option Record) (p : Progress) (o : NodeOutcome) :
    (keep record p o : Act σ _).Calm (· ≠ countOverflow) := by
  cases record with
  | none => trivial
  | some r =>
    refine Act.Calm.bind ?_ fun _ => trivial
    refine Act.Calm.bind (.bind (.bind (fun _ => trivial) fun answer => ?_) fun stored => ?_) fun kept => ?_
    · rcases answer with (e | _) | u
      · trivial
      · rintro p ⟨⟩
        exact text_straddle_ne _
      · trivial
    · cases stored <;> trivial
    · cases kept with
      | ok u => exact fun _ => trivial
      | error e => trivial

theorem calm_leave (g : Graph) (node : Node Graph) (pos : Position) (started : Nat) (v : Visit) :
    (leave ex g node pos started v).Calm (· ≠ countOverflow) := by
  rw [leave_eq]
  exact Act.Sure.find.calm.bind fun _ => Act.Sure.change.calm.bind fun _ => (calm_keep _ _ _).bind fun kept =>
    (sure_settle node v _ kept).calm

/-- An action in front of a traversal does not overflow the count of its visits. -/
theorem not_over {α : Type} {x y : Act σ α} (hx : x.Calm (· ≠ countOverflow)) {steps : List (World σ × World σ)}
    (hgoes : x.Goes steps y) (hopen : y.Open) (next : α → Act σ Walked) : ¬ Over (y >>= next) := by
  rintro (⟨walked, hpure⟩ | hbroken)
  · exact hopen.bind next walked hpure
  · have hy := hx.goes hgoes
    rw [hopen.eq_broken hbroken] at hy
    exact hy _ rfl rfl

end Executor

theorem Tour.calm_act {u : Tour σ} (hplaces : ¬ Executor.maxPlaces < u.ex.config.maxParallelBranches)
    (hrecord : u.record = none) : u.act.Calm (· = Executor.countOverflow) :=
  (Executor.sure_setPhase _ _ _).calm.bind fun _ => Executor.calm_loop hplaces hrecord

/-! ## What steps tell -/

abbrev Silent (steps : List (World σ × World σ)) : Prop := ∀ s ∈ steps, s.2.bus = s.1.bus

/-- These events are published, each with one of the steps and in this order. The other steps
    leave the channel alone. -/
inductive Tells : List (World σ × World σ) → List Event → Prop
  | nil : Tells [] []
  | still {w w' : World σ} {steps : List (World σ × World σ)} {es : List Event} : w'.bus = w.bus → Tells steps es →
      Tells ((w, w') :: steps) es
  | event {w w' : World σ} {steps : List (World σ × World σ)} {e : Event} {es : List Event} :
      w'.bus = w.bus.publish e → Tells steps es → Tells ((w, w') :: steps) (e :: es)

namespace Tells

variable {steps later : List (World σ × World σ)} {es others : List Event}

theorem append (h : Tells steps es) (hlater : Tells later others) : Tells (steps ++ later) (es ++ others) := by
  induction h with
  | nil => exact hlater
  | still hbus _ ih => exact .still hbus ih
  | event hbus _ ih => exact .event hbus ih

theorem of_silent (h : Silent steps) : Tells steps [] := by
  induction steps with
  | nil => exact .nil
  | cons s rest ih =>
    obtain ⟨hs, hrest⟩ := List.forall_mem_cons.mp h
    exact .still hs (ih hrest)

theorem append_silent (h : Tells steps es) (hlater : Silent later) : Tells (steps ++ later) es := by
  simpa using h.append (of_silent hlater)

theorem silent_append (h : Silent steps) (hlater : Tells later others) : Tells (steps ++ later) others :=
  (of_silent h).append hlater

def added (s : World σ × World σ) : List Event := s.2.bus.published.toList.drop s.1.bus.published.size

/-- As long as somebody listens, these events and no others are added to the channel. -/
theorem heard (h : Tells steps es) (hlistened : ∀ s ∈ steps, s.1.bus.receiverCount ≠ 0) : steps.flatMap added = es := by
  induction h with
  | nil => rfl
  | @still w w' steps es hbus _ ih =>
    obtain ⟨-, hrest⟩ := List.forall_mem_cons.mp hlistened
    have hnone : added (w, w') = [] := by simp [added, hbus]
    rw [List.flatMap_cons, hnone, List.nil_append, ih hrest]
  | @event w w' steps e es hbus _ ih =>
    obtain ⟨hw, hrest⟩ := List.forall_mem_cons.mp hlistened
    have hone : added (w, w') = [e] := by simp [added, hbus, Bus.publish, hw]
    rw [List.flatMap_cons, hone, ih hrest, List.singleton_append]

end Tells

def silence : Manner σ :=
  { Has := fun x => x.Spares World.bus
    pure := fun _ _ => trivial
    broken := fun _ _ => trivial
    quiet := fun h => .update fun w => (h w).2.1
    status := fun _ _ => .update fun _ => rfl
    bind := fun hx hg c => (hx c).bind_yields fun a ha => hg a ha c
    attempt := fun hx c => (hx c).attempt }

theorem storing_silence : (silence : Manner σ).Storing := ⟨fun _ => .update fun _ => rfl, .update fun _ => rfl⟩

theorem showing_silence (id : InstanceId) : (silence : Manner σ).Showing id := fun _ _ => .update fun _ => rfl

theorem storable_silence (ex : Executor σ) : ex.Storable (fun _ => True) silence :=
  ⟨fun _ _ _ _ => trivial, fun r _ => storing_silence.stored r ((showing_silence _).changeLive _), fun _ _ _ _ =>
    (showing_silence _).changeLive _⟩

/-- What is told first is told with the first step. -/
theorem goes_publish {e : Event} {k : Act σ β} {steps : List (World σ × World σ)} {z : Act σ β}
    (h : (Act.publish e >>= fun _ => k).Goes steps z) :
    (steps = [] ∧ z.Going) ∨ ∃ s rest, steps = [s] ++ rest ∧ Tells [s] [e] ∧ k.Goes rest z := by
  cases h with
  | here => exact Or.inl ⟨rfl, trivial⟩
  | step w hrest => exact Or.inr ⟨_, _, rfl, .event rfl .nil, hrest⟩

/-- An action that tells one thing on its way has told nothing yet, or that. -/
theorem tells_of_publish {x : Act σ α} {e : α → Event} {k : α → Act σ β} (hx : x.Spares World.bus)
    (hk : ∀ a, (k a).Spares World.bus) {steps : List (World σ × World σ)} {z : Act σ β}
    (h : (x >>= fun a => Act.publish (e a) >>= fun _ => k a).Goes steps z) :
    (Silent steps ∧ z.Open) ∨
      ∃ a before after, steps = before ++ after ∧ Tells before [e a] ∧ Silent after ∧ (k a).Goes after z := by
  rcases Act.goes_bind_open h with ⟨y, hfirst, hopen, rfl⟩ | ⟨a, before, steps, rfl, hfirst, h⟩
  · exact Or.inl ⟨hx.goes hfirst, hopen.bind _⟩
  rcases goes_publish h with ⟨rfl, hgoing⟩ | ⟨s, rest, rfl, htold, hrest⟩
  · exact Or.inl ⟨by simpa using hx.goes hfirst, hgoing.open⟩
  · have hbefore : Silent before := hx.goes hfirst
    exact Or.inr ⟨a, _, _, (List.append_assoc ..).symm, .silent_append hbefore htold, (hk a).goes hrest, hrest⟩

/-! ## Node by node -/

/-- Visits as they are told: each starts and finishes before the next one starts. -/
inductive Told (id : ExecutionId) (flow : String) : Visits → List Event → Prop
  | nil : Told id flow [] []
  | cons {node : String} {v : Visit} {rest : Visits} {es : List Event} (millis : Nat) : Told id flow rest es →
      Told id flow ((node, v) :: rest)
        (.nodeStarted id flow node :: .nodeFinished id flow node v.status v.exit millis :: es)

/-- The nodes that are told to have finished without failing. -/
def succeeded (es : List Event) : List String :=
  es.filterMap fun
    | .nodeFinished _ _ node status _ _ => if status = .failed then none else some node
    | _ => none

theorem Told.succeeded_eq {id : ExecutionId} {flow : String} {vs : Visits} {es : List Event} (h : Told id flow vs es) :
    succeeded es = vs.completed := by
  induction h with
  | nil => rfl
  | @cons node v rest es millis _ ih =>
    have hcons : Visits.completed ((node, v) :: rest) = Visits.completed [(node, v)] ++ Visits.completed rest :=
      Visits.completed_append [(node, v)] rest
    rw [hcons, ← ih]
    by_cases hfailed : v.status = .failed <;> simp [succeeded, Visits.completed, hfailed]

namespace Executor

variable {ex : Executor σ} {walk : BranchWalk σ} {g : Graph} {node : Node Graph} {pos : Position}

namespace Station

def own (s : Station σ) : List (World σ × World σ) := s.entering ++ s.leaving

end Station

/-- The nodes of a traversal as they are told, each where it is entered and where it is left.
    The last of them may not have come that far yet. -/
inductive Telling (id : ExecutionId) (flow : String) : List (Station σ) → List Event → Prop
  | nil : Telling id flow [] []
  | arriving {s : Station σ} : Silent s.entering → s.visiting = [] → s.leaving = [] → Telling id flow [s] []
  | started {s : Station σ} : Tells s.entering [.nodeStarted id flow s.node.id] → Silent s.leaving →
      Telling id flow [s] [.nodeStarted id flow s.node.id]
  | finished {s : Station σ} {v : Visit} {rest : List (Station σ)} {es : List Event} (millis : Nat) :
      s.visit? = some v → Tells s.entering [.nodeStarted id flow s.node.id] →
      Tells s.leaving [.nodeFinished id flow s.node.id v.status v.exit millis] → Telling id flow rest es →
      Telling id flow (s :: rest)
        (.nodeStarted id flow s.node.id :: .nodeFinished id flow s.node.id v.status v.exit millis :: es)

namespace Telling

variable {id : ExecutionId} {flow : String} {made before after : List (Station σ)} {s : Station σ} {es : List Event}

/-- Between two nodes, and in what the visits do, the traversal itself tells nothing. -/
theorem tells (h : Telling id flow made es) : Tells (made.flatMap Station.own) es := by
  induction h with
  | nil => exact .nil
  | @arriving s hentering _ hleaving => exact .of_silent (by simpa [Station.own, hleaving] using hentering)
  | @started s hentering hleaving => simpa [Station.own] using hentering.append_silent hleaving
  | @finished s v rest es millis _ hentering hleaving _ ih =>
    rw [List.flatMap_cons]
    exact (hentering.append hleaving).append ih

/-- Where a node is entered, the visits before are told, and nothing else is. -/
theorem told_before (h : Telling id flow made es) (hmade : made = before ++ s :: after) :
    ∃ told, told <+: es ∧ Told id flow (Station.visits before) told := by
  induction h generalizing before with
  | nil => simp at hmade
  | finished millis hvisit _ _ _ ih =>
    cases before with
    | nil => exact ⟨[], List.nil_prefix, .nil⟩
    | cons first before =>
      obtain ⟨rfl, hrest⟩ := List.cons.inj hmade
      obtain ⟨told, ⟨later, rfl⟩, htold⟩ := ih hrest
      rw [Station.visits_cons hvisit]
      exact ⟨_, ⟨later, rfl⟩, .cons millis htold⟩
  | _ =>
    cases before with
    | nil => exact ⟨[], List.nil_prefix, .nil⟩
    | cons => simp at hmade

end Telling

theorem tells_of_enter {record : Option Record} {steps : List (World σ × World σ)} {x : Act σ Nat}
    (h : (enter ex g node record).Goes steps x) :
    (Silent steps ∧ x.Open) ∨ Tells steps [.nodeStarted ex.scope.id g.name node.id] := by
  rcases tells_of_publish (spares_setPhase (fun _ _ => rfl) ex record .runningNode (some node.id))
    (e := fun _ => .nodeStarted ex.scope.id g.name node.id) (fun _ => .update fun _ => rfl) h with
    hstill | ⟨_, before, after, rfl, htells, hafter, -⟩
  · exact Or.inl hstill
  · exact Or.inr (htells.append_silent hafter)

theorem tells_of_leave {started : Nat} {v : Visit} {steps : List (World σ × World σ)} {x : Act σ Turn}
    (h : (leave ex g node pos started v).Goes steps x) :
    (Silent steps ∧ x.Open) ∨
      ∃ millis, Tells steps [.nodeFinished ex.scope.id g.name node.id v.status v.exit millis] := by
  rw [leave_eq] at h
  have hkeep : ∀ p o, (keep pos.record p o).Spares World.bus := fun p o =>
    has_keep (storable_silence ex) (fun _ _ => trivial) p o
  rcases tells_of_publish (.update fun _ => rfl)
    (fun _ => (hkeep _ _).bind (spares_settle (fun _ _ => rfl) ex node v _)) h
    with hstill | ⟨finished, before, after, rfl, htells, hafter, -⟩
  · exact Or.inl hstill
  · exact Or.inr ⟨_, htells.append_silent hafter⟩

theorem tells_of_entered {record : Option Record} {steps : List (World σ × World σ)} {started : Nat}
    (h : (enter ex g node record).Goes steps (pure started)) : Tells steps [.nodeStarted ex.scope.id g.name node.id] :=
  (tells_of_enter h).resolve_left fun ⟨_, hopen⟩ => hopen _ rfl

theorem tells_of_left {started : Nat} {v : Visit} {steps : List (World σ × World σ)} {turn : Turn}
    (h : (leave ex g node pos started v).Goes steps (pure turn)) :
    ∃ millis, Tells steps [.nodeFinished ex.scope.id g.name node.id v.status v.exit millis] :=
  (tells_of_leave h).resolve_left fun ⟨_, hopen⟩ => hopen _ rfl

/-- What a traversal tells of its nodes, and that it tells nothing after the last of them. Once
    it has come to an end, all visits are told. -/
theorem Journey.telling {room : Nat} {made : List (Station σ)} {closing : List (World σ × World σ)} {y : Act σ Walked}
    (h : Journey ex walk g room pos made closing y) :
    Silent closing ∧ ∃ es, Telling ex.scope.id g.name made es ∧
      (Over y → Told ex.scope.id g.name (Station.visits made) es) := by
  induction h with
  | unknown => exact ⟨by simp, [], .nil, fun _ => .nil⟩
  | full _ hended => exact ⟨(spares_exceed (fun _ _ => rfl) ex _ _).goes hended, [], .nil, fun _ => .nil⟩
  | entering _ henter hopen =>
    refine ⟨by simp, ?_⟩
    rcases tells_of_enter henter with ⟨hstill, -⟩ | htells
    · exact ⟨[], .arriving hstill rfl rfl, fun hover => absurd hover (not_over calm_enter henter hopen _)⟩
    · exact ⟨_, .started htells (by simp), fun hover => absurd hover (not_over calm_enter henter hopen _)⟩
  | visiting _ henter hvisit hopen =>
    exact ⟨by simp, _, .started (tells_of_entered henter) (by simp), fun hover =>
      absurd hover (not_over (calm_visit (fun _ _ _ => tooManyPlaces_ne) g _ _) hvisit hopen _)⟩
  | leaving _ henter _ hleave hopen =>
    refine ⟨by simp, ?_⟩
    have htells := tells_of_entered henter
    rcases tells_of_leave hleave with ⟨hstill, -⟩ | ⟨millis, hfinished⟩
    · exact ⟨_, .started htells hstill, fun hover => absurd hover (not_over (calm_leave _ _ _ _ _) hleave hopen _)⟩
    · exact ⟨_, .finished millis rfl htells hfinished .nil, fun hover =>
        absurd hover (not_over (calm_leave _ _ _ _ _) hleave hopen _)⟩
  | done _ henter _ hleave =>
    obtain ⟨millis, hfinished⟩ := tells_of_left hleave
    exact ⟨by simp, _, .finished millis rfl (tells_of_entered henter) hfinished .nil, fun _ => .cons millis .nil⟩
  | onward _ henter _ hleave _ ih =>
    obtain ⟨hclosing, es, htelling, htold⟩ := ih
    obtain ⟨millis, hfinished⟩ := tells_of_left hleave
    refine ⟨hclosing, _, .finished millis rfl (tells_of_entered henter) hfinished htelling, fun hover => ?_⟩
    rw [Station.visits_cons rfl]
    exact .cons millis (htold hover)

/-! ## Branches -/

theorem branchEnd_ne_lost (x : Walked) : branchEnd x ≠ .lost := by
  obtain ⟨e | t, kept⟩ := x <;> exact nofun

/-- Branches are lost only to a split that does not end. -/
theorem not_lost_of_walkBranches {levels : Nat} {context : Context} {halted : List Halt}
    {starts : List (Nat × Graph × FlowStart)} {ends : List (Nat × BranchEnd)}
    (h : (ex.walkBranches (ex.walkBranch (levels + 1)) context halted starts).Yields ends) : ∀ x ∈ ends, x.2 ≠ .lost := by
  have hnone : ∀ {halted : List Halt} {ends : List (Nat × BranchEnd)}, (allBegun halted : Act σ _).Yields ends →
      ∀ x ∈ ends, x.2 ≠ .lost := by
    intro halted ends hbegun
    obtain ⟨steps, hgoes⟩ := hbegun.exists_goes
    rw [((goes_allBegun hgoes).2 ends rfl).2]
    simp
  induction starts generalizing halted ends with
  | nil => exact hnone h
  | cons first rest ih =>
    obtain ⟨i, graph, start⟩ := first
    simp only [walkBranches] at h
    split at h
    · exact hnone h
    obtain ⟨r, hwalk, h⟩ := Act.yields_bind h
    rcases r with (p | _ | _ | _) | e
    · obtain ⟨others, hothers, h⟩ := Act.yields_bind h
      cases Act.yields_pure h
      exact List.forall_mem_cons.mpr ⟨by simp, ih hothers⟩
    · exact ih h
    · exact ih h
    · exact ih h
    · obtain ⟨others, hothers, h⟩ := Act.yields_bind h
      cases Act.yields_pure h
      have hwalked := Act.yields_attempt hwalk
      rw [walkBranch_succ] at hwalked
      obtain ⟨x, -, hx⟩ := Act.yields_bind hwalked
      cases Act.yields_pure hx
      exact List.forall_mem_cons.mpr ⟨branchEnd_ne_lost x, ih hothers⟩

end Executor

/-- One that is not lost does nothing more. -/
theorem Strand.over {x : Strand σ} (hcalm : x.left.Calm (· = Executor.countOverflow)) (hend : x.ending ≠ .lost) :
    Executor.Over x.left := by
  cases hleft : x.left with
  | done walked => exact Or.inl ⟨walked, rfl⟩
  | broken h =>
    rw [hleft] at hcalm
    cases h with
    | panic p =>
      obtain rfl : p = Executor.countOverflow := hcalm p rfl
      exact Or.inr rfl
    | hang => simp [ending, hleft] at hend
    | expired guard => simp [ending, hleft] at hend
    | tooDeep => simp [ending, hleft] at hend
  | step f next => simp [ending, hleft] at hend

namespace Tour

open Executor (Station Strands Telling)

variable {u : Tour σ} {steps : List (World σ × World σ)} {made : List (Station σ)} {y : Act σ Executor.Walked}

/-- What a traversal tells of its own nodes. -/
structure Chronicle (u : Tour σ) (steps : List (World σ × World σ)) (made : List (Station σ)) (es : List Event)
    (y : Act σ Executor.Walked) : Prop where
  travels : u.Travels steps made y
  /-- Only at its nodes is anything told. -/
  divides : ∃ opening closing, steps = opening ++ made.flatMap Station.steps ++ closing ∧ Silent opening ∧ Silent closing
  telling : Telling u.ex.scope.id u.graph.name made es
  /-- Once nothing more is done, it has told of all visits from start to finish. -/
  told : Executor.Over y → Told u.ex.scope.id u.graph.name (Station.visits made) es

theorem Travels.chronicle (h : u.Travels steps made y) : ∃ es, u.Chronicle steps made es y := by
  have hphase : (u.ex.setPhase u.record .pending none).Spares World.bus :=
    Executor.spares_setPhase (fun _ _ => rfl) u.ex u.record .pending none
  cases h with
  | opening hopening hopen =>
    exact ⟨[], .opening hopening hopen, ⟨steps, [], by simp, hphase.goes hopening, by simp⟩, .nil, fun hover =>
      absurd hover (Executor.not_over (Executor.sure_setPhase _ _ _).calm hopening hopen _)⟩
  | underway hopening hjourney =>
    obtain ⟨hclosing, es, htelling, htold⟩ := hjourney.telling
    exact ⟨es, .underway hopening hjourney, ⟨_, _, rfl, hphase.goes hopening, hclosing⟩, htelling, htold⟩

structure Splits (u : Tour σ) (s : Station σ) (branches : List Graph) (strands : List (Strand σ)) : Prop where
  /-- Whatever they do is done in the visit. -/
  within : s.visiting = strands.flatMap Strand.steps
  begun : strands.map Strand.start <+: starts s branches
  walked : ∃ levels, u.levels = levels + 1 ∧ ∀ x ∈ strands, x.Of u.ex levels s.given
  /-- It comes to an end when none of them does anything more. -/
  ended : ∀ v, s.visit? = some v →
    strands.map Strand.start = starts s branches ∧ ∀ x ∈ strands, Executor.Over x.left

theorem Travels.splits (hdeep : u.graph.nesting ≤ u.levels) (h : u.Travels steps made y) {s : Station σ} (hs : s ∈ made)
    {branches : List Graph} (hkind : s.node.kind = .split branches) :
    ∃ strands, u.Splits s branches strands ∧
      ∀ x ∈ strands, x.tour.graph.nesting ≤ x.tour.levels ∧ x.tour.levels < u.levels := by
  cases h with
  | opening => cases hs
  | underway _ hjourney =>
    obtain ⟨hnode, z, hvisit, hz⟩ := hjourney.of_mem hs
    have hlt : Graph.nestingOfBranches branches < u.levels :=
      Nat.lt_of_lt_of_le (Graph.nestingOfBranches_lt hnode hkind) hdeep
    obtain ⟨levels, hu⟩ := Nat.exists_eq_succ_of_ne_zero (Nat.ne_zero_of_lt hlt)
    simp only [Executor.visit, hkind, hu] at hvisit
    rcases Executor.goes_visitSplit hvisit with ⟨hnone, rfl⟩ | ⟨hplaces, y, hwalks, rfl⟩
    · refine ⟨[], ⟨by simpa using hnone, List.nil_prefix, ⟨levels, hu, by simp⟩, fun v hv => ?_⟩, by simp⟩
      cases hz v hv
    obtain ⟨strands, hstrands⟩ := Executor.strands_of_walkBranches u.world hwalks
    refine ⟨strands, ⟨hstrands.steps_eq, hstrands.begun, ⟨levels, hu, hstrands.walked⟩, fun v hv => ?_⟩, fun x hx =>
      ⟨nesting_le_of_mem_strands hstrands (by omega) hx, by rw [(hstrands.walked x hx).levels_eq]; omega⟩⟩
    cases y with
    | done ends =>
      have hends := Executor.not_lost_of_walkBranches hwalks.yields
      obtain ⟨-, hstarts, rfl⟩ := hstrands.ended ends rfl
      refine ⟨hstarts, fun x hx => Strand.over ?_ (hends _ (List.mem_map_of_mem hx))⟩
      have hof := hstrands.walked x hx
      exact (calm_act (by rwa [hof.ex_eq]) hof.record_eq).goes hof.goes
    | broken => cases hz v hv
    | step => cases hz v hv

/-- A traversal that tells of its nodes, and so do the branches in it: each does so within the
    visit of its split. -/
inductive Traced : Tour σ → List (World σ × World σ) → Act σ Executor.Walked → Prop
  | mk {u : Tour σ} {steps : List (World σ × World σ)} {made : List (Station σ)} {es : List Event}
      {y : Act σ Executor.Walked} (strands : Station σ → List (Strand σ)) : u.Chronicle steps made es y →
      (∀ s ∈ made, ∀ branches, s.node.kind = .split branches → u.Splits s branches (strands s)) →
      (∀ s ∈ made, ∀ x ∈ strands s, Traced x.tour x.steps x.left) → Traced u steps y

def Branched (u : Tour σ) (s : Station σ) : Prop :=
  ∀ branches, s.node.kind = .split branches →
    ∃ strands, u.Splits s branches strands ∧ ∀ x ∈ strands, x.tour.Traced x.steps x.left

theorem traced_of_branched {es : List Event} (h : u.Chronicle steps made es y) (hmade : ∀ s ∈ made, u.Branched s) :
    u.Traced steps y := by
  have hstrands : ∀ s : Station σ, ∃ strands : List (Strand σ), s ∈ made →
      (∀ branches, s.node.kind = .split branches → u.Splits s branches strands) ∧
        ∀ x ∈ strands, x.tour.Traced x.steps x.left := by
    intro s
    by_cases hs : s ∈ made
    · cases hkind : s.node.kind with
      | split branches =>
        obtain ⟨strands, hsplits, htraced⟩ := hmade s hs branches hkind
        refine ⟨strands, fun _ => ⟨?_, htraced⟩⟩
        rintro _ ⟨⟩
        exact hsplits
      | _ => exact ⟨[], fun _ => ⟨nofun, by simp⟩⟩
    · exact ⟨[], fun h => absurd h hs⟩
  choose strands hstrands using hstrands
  exact .mk strands h (fun s hs => (hstrands s hs).1) fun s hs => (hstrands s hs).2

/-- By induction on the depth to which splits are walked. -/
theorem branched_of_travels (hdeep : u.graph.nesting ≤ u.levels) (h : u.Travels steps made y) {s : Station σ}
    (hs : s ∈ made) : u.Branched s := by
  induction hn : u.levels using Nat.strongRecOn generalizing u steps made y s with
  | _ n ih =>
    intro branches hkind
    obtain ⟨strands, hsplits, hstrands⟩ := h.splits hdeep hs hkind
    refine ⟨strands, hsplits, fun x hx => ?_⟩
    obtain ⟨hnested, hlower⟩ := hstrands x hx
    obtain ⟨levels, -, hwalked⟩ := hsplits.walked
    obtain ⟨inner, htravels⟩ := goes_iff_travels.mp (hwalked x hx).goes
    obtain ⟨es, hchronicle⟩ := htravels.chronicle
    exact traced_of_branched hchronicle fun r hr => ih _ (hn ▸ hlower) hnested htravels hr rfl

end Tour

end Switchyard
