import Switchyard.Proofs.Engine.Errands
import Switchyard.Proofs.Engine.Reported
import Switchyard.Proofs.Engine.Restart
import Switchyard.Proofs.Engine.Task

/-
  Switchyard.Proofs.Engine.Stopping — what an attempt still does once it is asked to stop.

  A stop cancels the token of the attempt under way, and nothing that the engine does takes
  that back (`lasting`). A traversal looks at the token with the last step of a turn, and goes
  on to another node only if it is not cancelled then (`Executor.not_stopping_of_turn`). So
  of the nodes that it enters, only the last one is entered or under way while the attempt is
  asked to stop. That is so of the job's own flow and of every branch, whatever others do
  between two steps (`Act.Goes`).

  A traversal does not look before its first node. A branch that was waiting for its place
  when the stop was asked for is begun all the same, and its first node with it
  (`Shift.second_begun`); that node is then the only one that the branch comes to.

  - `Runner.stop_ends_traversals`: all of this, for every attempt that is opened.
-/

namespace Switchyard

variable {σ : Type} {t : Token}

/-! ## A stop is not taken back -/

/-- The attempt that listens to this token is asked to stop. -/
def Stopping (t : Token) (w : World σ) : Prop := t ∈ w.cancelled

@[simp] theorem contains_cancelled_eq_false {w : World σ} : w.cancelled.contains t = false ↔ ¬ Stopping t w := by
  simp [Stopping]

/-- What others do between two steps takes no stop back. -/
def Undisturbed (t : Token) (steps : List (World σ × World σ)) : Prop :=
  steps.IsChain fun a b => Stopping t a.2 → Stopping t b.1

/-- Once the attempt is asked to stop, every step after that finds it so. -/
theorem pairwise_stopped {steps : List (World σ × World σ)} (h : Undisturbed t steps)
    (hown : ∀ x ∈ steps, Stopping t x.1 → Stopping t x.2) :
    steps.Pairwise fun a b => Stopping t a.2 → Stopping t b.1 := by
  induction h with
  | nil => exact .nil
  | singleton x => exact List.pairwise_singleton _ x
  | @cons_cons a b rest hab _ ih =>
    obtain ⟨-, hown⟩ := List.forall_mem_cons.mp hown
    have hrest := ih hown
    refine List.pairwise_cons.mpr ⟨fun x hx hstop => ?_, hrest⟩
    have hb : Stopping t b.1 := hab hstop
    rcases List.mem_cons.mp hx with rfl | hx
    · exact hb
    · exact List.rel_of_pairwise_cons hrest hx (hown b List.mem_cons_self hb)

theorem pairwise_stopping {steps : List (World σ × World σ)} (h : Undisturbed t steps)
    (hown : ∀ x ∈ steps, Stopping t x.1 → Stopping t x.2) :
    steps.Pairwise fun a b => Stopping t a.1 → Stopping t b.1 :=
  (pairwise_stopped h hown).imp_of_mem fun ha _ hab hstop => hab (hown _ ha hstop)

def lasting (t : Token) : Manner σ :=
  { Has := fun x => x.Preserves (Stopping t)
    pure := fun _ => trivial
    broken := fun _ => trivial
    quiet := fun h => .update fun w hw => (h w).2.2.2 hw
    status := fun _ _ => .update fun _ hw => hw
    bind := fun hx hg => .bind_yields hx hg
    attempt := fun hx => hx.attempt }

theorem storing_lasting : (lasting t : Manner σ).Storing :=
  ⟨fun _ => .update fun _ hw => hw, .update fun _ hw => hw⟩

theorem showing_lasting (id : InstanceId) : (lasting t : Manner σ).Showing id := fun _ _ => .update fun _ hw => hw

theorem lasting_publish (e : Event) : (lasting t).Has (Act.publish e : Act σ Unit) := .update fun _ hw => hw

theorem lasting_run (r : Runner σ) (levels depth : Nat) (job : String) (parameters : Parameters) :
    (lasting t).Has (r.run levels depth job parameters) := by
  induction levels generalizing depth job parameters with
  | zero => trivial
  | succ levels ih =>
    refine (lasting t).bind ((lasting t).find _) fun found _ => ?_
    rcases found with _ | d
    · exact (lasting t).pure _
    have hclaim : (lasting t : Manner σ).Has (Runner.claim? (InstanceId.derive d.name parameters)) :=
      .update fun w hw => by
        split
        · exact hw
        · exact hw
    refine (lasting t).bind hclaim fun claimed _ => ?_
    rcases claimed with _ | token
    · exact (lasting t).pure _
    have hattempt : (lasting t).Has (r.attemptOver (r.run levels) d (InstanceId.derive d.name parameters) depth token
        parameters) :=
      storing_lasting.attemptOver (showing_lasting _) ih (fun e _ => lasting_publish e) d depth token parameters
    have hrelease : (lasting t : Manner σ).Has (Runner.release (InstanceId.derive d.name parameters)) :=
      .update fun _ hw => hw
    refine (lasting t).bind ((lasting t).attempt hattempt) fun x _ => (lasting t).bind hrelease fun _ _ => ?_
    rcases x with h | a
    · exact (lasting t).broken h
    · exact (lasting t).pure a

/-- Nothing that the engine can be asked takes a stop back. -/
theorem lasting_handle (r : Runner σ) (levels : Nat) (q : Request) : (lasting t).Has (r.handle (r.run levels) q) :=
  Runner.has_handle (lasting_run r levels 0) storing_lasting.abandon q

theorem lasting_executor (r : Runner σ) (levels depth : Nat) (o : Opened σ) :
    (r.executorOf (r.run levels) depth o).Closed (lasting t) :=
  Runner.closed_executor (lasting_run r levels) storing_lasting.abandon o.record depth o.token fun e _ _ =>
    lasting_publish e

theorem storable_lasting (ex : Executor σ) : ex.Storable (fun _ => True) (lasting t) :=
  ⟨fun _ _ _ _ => trivial, fun r _ => storing_lasting.stored r ((showing_lasting _).changeLive _), fun _ _ _ _ =>
    (showing_lasting _).changeLive _⟩

/-! ## Turn by turn, while others act -/

namespace Executor

variable {ex : Executor σ} {walk : BranchWalk σ} {g : Graph}

def turn (ex : Executor σ) (walk : BranchWalk σ) (g : Graph) (node : Node Graph) (pos : Position) : Act σ Turn := do
  let started ← enter ex g node pos.record
  let v ← visit ex walk g node pos.progress pos.prior
  leave ex g node pos started v

theorem loop_turn (ex : Executor σ) (walk : BranchWalk σ) (g : Graph) (room : Nat) {pos : Position} {node : Node Graph}
    (hnode : g.node? pos.node = some node) :
    loop ex walk g (room + 1) pos = turn ex walk g node pos >>= goOn ex walk g room := by
  rw [loop_succ, hnode]
  simp only [turn, bind_assoc]

/-- A turn that leads on looks at the token last, and the attempt is not asked to stop then. -/
theorem not_stopping_of_turn {node : Node Graph} {pos next : Position} {steps : List (World σ × World σ)}
    (h : (turn ex walk g node pos).Goes steps (pure (.onward next))) :
    ∃ before w, steps = before ++ [(w, w)] ∧ ¬ Stopping ex.scope.token w := by
  obtain ⟨started, entering, steps, rfl, -, h⟩ := Act.goes_bind_pure h
  obtain ⟨v, visiting, steps, rfl, -, h⟩ := Act.goes_bind_pure h
  cases parted_of_leave h with
  | onward target w before _ hsteps hroute =>
    refine ⟨entering ++ visiting ++ before, w, by simp [hsteps], ?_⟩
    exact contains_cancelled_eq_false.mp (Progress.eq_of_route_goto hroute).1

/-- A traversal at one of its nodes: the steps from there to where it goes on, or to where
    it ends or has come. -/
structure Stint (σ : Type) where
  node : Node Graph
  steps : List (World σ × World σ)

inductive Way (ex : Executor σ) (walk : BranchWalk σ) (g : Graph) : Nat → Position → List (Stint σ) → Prop
  /-- It enters no node. -/
  | short {room : Nat} {pos : Position} : Way ex walk g room pos []
  | last {room : Nat} {pos : Position} {node : Node Graph} {steps : List (World σ × World σ)} {left : Act σ Turn} :
      g.node? pos.node = some node → (turn ex walk g node pos).Goes steps left →
      Way ex walk g (room + 1) pos [⟨node, steps⟩]
  | onward {room : Nat} {pos next : Position} {node : Node Graph} {steps : List (World σ × World σ)}
      {made : List (Stint σ)} : g.node? pos.node = some node →
      (turn ex walk g node pos).Goes steps (pure (.onward next)) → Way ex walk g room next made →
      Way ex walk g (room + 1) pos (⟨node, steps⟩ :: made)

/-- A traversal goes from node to node; what it does after that enters no node. -/
theorem way_of_loop {room : Nat} {pos : Position} {steps : List (World σ × World σ)} {y : Act σ Walked}
    (h : (loop ex walk g room pos).Goes steps y) :
    ∃ made closing, steps = made.flatMap Stint.steps ++ closing ∧ Way ex walk g room pos made ∧
      ∀ s ∈ closing, s.2.bus = s.1.bus := by
  induction room generalizing pos steps with
  | zero =>
    rw [loop_zero] at h
    refine ⟨[], steps, rfl, .short, ?_⟩
    cases hnode : g.node? pos.node with
    | none =>
      simp only [hnode] at h
      obtain ⟨rfl, -⟩ := Act.goes_pure h
      simp
    | some node =>
      simp only [hnode] at h
      exact (spares_exceed (fun _ _ => rfl) ex _ _).goes h
  | succ room ih =>
    cases hnode : g.node? pos.node with
    | none =>
      rw [loop_succ, hnode] at h
      obtain ⟨rfl, -⟩ := Act.goes_pure h
      exact ⟨[], [], rfl, .short, by simp⟩
    | some node =>
      rw [loop_turn ex walk g room hnode] at h
      rcases Act.goes_bind h with ⟨left, hturn, -⟩ | ⟨turn, before, after, rfl, hturn, hrest⟩
      · exact ⟨[⟨node, steps⟩], [], by simp, .last hnode hturn, by simp⟩
      · cases turn with
        | done walked =>
          obtain ⟨rfl, -⟩ := Act.goes_pure hrest
          exact ⟨[⟨node, before⟩], [], by simp, .last hnode hturn, by simp⟩
        | onward next =>
          obtain ⟨made, closing, rfl, hway, hclosing⟩ := ih hrest
          exact ⟨⟨node, before⟩ :: made, closing, by simp, .onward hnode hturn hway, hclosing⟩

/-- No node is entered once the attempt was asked to stop while the one before was under
    way. -/
theorem Way.last_of_stopping {room : Nat} {pos : Position} {made : List (Stint σ)} (h : Way ex walk g room pos made)
    (hlasts : (made.flatMap Stint.steps).Pairwise fun a b => Stopping ex.scope.token a.1 → Stopping ex.scope.token b.1)
    {before after : List (Stint σ)} {s : Stint σ} (hmade : made = before ++ s :: after)
    (hs : ∃ x ∈ s.steps, Stopping ex.scope.token x.1) : after = [] := by
  induction h generalizing before with
  | short => simp at hmade
  | last =>
    cases before with
    | nil => exact (List.cons.inj hmade).2.symm
    | cons => simp at hmade
  | @onward room pos next node steps made hnode hturn hway ih =>
    rw [List.flatMap_cons, List.pairwise_append] at hlasts
    cases before with
    | cons first before => exact ih hlasts.2.1 (List.cons.inj hmade).2
    | nil =>
      obtain ⟨rfl, rfl⟩ := List.cons.inj hmade
      obtain ⟨x, hx, hstop⟩ := hs
      obtain ⟨turned, w, rfl, hgoes⟩ := not_stopping_of_turn hturn
      -- whatever step found the stop, the look at the end of the turn is not before it
      refine absurd ?_ hgoes
      rcases List.mem_append.mp hx with hx | hx
      · exact (List.pairwise_append.mp hlasts.1).2.2 x hx _ (List.mem_singleton_self _) hstop
      · obtain rfl := List.mem_singleton.mp hx
        exact hstop

end Executor

/-! ## Turn by turn, with nothing in between -/

namespace Executor

variable {ex : Executor σ} {walk : BranchWalk σ} {g : Graph} {room : Nat} {pos : Position} {w : World σ} {s s' : Stage σ}

/-- A traversal goes on, and enters the next node, only while the attempt is not asked to
    stop. -/
theorem not_stopping_of_trail {before after : List (Stage σ)}
    (h : trail ex walk g room pos w = before ++ s :: s' :: after) :
    ¬ Stopping ex.scope.token s.left ∧ ¬ Stopping ex.scope.token s'.entered := by
  induction before generalizing room pos w with
  | nil =>
    obtain ⟨room, -, -, -, started, -, hvisit⟩ := trail_eq_cons h
    rcases hvisit with ⟨-, -, -, hnil⟩ | ⟨v, gone, turn, -, -, hleave, ⟨next, rfl, hrest⟩ | ⟨-, hnil⟩⟩
    · cases hnil
    · have hleft := left_of_leave ex g s.node pos started v gone
      rw [hleave] at hleft
      obtain ⟨-, target, -, hroute⟩ := hleft.eq_onward
      have hgoes := contains_cancelled_eq_false.mp (Progress.eq_of_route_goto hroute).1
      obtain ⟨-, -, -, -, started', henter, -⟩ := trail_eq_cons hrest.symm
      obtain ⟨live, hentered⟩ := run_enter ex g s'.node next.record s.left
      rw [henter] at hentered
      obtain ⟨-, hentered⟩ := Prod.mk.inj hentered
      rw [hentered]
      exact ⟨hgoes, hgoes⟩
    · cases hnil
  | cons first before ih =>
    obtain ⟨room, -, -, -, started, -, hvisit⟩ := trail_eq_cons h
    rcases hvisit with ⟨-, -, -, hnil⟩ | ⟨v, gone, turn, -, -, -, ⟨next, -, hrest⟩ | ⟨-, hnil⟩⟩
    · simp at hnil
    · exact ih hrest.symm
    · simp at hnil

/-- A stop that was asked for when a node was entered is not taken back by its visit. -/
theorem stopping_left (hex : ex.Closed (lasting t)) (hwalk : WalkHas walk (lasting t)) {rest : List (Stage σ)}
    (h : trail ex walk g room pos w = s :: rest) (hs : Stopping t s.entered) : Stopping t s.left := by
  obtain ⟨_, -, -, -, started, -, hvisit⟩ := trail_eq_cons h
  have hvisited : Stopping t ((visit ex walk g s.node pos.progress pos.prior).run s.entered).2 :=
    Act.Preserves.run (has_visit hex hwalk g s.node pos.progress pos.prior) hs
  rcases hvisit with ⟨e, hvisit, -⟩ | ⟨v, gone, turn, hvisit, -, hleave, -⟩
  · rwa [hvisit] at hvisited
  · rw [hvisit] at hvisited
    have hleft : Stopping t ((leave ex g s.node pos started v).run gone).2 :=
      Act.Preserves.run (has_leave hex (storable_lasting ex) g s.node (fun _ _ => trivial) started v) hvisited
    rwa [hleave] at hleft

end Executor

/-! ## Whole traversals -/

namespace Tour

open Executor (Stint Way Position)

/-- The steps of a traversal node by node. Between its nodes it only shows what phase it is
    in, and tells nothing. -/
structure Divides (v : Tour σ) (steps : List (World σ × World σ)) (made : List (Stint σ)) : Prop where
  way : Way v.ex (v.ex.walkBranch v.levels) v.graph v.ex.config.maxNodeVisits
    (Position.start v.graph v.start v.context v.record) made
  parts : ∃ opening closing, steps = opening ++ made.flatMap Stint.steps ++ closing ∧
    ∀ x ∈ opening ++ closing, x.2.bus = x.1.bus

theorem exists_divides {v : Tour σ} {steps : List (World σ × World σ)} {y : Act σ Executor.Walked}
    (h : v.act.Goes steps y) : ∃ made, v.Divides steps made := by
  have hphase : (v.ex.setPhase v.record .pending none).Spares World.bus :=
    Executor.spares_setPhase (fun _ _ => rfl) v.ex v.record .pending none
  rcases Act.goes_bind h with ⟨_, h, -⟩ | ⟨_, opening, after, rfl, hopening, h⟩
  · exact ⟨[], .short, steps, [], by simp, by simpa using hphase.goes h⟩
  · obtain ⟨made, closing, rfl, hway, hclosing⟩ := Executor.way_of_loop h
    refine ⟨made, hway, opening, closing, by simp, fun x hx => ?_⟩
    rcases List.mem_append.mp hx with hx | hx
    · exact hphase.goes hopening x hx
    · exact hclosing x hx

theorem lasting_act {v : Tour σ} (hex : v.ex.Closed (lasting t)) : (lasting t).Has v.act :=
  Executor.has_traverse hex (Executor.has_walkBranch hex _) (storable_lasting v.ex) v.graph v.start v.context
    fun _ _ => trivial

/-- Whatever others do, no node is entered once the attempt was asked to stop while the one
    before was under way. -/
theorem Divides.last_of_stopping {v : Tour σ} (hex : v.ex.Closed (lasting v.ex.scope.token))
    {steps : List (World σ × World σ)} {y : Act σ Executor.Walked} (h : v.act.Goes steps y)
    (hothers : Undisturbed v.ex.scope.token steps) {made : List (Stint σ)} (hmade : v.Divides steps made)
    {before after : List (Stint σ)} {s : Stint σ} (hs : made = before ++ s :: after)
    (hstop : ∃ x ∈ s.steps, Stopping v.ex.scope.token x.1) : after = [] := by
  have hlasts := pairwise_stopping hothers (Act.Preserves.goes (lasting_act hex) h)
  obtain ⟨opening, closing, rfl, -⟩ := hmade.parts
  rw [List.pairwise_append, List.pairwise_append] at hlasts
  exact hmade.way.last_of_stopping hlasts.1.2.1 hs hstop

/-- With nothing in between, a node that is entered while the attempt is asked to stop is the
    only one of its traversal. -/
theorem alone_of_stopping {u : Tour σ} (hex : u.ex.Closed (lasting u.ex.scope.token))
    {before after : List (Executor.Stage σ)} {s : Executor.Stage σ} (h : u.visits = before ++ s :: after) :
    (Stopping u.ex.scope.token s.left → after = []) ∧ (Stopping u.ex.scope.token s.entered → u.visits = [s]) := by
  have hlast : Stopping u.ex.scope.token s.left → after = [] := by
    intro hleft
    cases after with
    | nil => rfl
    | cons s' after => exact absurd hleft (Executor.not_stopping_of_trail h).1
  refine ⟨hlast, fun hentered => ?_⟩
  rcases List.eq_nil_or_concat before with rfl | ⟨before, p, rfl⟩
  · have hleft := Executor.stopping_left hex (Executor.has_walkBranch hex _) h hentered
    rw [h, hlast hleft]
    rfl
  · have hvisits : u.visits = before ++ p :: s :: after := by simpa using h
    exact absurd hentered (Executor.not_stopping_of_trail hvisits).2

end Tour

/-! ## Stops -/

namespace Runner

/-- Whoever asks for a stop of an instance that is claimed is told so, and its attempt is asked
    to stop. -/
theorem run_stop {id : InstanceId} {w : World σ} (h : w.running.get? id.text = some t) :
    ∃ w', (stop id).run w = (.ok true, w') ∧ Stopping t w' := by
  have hrun : (stop id).run w = (.ok true,
      { w with
        cancelled := t :: w.cancelled
        live := w.live.modify id.text fun s => { s with status := .stopping } }) := by
    simp only [stop, Act.run_bind, Act.run_find, h]
    rfl
  exact ⟨_, hrun, List.mem_cons_self⟩

/-- What a stop means for an attempt. -/
structure Heeds (r : Runner σ) (levels depth : Nat) (d : Definition) (parameters : Parameters) (o : Opened σ) : Prop where
  /-- All the while, a stop of the instance is granted, and it is this attempt that is asked
      to stop. -/
  granted : ∀ w, ((r.executorOf (r.run levels) depth o).execute d.graph o.start o.record).Passes o.world w →
    ∃ w', (stop (InstanceId.derive d.name parameters)).run w = (.ok true, w') ∧ Stopping o.token w'
  /-- Nobody takes that back, whatever the engine is asked. -/
  kept : ∀ q, (r.handle (r.run levels) q).Preserves (Stopping o.token)
  /-- Every traversal of the attempt, its own flow and every branch, goes from node to node,
      whatever others do between two steps. -/
  divides : ∀ v : Tour σ, v.ex = r.executorOf (r.run levels) depth o → ∀ steps y, v.act.Goes steps y →
    ∃ made, v.Divides steps made
  /-- It enters no node once the attempt was asked to stop while the one before was under way. -/
  last : ∀ v : Tour σ, v.ex = r.executorOf (r.run levels) depth o → ∀ steps y, v.act.Goes steps y →
    Undisturbed o.token steps → ∀ made, v.Divides steps made → ∀ before s after, made = before ++ s :: after →
      (∃ x ∈ s.steps, Stopping o.token x.1) → after = []
  /-- With nothing in between, a node that is entered after the stop is the first one of its
      traversal and the last. -/
  alone : ∀ u : Tour σ, (r.tourOf (r.run levels) depth d o).Makes u → ∀ before s after,
    u.visits = before ++ s :: after →
      (Stopping o.token s.left → after = []) ∧ (Stopping o.token s.entered → u.visits = [s])

/-- Once a stop of an instance was granted, no traversal of the attempt under way, the job's
    own flow or a branch, enters a node after the one at which it finds that out; of one that
    begins later this is its first node. -/
theorem stop_ends_traversals (r : Runner σ) (levels depth : Nat) {d : Definition} {parameters : Parameters} {w : World σ}
    {o : Opened σ} (ho : opened? d parameters w = some o) : r.Heeds levels depth d parameters o := by
  have hex : (r.executorOf (r.run levels) depth o).Closed (lasting o.token) := lasting_executor r levels depth o
  refine ⟨fun w' hw' => ?_, lasting_handle r levels, ?_, ?_, ?_⟩
  · have hunended : Unended (InstanceId.derive d.name parameters) o.token w.bus w' :=
      Act.Keeps.passes (unending_execute r levels depth d o) (unended_of_opened ho) hw'
    exact run_stop hunended.claimed
  · intro v _ steps y hgoes
    exact Tour.exists_divides hgoes
  · intro v hv steps y hgoes hothers made hmade before s after hs hstop
    have htoken : v.ex.scope.token = o.token := by rw [hv]; rfl
    rw [← hv, ← htoken] at hex
    rw [← htoken] at hothers hstop
    exact hmade.last_of_stopping hex hgoes hothers hs hstop
  · intro u hu before s after hvisits
    have hsame : u.ex = r.executorOf (r.run levels) depth o := hu.ex_eq
    have htoken : u.ex.scope.token = o.token := by rw [hsame]; rfl
    rw [← hsame, ← htoken] at hex
    rw [← htoken]
    exact Tour.alone_of_stopping hex hvisits

end Runner

/-! ### A shift with a place for one branch -/

namespace Shift

def said : Reply → String
  | .stopping true => "granted"
  | _ => "refused"

def units : Units (List String) :=
  { step := fun name => some fun b notes =>
      if name = "first" then
        .ask notes (.stop b.instanceId) fun answer notes =>
          .finish (notes ++ [said answer]) (.result { status := .completed, exit := Exit.completed })
      else .finish (notes ++ [name]) (.result { status := .completed, exit := Exit.completed })
    decider := fun _ => none }

def single (flow node : String) : Graph := ⟨flow, node, [⟨node, .step node, []⟩]⟩

def task : Task (List String) :=
  { runner := { config := { maxParallelBranches := 1 }, units }
    job := "shift"
    definition := { graph := ⟨"shift", "fan", [⟨"fan", .split [single "a" "first", single "b" "second"], []⟩]⟩ }
    parameters := Dict.empty }

def world : World (List String) :=
  { repository := { store := .shelf Shelf.empty }
    jobs := Dict.empty.insert "shift" task.definition
    bus := Bus.ofCapacity 4
    clock := { origin := Instant.ofSeconds 0 0 }
    memory := [] }

def begun (o : Opened (List String)) : List (String × Bool) :=
  let own : Tour (List String) := task.runner.tourOf task.inner 0 task.definition o
  own.visits.flatMap fun s => (own.branches s).flatMap fun x =>
    x.2.visits.map fun s => (s.node.id, s.entered.cancelled.contains o.token)

theorem begun_of_world : (task.opened? world).map begun = some [("first", false), ("second", true)] := by
  decide +kernel

/-- The stop is granted while the second branch waits for its place; its node is begun all
    the same, and the shift completes. -/
theorem second_begun : (task.after world).memory = ["granted", "second"] ∧
    (task.opened? world).map begun = some [("first", false), ("second", true)] ∧
    (task.record? world).map (·.finalStatus) = some (some .completed) :=
  ⟨by decide +kernel, begun_of_world, by decide +kernel⟩

/-- The second branch comes no further than the node that was begun. -/
theorem second_heeds : ∃ o : Opened (List String), task.opened? world = some o ∧
    task.runner.Heeds (Runner.ampleLevels - 1) 0 task.definition Dict.empty o ∧
    ∃ (u : Tour (List String)) (s : Executor.Stage (List String)),
      (task.runner.tourOf task.inner 0 task.definition o).Makes u ∧ s.node.id = "second" ∧
        Stopping o.token s.entered ∧ u.visits = [s] := by
  obtain ⟨o, ho, hbegun⟩ := Option.map_eq_some_iff.mp begun_of_world
  have hheeds : task.runner.Heeds (Runner.ampleLevels - 1) 0 task.definition Dict.empty o :=
    task.runner.stop_ends_traversals (Runner.ampleLevels - 1) 0 ho
  have hsecond : ("second", true) ∈ begun o := by simp [hbegun]
  obtain ⟨own, hown, hsecond⟩ := List.mem_flatMap.mp hsecond
  obtain ⟨x, hx, hsecond⟩ := List.mem_flatMap.mp hsecond
  obtain ⟨s, hs, heq⟩ := List.mem_map.mp hsecond
  obtain ⟨hid, hasked⟩ := Prod.mk.inj heq
  have hstop : Stopping o.token s.entered := by simpa [Stopping] using hasked
  obtain ⟨before, after, hvisits⟩ := List.append_of_mem hs
  have hmakes : (task.runner.tourOf task.inner 0 task.definition o).Makes x.2 := .branch .self hown hx
  exact ⟨o, ho, hheeds, x.2, s, hmakes, hid, hstop, (hheeds.alone x.2 hmakes before s after hvisits).2 hstop⟩

end Shift

end Switchyard
