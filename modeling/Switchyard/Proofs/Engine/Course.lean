import Switchyard.Engine.Executor
import Switchyard.Proofs.Act
import Switchyard.Proofs.Flow.Visits
import Switchyard.Proofs.Graph.Built

/-
  Switchyard.Proofs.Engine.Course — the visits a traversal makes, and what follows what.

  `trail` lists the visits of `loop` done from a world: it takes the very turns that
  `loop` takes and keeps, for each, where the traversal stood, the world in which the
  node was entered, what came of the visit and the world the turn left.

  `Course` says what such a list may look like, with no world in it but for the look at
  a stop: each visit is made where the one before it led, and the last one settles what
  the traversal comes to. `course_of_loop` is the link: every run of `loop` is a course
  of its trail, however it ends. What holds of a traversal's visits is proved by
  induction on the course.

  What the worlds have to do with the visits is told by the trail: `front_of_trail` says
  that whatever a turn that leads on keeps (`LeadsOn`) holds in front of every visit, and
  `entered_of_trail` that it does where the node is entered.
-/

namespace Switchyard.Executor

variable {σ : Type}

def Position.folded (pos : Position) (node : Node Graph) (v : Visit) : Progress := pos.progress.apply node.id v

def Position.kept (pos : Position) (node : Node Graph) (v : Visit) : Option Record :=
  pos.record.map fun r => noted r (pos.folded node v) ⟨node.id, v.status, v.exit⟩

def Position.onward (pos : Position) (node : Node Graph) (v : Visit) (target : String) : Position :=
  { progress := pos.folded node v, node := target, prior := none, record := pos.kept node v }

theorem Position.all_kept {R : Record → Prop} (hR : ∀ rec p o, R rec → R (noted rec p o)) (pos : Position)
    (node : Node Graph) (v : Visit) (hpos : ∀ rec ∈ pos.record, R rec) : ∀ rec ∈ pos.kept node v, R rec := by
  intro rec hrec
  obtain ⟨old, hold, rfl⟩ := Option.map_eq_some_iff.mp hrec
  exact hR _ _ _ (hpos old hold)

def ending (p : Progress) (o : FlowOutcome) : Traversal := { outcome := o, context := p.context, updates := p.updates }

/-- A visit as a traversal made it. -/
structure Stage (σ : Type) where
  pos : Position
  node : Node Graph
  /-- The world in which the node was entered. -/
  entered : World σ
  came : Except Halt Visit
  /-- The world once the visit was folded in and routed, or where it broke off. -/
  left : World σ

def Stage.stopping (t : Token) (s : Stage σ) : Bool := s.left.cancelled.contains t

/-- The node and what came of the visit, unless it broke off. -/
def Stage.visit? (s : Stage σ) : Option (String × Visit) :=
  match s.came with
  | .ok v => some (s.node.id, v)
  | .error _ => none

def visitsOf (made : List (Stage σ)) : Visits := made.filterMap Stage.visit?

@[simp] theorem visitsOf_nil : visitsOf ([] : List (Stage σ)) = [] := rfl

@[simp] theorem visitsOf_cons {s : Stage σ} {rest : List (Stage σ)} {v : Visit} (hcame : s.came = .ok v) :
    visitsOf (s :: rest) = (s.node.id, v) :: visitsOf rest := by
  simp [visitsOf, Stage.visit?, hcame]

/-- The visits that `loop` makes. -/
def trail (ex : Executor σ) (walk : BranchWalk σ) (g : Graph) : (room : Nat) → Position → World σ → List (Stage σ)
  | 0, _, _ => []
  | room + 1, pos, w =>
    match g.node? pos.node with
    | none => []
    | some node =>
      match (enter ex g node pos.record).run w with
      | (.error _, _) => []
      | (.ok started, entered) =>
        match (visit ex walk g node pos.progress pos.prior).run entered with
        | (.error h, left) => [⟨pos, node, entered, .error h, left⟩]
        | (.ok v, gone) =>
          match (leave ex g node pos started v).run gone with
          | (.ok (.onward next), left) => ⟨pos, node, entered, .ok v, left⟩ :: trail ex walk g room next left
          | (_, left) => [⟨pos, node, entered, .ok v, left⟩]

/-! ## One turn -/

/-- What the end of a turn may be, by the visit and by whether a stop had been asked
    for in the world it left. -/
inductive Left (ex : Executor σ) (node : Node Graph) (pos : Position) (v : Visit) (left : World σ) :
    Except Halt Turn → Prop
  /-- Storing the record was broken off. -/
  | halted (h : Halt) (w : World σ) (rec : Record) : rec ∈ pos.kept node v →
      (Checkpoint.node rec).run w = (.error h, left) → Left ex node pos v left (.error h)
  | unkept (e : CheckpointError) (w : World σ) (rec : Record) : rec ∈ pos.kept node v →
      (Checkpoint.node rec).run w = (.ok (.error e), left) →
      Left ex node pos v left (.ok (.done (.error (.checkpoint e), pos.kept node v)))
  | failed (f : Failure) : v.failure = some f →
      Left ex node pos v left
        (.ok (.done (.ok (ending (pos.folded node v) ((pos.folded node v).engineFailure node.id f)), pos.kept node v)))
  | finished (o : FlowOutcome) : v.failure = none →
      (pos.folded node v).route node v (left.cancelled.contains ex.scope.token) = .finish o →
      Left ex node pos v left (.ok (.done (.ok (ending (pos.folded node v) o), pos.kept node v)))
  | onward (target : String) : v.failure = none →
      (pos.folded node v).route node v (left.cancelled.contains ex.scope.token) = .goto target →
      Left ex node pos v left (.ok (.onward (pos.onward node v target)))

theorem run_setPhase (ex : Executor σ) (record : Option Record) (phase : Phase) (node : Option String) (w : World σ) :
    ∃ live, (setPhase ex record phase node).run w = (.ok (), { w with live }) := by
  cases record with
  | none => exact ⟨w.live, rfl⟩
  | some r => exact ⟨_, rfl⟩

theorem run_ended (ex : Executor σ) (record : Option Record) (p : Progress) (o : FlowOutcome) (w : World σ) :
    ∃ live, (ended ex record p o).run w = (.ok (.ok (ending p o), record), { w with live }) := by
  obtain ⟨live, h⟩ := run_setPhase ex record .terminated none w
  exact ⟨live, by simp only [ended, Act.run_bind_ok h, Act.run_pure, ending]⟩

theorem run_exceed (ex : Executor σ) (node : Node Graph) (pos : Position) (w : World σ) :
    (ex.config.maxNodeVisits < Text.maxU32 ∧ ∃ live, (exceed ex node pos).run w = (.ok (.ok (ending pos.progress
        (pos.progress.engineFailure node.id (.visitLimitExceeded node.id ex.config.maxNodeVisits))), pos.record),
      { w with live })) ∨
    (Text.maxU32 ≤ ex.config.maxNodeVisits ∧ (exceed ex node pos).run w = (.error (.panic countOverflow), w)) := by
  unfold exceed
  split
  next hcount => exact Or.inl ⟨hcount, run_ended ex pos.record pos.progress _ w⟩
  next hcount => exact Or.inr ⟨Nat.not_lt.mp hcount, rfl⟩

theorem run_enter (ex : Executor σ) (g : Graph) (node : Node Graph) (record : Option Record) (w : World σ) :
    ∃ live, (enter ex g node record).run w =
      (.ok w.clock.waited, { w with live, bus := w.bus.publish (.nodeStarted ex.scope.id g.name node.id) }) := by
  obtain ⟨live, h⟩ := run_setPhase ex record .runningNode (some node.id) w
  exact ⟨live, by simp only [enter, Act.run_bind_ok h]; rfl⟩

theorem run_keep (record : Option Record) (p : Progress) (o : NodeOutcome) (w : World σ) :
    (∃ w₁, (keep record p o).run w = (.ok (.ok (), record.map (noted · p o)), w₁)) ∨
    ∃ rec ∈ record.map (noted · p o),
      (∃ e w₁, (keep record p o).run w = (.ok (.error e, record.map (noted · p o)), w₁) ∧
        (Checkpoint.node rec).run w = (.ok (.error e), w₁)) ∨
      (∃ h w₁, (keep record p o).run w = (.error h, w₁) ∧ (Checkpoint.node rec).run w = (.error h, w₁)) := by
  cases record with
  | none => exact Or.inl ⟨w, rfl⟩
  | some r =>
    cases h : (Checkpoint.node (noted r p o)).run w with
    | mk x w₁ =>
      simp only [keep]
      cases x with
      | error e => exact Or.inr ⟨_, rfl, Or.inr ⟨e, w₁, by rw [Act.run_bind_error h], h⟩⟩
      | ok x =>
        rw [Act.run_bind_ok h]
        cases x with
        | error e => exact Or.inr ⟨_, rfl, Or.inl ⟨e, w₁, rfl, h⟩⟩
        | ok u => exact Or.inl ⟨w₁, rfl⟩

/-- What follows once a visit was told and its record kept, or could not be. -/
def settle (ex : Executor σ) (node : Node Graph) (v : Visit) (p : Progress) :
    Except CheckpointError Unit × Option Record → Act σ Turn
  | (.error e, record) => return .done (.error (.checkpoint e), record)
  | (.ok (), record) =>
    match v.failure with
    | some failure => return .done (← ended ex record p (p.engineFailure node.id failure))
    | none => do
      setPhase ex record .awaitingMatch none
      let stopping ← Act.isCancelled ex.scope.token
      match p.route node v stopping with
      | .finish o => return .done (← ended ex record p o)
      | .goto target => return .onward { progress := p, node := target, prior := none, record }

theorem leave_eq (ex : Executor σ) (g : Graph) (node : Node Graph) (pos : Position) (started : Nat) (v : Visit) :
    leave ex g node pos started v =
      Act.waited >>= fun finished =>
        Act.publish (.nodeFinished ex.scope.id g.name node.id v.status v.exit (finished - started)) >>= fun _ =>
          keep pos.record (pos.folded node v) ⟨node.id, v.status, v.exit⟩ >>= settle ex node v (pos.folded node v) := by
  refine bind_congr fun finished => bind_congr fun _ => bind_congr fun kept => ?_
  obtain ⟨e | u, record⟩ := kept
  · rfl
  · simp only [settle]
    cases v.failure <;> rfl

theorem left_of_leave (ex : Executor σ) (g : Graph) (node : Node Graph) (pos : Position) (started : Nat) (v : Visit)
    (w : World σ) :
    Left ex node pos v ((leave ex g node pos started v).run w).2 ((leave ex g node pos started v).run w).1 := by
  simp only [leave, Act.waited, Act.publish, Act.run_bind, Act.run_find, Act.run_change]
  generalize w.bus.publish _ = bus
  rcases run_keep pos.record (pos.progress.apply node.id v) ⟨node.id, v.status, v.exit⟩ { w with bus } with
    ⟨w₁, h⟩ | ⟨rec, hrec, ⟨e, w₁, h, hstore⟩ | ⟨e, w₁, h, hstore⟩⟩
  · simp only [h]
    cases hf : v.failure with
    | some f =>
      obtain ⟨live, hend⟩ := run_ended ex (pos.record.map (noted · (pos.progress.apply node.id v)
        ⟨node.id, v.status, v.exit⟩)) (pos.progress.apply node.id v)
        ((pos.progress.apply node.id v).engineFailure node.id f) w₁
      simp only [Act.run_bind_ok hend, Act.run_pure]
      exact .failed f hf
    | none =>
      obtain ⟨live, hphase⟩ := run_setPhase ex (pos.record.map (noted · (pos.progress.apply node.id v)
        ⟨node.id, v.status, v.exit⟩)) .awaitingMatch none w₁
      simp only [Act.run_bind_ok hphase, Act.isCancelled, Act.run_bind, Act.run_find]
      cases hroute : (pos.progress.apply node.id v).route node v (w₁.cancelled.contains ex.scope.token) with
      | finish o =>
        obtain ⟨live', hend⟩ := run_ended ex (pos.record.map (noted · (pos.progress.apply node.id v)
          ⟨node.id, v.status, v.exit⟩)) (pos.progress.apply node.id v) o { w₁ with live }
        simp only [Act.run_bind_ok hend, Act.run_pure]
        exact .finished o hf hroute
      | goto target =>
        simp only [Act.run_pure]
        exact .onward target hf hroute
  · simp only [h, Act.run_pure]
    exact .unkept e _ rec hrec hstore
  · simp only [h]
    exact .halted e _ rec hrec hstore

/-! ## The course of a traversal -/

/-- Visits in the order in which each leads to the next, from a position with room for
    so many, what the traversal comes to, and the world it ends in. -/
inductive Course (ex : Executor σ) (g : Graph) :
    Nat → Position → List (Stage σ) → Except Halt Walked → World σ → Prop
  | unknown {room : Nat} {pos : Position} {w : World σ} : g.node? pos.node = none →
      Course ex g room pos [] (.ok (.error (.unknownNode g.name pos.node), pos.record)) w
  | full {pos : Position} {node : Node Graph} {w : World σ} : g.node? pos.node = some node →
      ex.config.maxNodeVisits < Text.maxU32 → Course ex g 0 pos [] (.ok (.ok (ending pos.progress
        (pos.progress.engineFailure node.id (.visitLimitExceeded node.id ex.config.maxNodeVisits))), pos.record)) w
  | overflow {pos : Position} {node : Node Graph} {w : World σ} : g.node? pos.node = some node →
      Text.maxU32 ≤ ex.config.maxNodeVisits → Course ex g 0 pos [] (.error (.panic countOverflow)) w
  | broken {room : Nat} {s : Stage σ} {h : Halt} : g.node? s.pos.node = some s.node → s.came = .error h →
      Course ex g (room + 1) s.pos [s] (.error h) s.left
  | done {room : Nat} {s : Stage σ} {v : Visit} {walked : Walked} : g.node? s.pos.node = some s.node →
      s.came = .ok v → Left ex s.node s.pos v s.left (.ok (.done walked)) →
      Course ex g (room + 1) s.pos [s] (.ok walked) s.left
  | halted {room : Nat} {s : Stage σ} {v : Visit} {h : Halt} : g.node? s.pos.node = some s.node →
      s.came = .ok v → Left ex s.node s.pos v s.left (.error h) → Course ex g (room + 1) s.pos [s] (.error h) s.left
  | onward {room : Nat} {s : Stage σ} {v : Visit} {next : Position} {rest : List (Stage σ)}
      {r : Except Halt Walked} {w : World σ} : g.node? s.pos.node = some s.node → s.came = .ok v →
      Left ex s.node s.pos v s.left (.ok (.onward next)) → Course ex g room next rest r w →
      Course ex g (room + 1) s.pos (s :: rest) r w

variable {ex : Executor σ} {g : Graph} {room : Nat} {pos : Position} {made : List (Stage σ)}
  {r : Except Halt Walked} {w : World σ}

theorem Course.length_le (h : Course ex g room pos made r w) : made.length ≤ room := by
  induction h with
  | unknown => exact Nat.zero_le _
  | full => exact Nat.le_refl _
  | overflow => exact Nat.le_refl _
  | broken => simp
  | done => simp
  | halted => simp
  | onward _ _ _ _ ih => simpa using ih

theorem Course.pos_of_head? {s : Stage σ} (h : Course ex g room pos made r w) (hs : made.head? = some s) :
    s.pos = pos ∧ g.node? pos.node = some s.node := by
  cases h with
  | unknown => cases hs
  | full => cases hs
  | overflow => cases hs
  | broken hn => cases hs; exact ⟨rfl, hn⟩
  | done hn => cases hs; exact ⟨rfl, hn⟩
  | halted hn => cases hs; exact ⟨rfl, hn⟩
  | onward hn => cases hs; exact ⟨rfl, hn⟩

theorem Course.node?_of_mem (h : Course ex g room pos made r w) :
    ∀ s ∈ made, g.node? s.pos.node = some s.node := by
  induction h with
  | unknown => simp
  | full => simp
  | overflow => simp
  | broken hnode => simpa using hnode
  | done hnode => simpa using hnode
  | halted hnode => simpa using hnode
  | onward hnode _ _ _ ih => exact List.forall_mem_cons.mpr ⟨hnode, ih⟩

theorem Course.mem_nodes (h : Course ex g room pos made r w) {s : Stage σ} (hs : s ∈ made) : s.node ∈ g.nodes :=
  List.mem_of_find?_eq_some (h.node?_of_mem s hs)

/-- No visit broke off in a course that comes to an end. -/
theorem Course.map_id (h : Course ex g room pos made r w) {x : Walked} (hr : r = .ok x) :
    made.map (·.node.id) = (visitsOf made).map (·.1) := by
  induction h with
  | unknown => rfl
  | full => rfl
  | overflow => rfl
  | broken => cases hr
  | done _ hcame => simp [visitsOf_cons hcame]
  | halted => cases hr
  | onward _ hcame _ _ ih => simp [visitsOf_cons hcame, ih hr]

theorem Course.came_of_mem (h : Course ex g room pos made r w) {x : Walked} (hr : r = .ok x) :
    ∀ s ∈ made, ∃ v, s.came = .ok v := by
  induction h with
  | unknown => simp
  | full => simp
  | overflow => simp
  | broken => cases hr
  | done _ hcame => simpa using ⟨_, hcame⟩
  | halted => cases hr
  | onward _ hcame _ _ ih => exact List.forall_mem_cons.mpr ⟨⟨_, hcame⟩, ih hr⟩

theorem Course.ne_nil (h : Course ex g room pos made r w) (hpos : g.contains pos.node = true) (hroom : 0 < room) :
    made ≠ [] := by
  rintro rfl
  cases h with
  | unknown hn => simp [Graph.contains, hn] at hpos
  | full => cases hroom
  | overflow => cases hroom

/-- No visit was made, and still there is an outcome: there was no room. -/
theorem Course.eq_of_nil {t : Traversal} {kept : Option Record} (h : Course ex g room pos [] (.ok (.ok t, kept)) w) :
    room = 0 ∧ t = ending pos.progress
      (pos.progress.engineFailure pos.node (.visitLimitExceeded pos.node ex.config.maxNodeVisits)) := by
  cases h with
  | full hn => exact ⟨rfl, by rw [Graph.id_of_node? hn]⟩

theorem Left.eq_onward {node : Node Graph} {v : Visit} {left : World σ} {next : Position}
    (h : Left ex node pos v left (.ok (.onward next))) :
    v.failure = none ∧ ∃ target, next = pos.onward node v target ∧
      (pos.folded node v).route node v (left.cancelled.contains ex.scope.token) = .goto target := by
  cases h with
  | onward target hf hroute => exact ⟨hf, target, rfl, hroute⟩

theorem isSome_of_mem_kept {rec : Record} {node : Node Graph} {v : Visit} (h : rec ∈ pos.kept node v) :
    pos.record.isSome = true := by
  have hsome := Option.isSome_of_mem h
  rwa [Position.kept, Option.isSome_map] at hsome

@[simp] theorem isSome_record_onward (pos : Position) (node : Node Graph) (v : Visit) (target : String) :
    (pos.onward node v target).record.isSome = pos.record.isSome := Option.isSome_map

/-- Only a record that cannot be kept is an error where every rule stays in the graph. -/
theorem Course.error_eq (h : Course ex g room pos made r w) {e : FlowError} {kept : Option Record}
    (hr : r = .ok (.error e, kept)) (hpos : g.contains pos.node = true)
    (hstay : ∀ id n, g.node? id = some n → ∀ t ∈ n.transitions, ∀ target, t.node? = some target →
      g.contains target = true) : pos.record.isSome = true ∧ ∃ c, e = .checkpoint c := by
  induction h with
  | unknown hn => simp [Graph.contains, hn] at hpos
  | full => cases hr
  | overflow => cases hr
  | broken => cases hr
  | done _ _ hleft =>
    cases hr
    cases hleft with
    | unkept c _ _ hrec => exact ⟨isSome_of_mem_kept hrec, c, rfl⟩
  | halted => cases hr
  | @onward room s v next rest r w hn hcame hleft hrest ih =>
    obtain ⟨-, target, rfl, hroute⟩ := hleft.eq_onward
    obtain ⟨-, t, ht, haction⟩ := Progress.eq_of_route_goto hroute
    have htarget : t.node? = some target := by rw [Transition.node?, haction]
    simpa using ih hr (hstay _ _ hn t (Transition.choose_eq_some ht).1 target htarget)

/-- Where every rule stays in the graph, so does the node that an outcome begins again at. -/
theorem Course.contains_restart (h : Course ex g room pos made r w) {t : Traversal} {kept : Option Record}
    (hr : r = .ok (.ok t, kept)) (hstay : ∀ id n, g.node? id = some n → ∀ t ∈ n.transitions, ∀ target,
      t.node? = some target → g.contains target = true) {m : String} (hm : t.outcome.restartNode = some m) :
    g.contains m = true := by
  have hself : ∀ {id : String} {n : Node Graph}, g.node? id = some n → g.contains n.id = true := by
    intro id n hn
    rw [Graph.id_of_node? hn, Graph.contains, hn]
    rfl
  induction h with
  | unknown => cases hr
  | full hn =>
    cases hr
    rw [← Progress.restart_of_finish hm]
    exact hself hn
  | overflow => cases hr
  | broken => cases hr
  | @done room s v walked hn hcame hleft =>
    cases hr
    cases hleft with
    | failed f hf =>
      rw [← Progress.restart_of_finish hm]
      exact hself hn
    | finished o hf hroute =>
      rcases Progress.restart_of_route_finish hroute hm with rfl | ⟨rule, hrule, htarget⟩
      · exact hself hn
      · exact hstay _ _ hn rule hrule m htarget
  | halted => cases hr
  | onward _ _ _ _ ih => exact ih hr

/-- Whatever holds of a record with any further visits in it holds of the one kept. -/
theorem Course.record_kept {R : Record → Prop} (hR : ∀ rec p o, R rec → R (noted rec p o))
    (h : Course ex g room pos made r w) (hpos : ∀ rec ∈ pos.record, R rec) {x : Except FlowError Traversal}
    {kept : Option Record} (hr : r = .ok (x, kept)) : ∀ rec ∈ kept, R rec := by
  induction h with
  | unknown => cases hr; exact hpos
  | full => cases hr; exact hpos
  | overflow => cases hr
  | broken => cases hr
  | @done room s v walked hn hcame hleft =>
    cases hr
    cases hleft <;> exact s.pos.all_kept hR s.node v hpos
  | halted => cases hr
  | @onward room s v next rest r w hn hcame hleft hrest ih =>
    obtain ⟨-, target, rfl, -⟩ := hleft.eq_onward
    exact ih (s.pos.all_kept hR s.node v hpos) hr

/-- An outcome is made of the progress after all visits. -/
theorem Course.finished (h : Course ex g room pos made r w) {t : Traversal} {kept : Option Record}
    (hr : r = .ok (.ok t, kept)) :
    ∃ status exit restart failure, t = ending (pos.progress.after (visitsOf made))
      ((pos.progress.after (visitsOf made)).finish status exit (some restart) failure) := by
  induction h with
  | unknown => cases hr
  | full => cases hr; exact ⟨_, _, _, _, rfl⟩
  | overflow => cases hr
  | broken => cases hr
  | @done room s v walked hn hcame hleft =>
    cases hr
    rw [visitsOf_cons hcame]
    cases hleft with
    | failed f hf => exact ⟨_, _, _, _, rfl⟩
    | finished o hf hroute =>
      obtain ⟨status, exit, restart, failure, rfl, -⟩ := Progress.eq_of_route_finish hroute
      exact ⟨status, exit, restart, failure, rfl⟩
  | halted => cases hr
  | @onward room s v next rest r w hn hcame hleft hrest ih =>
    obtain ⟨-, target, rfl, -⟩ := hleft.eq_onward
    rw [visitsOf_cons hcame]
    exact ih hr

/-! ## Every walk is a course -/

theorem loop_zero (ex : Executor σ) (walk : BranchWalk σ) (g : Graph) (pos : Position) :
    loop ex walk g 0 pos = match g.node? pos.node with
      | none => pure (.error (.unknownNode g.name pos.node), pos.record)
      | some node => exceed ex node pos := by
  unfold loop
  cases g.node? pos.node <;> rfl

def goOn (ex : Executor σ) (walk : BranchWalk σ) (g : Graph) (room : Nat) : Turn → Act σ Walked
  | .done walked => pure walked
  | .onward next => loop ex walk g room next

theorem loop_succ (ex : Executor σ) (walk : BranchWalk σ) (g : Graph) (room : Nat) (pos : Position) :
    loop ex walk g (room + 1) pos = match g.node? pos.node with
      | none => pure (.error (.unknownNode g.name pos.node), pos.record)
      | some node => enter ex g node pos.record >>= fun started =>
          visit ex walk g node pos.progress pos.prior >>= fun v =>
            leave ex g node pos started v >>= goOn ex walk g room := by
  rw [loop]
  cases g.node? pos.node with
  | none => rfl
  | some node =>
    refine bind_congr fun started => bind_congr fun v => bind_congr fun turn => ?_
    cases turn <;> rfl

theorem course_of_loop (ex : Executor σ) (walk : BranchWalk σ) (g : Graph) (room : Nat) (pos : Position)
    (w : World σ) : Course ex g room pos (trail ex walk g room pos w) ((loop ex walk g room pos).run w).1
      ((loop ex walk g room pos).run w).2 := by
  induction room generalizing pos w with
  | zero =>
    rw [loop_zero, trail]
    cases hn : g.node? pos.node with
    | none => exact .unknown hn
    | some node =>
      rcases run_exceed ex node pos w with ⟨hcount, live, h⟩ | ⟨hcount, h⟩
      · simp only [h]
        exact .full hn hcount
      · simp only [h]
        exact .overflow hn hcount
  | succ room ih =>
    rw [loop_succ, trail]
    cases hn : g.node? pos.node with
    | none => exact .unknown hn
    | some node =>
      obtain ⟨live, henter⟩ := run_enter ex g node pos.record w
      simp only [henter, Act.run_bind_ok henter]
      generalize { w with live, bus := w.bus.publish (.nodeStarted ex.scope.id g.name node.id) } = entered
      cases hvisit : (visit ex walk g node pos.progress pos.prior).run entered with
      | mk came gone =>
        cases came with
        | error h =>
          simp only [Act.run_bind_error hvisit]
          exact .broken (s := ⟨pos, node, entered, .error h, gone⟩) hn rfl
        | ok v =>
          simp only [Act.run_bind_ok hvisit]
          have hleft := left_of_leave ex g node pos w.clock.waited v gone
          cases hleave : (leave ex g node pos w.clock.waited v).run gone with
          | mk turn left =>
            rw [hleave] at hleft
            cases turn with
            | error h =>
              simp only [Act.run_bind_error hleave]
              exact .halted (s := ⟨pos, node, entered, .ok v, left⟩) hn rfl hleft
            | ok turn =>
              simp only [Act.run_bind_ok hleave]
              cases turn with
              | done walked => exact .done (s := ⟨pos, node, entered, .ok v, left⟩) hn rfl hleft
              | onward next => exact .onward (s := ⟨pos, node, entered, .ok v, left⟩) hn rfl hleft (ih next left)

/-! ## A trail, turn by turn -/

section Turns

variable {walk : BranchWalk σ} {s : Stage σ} {rest : List (Stage σ)}

/-- The first visit of a trail and where it led: onward, or nowhere. -/
theorem trail_eq_cons (h : trail ex walk g room pos w = s :: rest) :
    ∃ room', room = room' + 1 ∧ s.pos = pos ∧ g.node? pos.node = some s.node ∧
      ∃ started, (enter ex g s.node pos.record).run w = (.ok started, s.entered) ∧
        ((∃ e, (visit ex walk g s.node pos.progress pos.prior).run s.entered = (.error e, s.left) ∧
            s.came = .error e ∧ rest = []) ∨
          ∃ v gone turn, (visit ex walk g s.node pos.progress pos.prior).run s.entered = (.ok v, gone) ∧
            s.came = .ok v ∧ (leave ex g s.node pos started v).run gone = (turn, s.left) ∧
            ((∃ next, turn = .ok (.onward next) ∧ rest = trail ex walk g room' next s.left) ∨
              (∀ next, turn ≠ .ok (.onward next)) ∧ rest = [])) := by
  cases room with
  | zero => cases h
  | succ room =>
    simp only [trail] at h
    split at h
    · cases h
    next node hnode =>
      split at h
      · cases h
      next started entered henter =>
        split at h
        next e left hvisit =>
          cases h
          exact ⟨room, rfl, rfl, hnode, started, henter, Or.inl ⟨e, hvisit, rfl, rfl⟩⟩
        next v gone hvisit =>
          split at h
          next next left hleave =>
            cases h
            exact ⟨room, rfl, rfl, hnode, started, henter, Or.inr
              ⟨v, gone, _, hvisit, rfl, hleave, Or.inl ⟨next, rfl, rfl⟩⟩⟩
          next turn left hdone hleave =>
            cases h
            exact ⟨room, rfl, rfl, hnode, started, henter, Or.inr
              ⟨v, gone, turn, hvisit, rfl, hleave, Or.inr ⟨hdone, rfl⟩⟩⟩

/-- A stage is a visit done in the world in which its node was entered. -/
theorem came_of_mem_trail (h : s ∈ trail ex walk g room pos w) :
    ((visit ex walk g s.node s.pos.progress s.pos.prior).run s.entered).1 = s.came := by
  generalize hmade : trail ex walk g room pos w = made at h
  induction made generalizing room pos w with
  | nil => cases h
  | cons first rest ih =>
    obtain ⟨room, -, rfl, -, started, -, hvisit⟩ := trail_eq_cons hmade
    rcases List.mem_cons.mp h with rfl | h
    · rcases hvisit with ⟨e, hvisit, hcame, -⟩ | ⟨v, gone, turn, hvisit, hcame, -⟩
      · rw [hvisit, hcame]
      · rw [hvisit, hcame]
    · rcases hvisit with ⟨-, -, -, rfl⟩ | ⟨-, -, -, -, -, -, ⟨next, -, hrest⟩ | ⟨-, rfl⟩⟩
      · cases h
      · exact ih hrest.symm h
      · cases h

/-- A traversal comes through the start of its first visit. -/
theorem passes_entered (h : trail ex walk g room pos w = s :: rest) : (loop ex walk g room pos).Passes w s.entered := by
  obtain ⟨room, rfl, -, hnode, started, henter, -⟩ := trail_eq_cons h
  rw [loop_succ, hnode]
  exact (Act.passes_of_run henter).bind_left _

inductive LeadsOn (ex : Executor σ) (walk : BranchWalk σ) (g : Graph) (pos : Position) (w : World σ)
    (node : Node Graph) (v : Visit) (next : Position) (left : World σ) : Prop
  | mk {started : Nat} {entered gone : World σ} : g.node? pos.node = some node →
      (enter ex g node pos.record).run w = (.ok started, entered) →
      (visit ex walk g node pos.progress pos.prior).run entered = (.ok v, gone) →
      (leave ex g node pos started v).run gone = (.ok (.onward next), left) →
      LeadsOn ex walk g pos w node v next left

theorem LeadsOn.run_loop {node : Node Graph} {v : Visit} {next : Position} {left : World σ}
    (h : LeadsOn ex walk g pos w node v next left) (room : Nat) :
    (loop ex walk g (room + 1) pos).run w = (loop ex walk g room next).run left := by
  obtain ⟨hnode, henter, hvisit, hleave⟩ := h
  rw [loop_succ, hnode]
  exact (Act.run_bind_ok henter).trans ((Act.run_bind_ok hvisit).trans (Act.run_bind_ok hleave))

theorem LeadsOn.passes_loop {node : Node Graph} {v : Visit} {next : Position} {left : World σ}
    (h : LeadsOn ex walk g pos w node v next left) {w' : World σ} (hnext : (loop ex walk g room next).Passes left w') :
    (loop ex walk g (room + 1) pos).Passes w w' := by
  obtain ⟨hnode, henter, hvisit, hleave⟩ := h
  rw [loop_succ, hnode]
  exact .bind_right henter (.bind_right hvisit (.bind_right hleave hnext))

/-- What every turn that leads on keeps true of the visits made so far holds in front of
    every visit, all visits before it came to an end, and the traversal goes on from there. -/
theorem front_of_trail {I : Visits → Position → World σ → Prop}
    (hturn : ∀ {vs pos w node v next left}, I vs pos w → LeadsOn ex walk g pos w node v next left →
      I (vs ++ [(node.id, v)]) next left)
    {before after : List (Stage σ)} (hmade : trail ex walk g room pos w = before ++ s :: after) {vs : Visits}
    (h : I vs pos w) :
    (visitsOf before).map (·.1) = before.map (·.node.id) ∧
      ∃ room' w', I (vs ++ visitsOf before) s.pos w' ∧ trail ex walk g room' s.pos w' = s :: after ∧
        (loop ex walk g room pos).run w = (loop ex walk g room' s.pos).run w' ∧
        ∀ w'', (loop ex walk g room' s.pos).Passes w' w'' → (loop ex walk g room pos).Passes w w'' := by
  induction before generalizing room pos w vs with
  | nil =>
    obtain ⟨-, -, rfl, -⟩ := trail_eq_cons hmade
    refine ⟨rfl, room, w, ?_, hmade, rfl, fun _ h => h⟩
    rwa [visitsOf_nil, List.append_nil]
  | cons x before ih =>
    obtain ⟨room, rfl, rfl, hnode, started, henter, hvisit⟩ := trail_eq_cons hmade
    rcases hvisit with ⟨-, -, -, hnil⟩ | ⟨v, gone, turn, hvisit, hcame, hleave, ⟨next, rfl, hrest⟩ | ⟨-, hnil⟩⟩
    · simp at hnil
    · have hleads : LeadsOn ex walk g x.pos w x.node v next x.left := ⟨hnode, henter, hvisit, hleave⟩
      obtain ⟨hcame', room', w', hfront, htrail, hloop, hpasses⟩ := ih hrest.symm (hturn h hleads)
      rw [visitsOf_cons hcame]
      refine ⟨by rw [List.map_cons, List.map_cons, hcame'], room', w', ?_, htrail, ?_, fun w'' h => ?_⟩
      · rwa [List.append_assoc, List.singleton_append] at hfront
      · rw [hleads.run_loop, hloop]
      · exact hleads.passes_loop (hpasses w'' h)
    · simp at hnil

/-- What every turn that leads on keeps is so of the world in which a node is entered. -/
theorem entered_of_trail {I : Position → World σ → Prop}
    (hturn : ∀ {pos w node v next left}, I pos w → LeadsOn ex walk g pos w node v next left → I next left)
    (hs : s ∈ trail ex walk g room pos w) (h : I pos w) :
    ∃ started w', I s.pos w' ∧ (enter ex g s.node s.pos.record).run w' = (.ok started, s.entered) := by
  generalize hmade : trail ex walk g room pos w = made at hs
  induction made generalizing room pos w with
  | nil => cases hs
  | cons first rest ih =>
    obtain ⟨room, rfl, rfl, hnode, started, henter, hvisit⟩ := trail_eq_cons hmade
    rcases List.mem_cons.mp hs with rfl | hs
    · exact ⟨started, w, h, henter⟩
    · rcases hvisit with ⟨-, -, -, rfl⟩ | ⟨v, gone, turn, hvisit, -, hleave, ⟨next, rfl, hrest⟩ | ⟨-, rfl⟩⟩
      · cases hs
      · exact ih (hturn h ⟨hnode, henter, hvisit, hleave⟩) hrest.symm hs
      · cases hs

end Turns

/-! ## Whole traversals -/

def Position.start (g : Graph) (start : FlowStart) (context : Context) (record : Option Record) : Position :=
  { progress := Progress.start g.name context start.last, node := start.node, prior := start.prior, record }

def stages (ex : Executor σ) (walk : BranchWalk σ) (g : Graph) (start : FlowStart) (context : Context)
    (record : Option Record) (w : World σ) : List (Stage σ) :=
  trail ex walk g ex.config.maxNodeVisits (Position.start g start context record)
    ((setPhase ex record .pending none).run w).2

theorem course_of_traverse (ex : Executor σ) (walk : BranchWalk σ) (g : Graph) (start : FlowStart) (context : Context)
    (record : Option Record) (w : World σ) :
    Course ex g ex.config.maxNodeVisits (Position.start g start context record)
      (ex.stages walk g start context record w) ((ex.traverse walk g start context record).run w).1
      ((ex.traverse walk g start context record).run w).2 := by
  obtain ⟨live, h⟩ := run_setPhase ex record .pending none w
  simp only [stages, traverse, Act.run_bind_ok h, h]
  exact course_of_loop ex walk g _ _ _

end Switchyard.Executor
