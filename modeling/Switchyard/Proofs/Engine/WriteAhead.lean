import Switchyard.Proofs.Engine.Views
import Switchyard.Proofs.History.Faultless
import Switchyard.Proofs.History.Reached

/-
  Switchyard.Proofs.Engine.WriteAhead — whatever an attempt finished is stored before it
  starts anything else.

  How far an attempt is, is told four times: by its traversal's progress, by the record in
  hand, by the history and by the live view. `Abreast` says that all of them tell of the
  same visits. A turn that leads on keeps them abreast, whatever its unit asks for and its
  node launches (`abreast_of_leadsOn`). A turn whose record could not be stored leads
  nowhere and leaves the history as it was (`loop_of_not_ok`).

  - `writes_ahead`: in front of every visit the history has exactly the visits before it,
    until that visit is stored itself; if that fails, it stays so.
-/

namespace Switchyard

variable {σ : Type}

/-- A record of an attempt under way, with exactly these visits in it. -/
structure Record.Reflects (r first : Record) (vs : Visits) : Prop where
  attempt : r.Continues first
  running : r.finalStatus = none
  completed : r.completed = vs.completed
  lastNode : r.lastNode = vs.last?.map (·.node)
  lastExit : r.lastExit = vs.last?.map (·.exit)
  context : r.context = vs.written first.context
  branches : r.branches = vs.splits Dict.empty

/-- The live view of a record whose attempt is under way and was not asked to stop. -/
def Record.viewAt (r : Record) (phase : Phase) (node : Option String) : Snapshot :=
  { instanceId := r.instanceId
    job := r.job
    attempt := r.attempt
    phase
    currentNode := node
    completed := r.completed
    lastExit := r.lastExit
    status := .started }

/-- The latest attempt stored of an instance is kept as this record, and read from it. -/
structure Store.Latest (s : Store) (id : InstanceId) (r : Record) : Prop where
  kept : ∃ x ∈ (s.entries id).getLast?, x.Of r
  read : s.latest? id = (s.readBack r).map some

namespace Record

variable {r first : Record} {vs : Visits}

theorem Reflects.start {id : ExecutionId} {started : Instant} {instanceId : InstanceId} {job : String} {attempt : Nat}
    {parameters : Parameters} {context : Context} :
    (Record.start id started instanceId job attempt parameters context).Reflects
      (Record.start id started instanceId job attempt parameters context) [] :=
  ⟨.refl _, rfl, rfl, rfl, rfl, rfl, rfl⟩

theorem Reflects.noted (h : r.Reflects first vs) (flow : String) (last : Option NodeOutcome) (id : String) (v : Visit) :
    (Executor.noted r (((Progress.start flow first.context last).after vs).apply id v) ⟨id, v.status, v.exit⟩).Reflects
      first (vs ++ [(id, v)]) := by
  have hopen : r.isSealed = false := by rw [isSealed, h.running]; rfl
  have hlast : (vs ++ [(id, v)]).last? = some ⟨id, v.status, v.exit⟩ := by
    rw [Visits.last?, List.getLast?_concat]
    rfl
  rw [← Progress.after_concat, Progress.after_eq]
  refine ⟨h.attempt.noted _ _, ?_, ?_, ?_, ?_, rfl, rfl⟩
  · simp only [Executor.noted, note, hopen, Bool.false_eq_true, if_false]
    exact h.running
  · simp only [Executor.noted, note, hopen, Bool.false_eq_true, if_false, Visits.completed_append, ← h.completed]
    by_cases hfailed : v.status = .failed <;> simp [Visits.completed, hfailed]
  · simp only [Executor.noted, note, hopen, Bool.false_eq_true, if_false, hlast, Option.map_some]
  · simp only [Executor.noted, note, hopen, Bool.false_eq_true, if_false, hlast, Option.map_some]

theorem viewAt_noted (r : Record) (p : Progress) (o : NodeOutcome) (phase : Phase) (node : Option String) :
    { r.viewAt phase node with
      completed := (Executor.noted r p o).completed
      lastExit := (Executor.noted r p o).lastExit } = (Executor.noted r p o).viewAt phase node := by
  unfold Executor.noted note
  split <;> rfl

end Record

/-! ## Storing a record after a node -/

section Node

variable {w : World σ} {r : Record}

theorem Repository.append_of_ok {h : Repository} (hok : (h.append r).1 = .ok ()) :
    h.store.append r = .ok (h.append r).2.store ∧ (h.append r).2.faults = h.faults := by
  unfold Repository.append Repository.call at *
  cases hfault : h.faults .append (h.counts.next .append).1 with
  | some e => simp [hfault] at hok
  | none =>
    cases happend : h.store.append r with
    | ok s => simp [hfault, happend]
    | error e => simp [hfault, happend] at hok

theorem Repository.store_of_not_ok {h : Repository} (hnot : (h.append r).1 ≠ .ok ()) :
    (h.append r).2.store = h.store := by
  unfold Repository.append Repository.call at *
  cases hfault : h.faults .append (h.counts.next .append).1 with
  | some e => simp [hfault]
  | none =>
    cases happend : h.store.append r with
    | ok s => simp [hfault, happend] at hnot
    | error e => simp [hfault, happend]

theorem run_node_of_ok (hok : (w.repository.append r).1 = .ok ()) :
    (Checkpoint.node r).run w = (.ok (.ok ()), { w with
      repository := (w.repository.append r).2
      live := w.live.modify r.instanceId.text fun s =>
        { s with completed := r.completed, lastExit := r.lastExit } }) := by
  simp only [Checkpoint.node, Checkpoint.persist, Act.append, Act.call, Act.run_bind, Act.run_update]
  generalize w.repository.append r = appended at hok
  obtain ⟨x, repository⟩ := appended
  subst hok
  rfl

theorem run_node_of_not_ok (hnot : (w.repository.append r).1 ≠ .ok ()) :
    ∃ x w', (Checkpoint.node r).run w = (x, w') ∧ x ≠ .ok (.ok ()) ∧ w'.repository.store = w.repository.store := by
  have hstore := Repository.store_of_not_ok hnot
  simp only [Checkpoint.node, Checkpoint.persist, Act.append, Act.call, Act.run_bind, Act.run_update]
  generalize w.repository.append r = appended at hnot hstore
  obtain ⟨(e | _) | u, repository⟩ := appended
  · exact ⟨_, _, rfl, by rintro ⟨⟩, hstore⟩
  · exact ⟨_, _, rfl, by rintro ⟨⟩, hstore⟩
  · exact absurd rfl hnot

end Node

/-! ## An attempt and its record -/

namespace Executor

variable {ex : Executor σ} {g : Graph} {faults : Method → Nat → Option StoreError} {r : Record} {phase : Phase}
  {current : Option String} {w w' : World σ}

/-- The history and the live view of an attempt are those of this record. -/
structure Recorded (ex : Executor σ) (faults : Method → Nat → Option StoreError) (r : Record) (phase : Phase)
    (current : Option String) (w : World σ) : Prop where
  guarded : On (Guarded faults [.ofRecord ex.scope.instanceId ex.scope.token r]) w
  watched : Watched ex.scope.instanceId ex.scope.token (some (r.viewAt phase current)) w

namespace Recorded

theorem latest (h : ex.Recorded faults r phase current w) (hids : w.clock.issued ≤ ExecutionId.room) :
    w.repository.store.Latest ex.scope.instanceId r := by
  obtain ⟨-, hstored⟩ := h.guarded.sound hids
  obtain ⟨x, hx, hof⟩ := hstored _ List.mem_cons_self
  exact ⟨⟨x, hx, hof⟩, Store.latest?_of_getLast? hx hof⟩

theorem live (h : ex.Recorded faults r phase current w) :
    ∃ status, w.live.get? ex.scope.instanceId.text = some { r.viewAt phase current with status } := by
  obtain ⟨view, hview, hshown⟩ := Option.map_eq_some_iff.mp h.watched.shown
  refine ⟨view.status, hview.trans ?_⟩
  rw [← hshown]
  rfl

theorem of_eq (h : ex.Recorded faults r phase current w) (hcore : w'.core = w.core) (hlive : w'.live = w.live) :
    ex.Recorded faults r phase current w' := by
  refine ⟨?_, h.watched.of_eq (congrArg Core.running hcore) hlive⟩
  rw [On, hcore]
  exact h.guarded

theorem setPhase (h : ex.Recorded faults r phase current w) (phase' : Phase) (node : Option String) :
    ex.Recorded faults r phase' (node <|> current)
      ((Checkpoint.setPhase ex.scope.instanceId phase' node).run w).2 :=
  ⟨h.guarded, h.watched.modify (f := fun s => { s with phase := phase', currentNode := node <|> s.currentNode })
    fun _ => rfl⟩

theorem enter (h : ex.Recorded faults r phase current w) {node : Node Graph} {r' : Record} {started : Nat}
    (henter : (ex.enter g node (some r')).run w = (.ok started, w')) :
    ex.Recorded faults r .runningNode (some node.id) w' := by
  cases henter
  exact (h.setPhase .runningNode (some node.id)).of_eq rfl rfl

/-- A visit that is stored is in the history and in the live view. -/
theorem node (h : ex.Recorded faults r phase current w) (hid : r.instanceId = ex.scope.instanceId) {p : Progress}
    {o : NodeOutcome} (hok : (w.repository.append (noted r p o)).1 = .ok ()) :
    ex.Recorded faults (noted r p o) phase current ((Checkpoint.node (noted r p o)).run w).2 := by
  obtain ⟨happend, hfaults⟩ := Repository.append_of_ok hok
  have hline : Line.ofRecord (noted r p o) = Line.ofRecord r := Line.ofRecord_note r o
  have hid' : (noted r p o).instanceId = ex.scope.instanceId := (instanceId_noted r p o).trans hid
  have hguarded := Guarded.ofLine h.guarded
  rw [← hline] at hguarded
  have hstored := hguarded.checkpoint (by simp) hid' happend
  have hshown := h.watched.modify (f := fun s =>
    { s with completed := (noted r p o).completed, lastExit := (noted r p o).lastExit }) fun _ => rfl
  rw [Record.viewAt_noted] at hshown
  rw [run_node_of_ok hok, hid']
  refine ⟨?_, hshown.claimed, hshown.shown⟩
  rw [On, World.core]
  simp only [hfaults]
  exact hstored

end Recorded

/-- Whatever the units of an attempt ask for and its nodes launch leaves alone what is
    stored and shown of it. -/
structure Sheltered (ex : Executor σ) (faults : Method → Nat → Option StoreError) : Prop where
  keeps : ∀ r, ex.Closed (keeping (Guarded faults [.ofRecord ex.scope.instanceId ex.scope.token r]))
  watches : ∀ view, ex.Closed (watching ex.scope.instanceId ex.scope.token view)

theorem Recorded.visit (hex : ex.Sheltered faults) (h : ex.Recorded faults r phase current w) {levels : Nat}
    {node : Node Graph} {p : Progress} {prior : Option (List FlowOutcome)}
    (hpasses : (ex.visit (ex.walkBranch levels) g node p prior).Passes w w') : ex.Recorded faults r phase current w' := by
  have hkeeps : (ex.visit (ex.walkBranch levels) g node p prior).Keeps
      (On (Guarded faults [.ofRecord ex.scope.instanceId ex.scope.token r])) :=
    has_visit (hex.keeps r) (has_walkBranch (hex.keeps r) levels) g node p prior
  have hwatches : (ex.visit (ex.walkBranch levels) g node p prior).Keeps
      (Watched ex.scope.instanceId ex.scope.token (some (r.viewAt phase current))) :=
    has_visit (hex.watches _) (has_walkBranch (hex.watches _) levels) g node p prior
  exact ⟨hkeeps.passes h.guarded hpasses, hwatches.passes h.watched hpasses⟩

/-! ## The end of a turn -/

section Turn

variable {node : Node Graph} {pos next : Position} {started : Nat} {v : Visit} {left : World σ}

/-- A turn whose record could not be stored leads nowhere, and leaves the history as it
    is. -/
theorem leave_of_not_ok (ex : Executor σ) (g : Graph) (started : Nat) (hkept : r ∈ pos.kept node v)
    (hnot : (w.repository.append r).1 ≠ .ok ()) :
    ∃ turn left, (ex.leave g node pos started v).run w = (turn, left) ∧ left.repository.store = w.repository.store ∧
      (∀ next, turn ≠ .ok (.onward next)) ∧ ∀ t kept, turn ≠ .ok (.done (.ok t, kept)) := by
  obtain ⟨old, hrec, rfl⟩ := Option.map_eq_some_iff.mp hkept
  simp only [leave, keep, hrec, Act.waited, Act.publish, Act.run_bind, Act.run_find, Act.run_change]
  generalize w.bus.publish _ = bus
  obtain ⟨x, w', hrun, hx, hstore⟩ := run_node_of_not_ok (w := { w with bus }) hnot
  rw [show noted old (pos.progress.apply node.id v) _ = noted old (pos.folded node v) _ from rfl, hrun]
  rcases x with halt | e | u
  · exact ⟨.error halt, w', rfl, hstore, by rintro _ ⟨⟩, by rintro _ _ ⟨⟩⟩
  · exact ⟨.ok (.done (.error (.checkpoint e), _)), w', rfl, hstore, by rintro _ ⟨⟩, by rintro _ _ ⟨⟩⟩
  · exact absurd rfl hx

/-- A turn leads on only once its record is stored. -/
theorem leave_eq_onward (hrec : pos.record = some r)
    (h : (ex.leave g node pos started v).run w = (.ok (.onward next), left)) :
    (w.repository.append (noted r (pos.folded node v) ⟨node.id, v.status, v.exit⟩)).1 = .ok () ∧
      ∃ bus target, next = pos.onward node v target ∧ left = ((Checkpoint.setPhase ex.scope.instanceId .awaitingMatch
        none).run ((Checkpoint.node (noted r (pos.folded node v) ⟨node.id, v.status, v.exit⟩)).run { w with bus }).2).2 := by
  by_cases hok : (w.repository.append (noted r (pos.folded node v) ⟨node.id, v.status, v.exit⟩)).1 = .ok ()
  · refine ⟨hok, ?_⟩
    simp only [leave, keep, hrec, Act.waited, Act.publish, Act.run_bind, Act.run_find, Act.run_change] at h
    generalize w.bus.publish _ = bus at h
    refine ⟨bus, ?_⟩
    obtain ⟨stored, hrun⟩ : ∃ stored, (Checkpoint.node (noted r (pos.folded node v) ⟨node.id, v.status, v.exit⟩)).run
        { w with bus } = (.ok (.ok ()), stored) := ⟨_, run_node_of_ok (w := { w with bus }) hok⟩
    rw [show noted r (pos.progress.apply node.id v) _ = noted r (pos.folded node v) _ from rfl, hrun] at h
    rw [hrun]
    dsimp only [Act.run_pure] at h
    split at h
    · obtain ⟨walked, w₁, -, h⟩ := Act.run_bind_eq_ok h
      cases h
    · obtain ⟨u, w₁, hphase, h⟩ := Act.run_bind_eq_ok h
      obtain ⟨stopping, w₂, hstopping, h⟩ := Act.run_bind_eq_ok h
      cases hstopping
      split at h
      · obtain ⟨walked, w₂, -, h⟩ := Act.run_bind_eq_ok h
        cases h
      next target _ =>
        cases h
        exact ⟨target, by simp only [Position.onward, Position.kept, hrec, Option.map_some, Position.folded],
          (congrArg Prod.snd hphase).symm⟩
  · have hkept : noted r (pos.folded node v) ⟨node.id, v.status, v.exit⟩ ∈ pos.kept node v := by
      rw [Position.kept, hrec]
      rfl
    obtain ⟨turn, left', hrun, -, hnext, -⟩ := leave_of_not_ok ex g started hkept hok
    cases h.symm.trans hrun
    exact absurd rfl (hnext next)

/-- A visit whose record could not be stored is the last one, and its traversal comes to
    no outcome. -/
theorem loop_of_not_ok {walk : BranchWalk σ} {room : Nat} {s : Stage σ} {after : List (Stage σ)} {gone : World σ}
    (htrail : trail ex walk g room s.pos w = s :: after)
    (hgone : (ex.visit walk g s.node s.pos.progress s.pos.prior).run s.entered = (.ok v, gone))
    (hkept : r ∈ s.pos.kept s.node v) (hnot : (gone.repository.append r).1 ≠ .ok ()) :
    after = [] ∧ ∃ x left, (loop ex walk g room s.pos).run w = (x, left) ∧
      left.repository.store = gone.repository.store ∧ ∀ t kept, x ≠ .ok (.ok t, kept) := by
  obtain ⟨room, rfl, -, hnode, started, henter, hvisit⟩ := trail_eq_cons htrail
  rcases hvisit with ⟨e, hvisit, -⟩ | ⟨v, gone, turn, hvisit, -, hleave, hturn⟩
  · cases hgone.symm.trans hvisit
  · cases hgone.symm.trans hvisit
    obtain ⟨turn, left, hleave', hstore, hnext, hdone⟩ := leave_of_not_ok ex g started hkept hnot
    cases hleave'.symm.trans hleave
    rcases hturn with ⟨next, rfl, -⟩ | ⟨-, rfl⟩
    · exact absurd rfl (hnext next)
    refine ⟨rfl, ?_⟩
    simp only [loop_succ, hnode, Act.run_bind_ok henter, Act.run_bind_ok hgone]
    rcases turn with halt | walked | next
    · exact ⟨_, _, Act.run_bind_error hleave, hstore, by rintro _ _ ⟨⟩⟩
    · refine ⟨.ok walked, _, Act.run_bind_ok hleave, hstore, ?_⟩
      rintro t kept ⟨⟩
      exact hdone t kept rfl
    · exact absurd rfl (hnext next)

end Turn

/-! ## Turn by turn -/

def Stage.act (s : Stage σ) (ex : Executor σ) (g : Graph) : Act σ Visit :=
  ex.visit (ex.walkBranch g.nesting) g s.node s.pos.progress s.pos.prior

/-- Progress, record in hand, history and live view all tell of these visits. -/
structure Abreast (ex : Executor σ) (faults : Method → Nat → Option StoreError) (first : Record) (vs : Visits)
    (pos : Position) (w : World σ) : Prop where
  progress : ∃ flow last, pos.progress = (Progress.start flow first.context last).after vs
  record : ∃ r phase current, pos.record = some r ∧ r.Reflects first vs ∧ ex.Recorded faults r phase current w

theorem abreast_of_leadsOn {first : Record} (hex : ex.Sheltered faults) (hfirst : first.instanceId = ex.scope.instanceId)
    {levels : Nat} {vs : Visits} {pos next : Position} {node : Node Graph} {v : Visit} {left : World σ}
    (h : ex.Abreast faults first vs pos w) (hleads : LeadsOn ex (ex.walkBranch levels) g pos w node v next left) :
    ex.Abreast faults first (vs ++ [(node.id, v)]) next left := by
  obtain ⟨⟨flow, last, hprogress⟩, r, phase, current, hrec, hreflects, hrecorded⟩ := h
  obtain @⟨started, entered, gone, -, henter, hvisit, hleave⟩ := hleads
  have hid : r.instanceId = ex.scope.instanceId := (congrArg Record.instanceId hreflects.attempt).trans hfirst
  rw [hrec] at henter
  have hgone := (hrecorded.enter henter).visit hex (Act.passes_of_run hvisit)
  obtain ⟨hok, bus, target, rfl, rfl⟩ := leave_eq_onward hrec hleave
  have hstored := Recorded.node (w := { gone with bus }) (hgone.of_eq rfl rfl) hid hok
  refine ⟨⟨flow, last, ?_⟩, _, _, _, ?_, ?_, hstored.setPhase .awaitingMatch none⟩
  · rw [Progress.after_concat, ← hprogress]
    rfl
  · simp only [Position.onward, Position.kept, hrec, Option.map_some]
  · have hnoted := hreflects.noted flow last node.id v
    rwa [← hprogress] at hnoted

/-- A traversal that came to no outcome is where its attempt ends. -/
theorem run_execute_of_not_ok {start : FlowStart} {first : Record} {x : Except Halt Walked}
    (h : (ex.traverseGraph g start first.context (some first)).run w = (x, w')) (hx : ∀ t kept, x ≠ .ok (.ok t, kept)) :
    ((ex.execute g start first).run w).2 = w' := by
  rw [execute, Act.run_bind, h]
  rcases x with halt | ⟨e | t, kept⟩
  · rfl
  · rfl
  · exact absurd rfl (hx t kept)

end Executor

/-! ## Runs -/

namespace Runner

variable {d : Definition} {parameters : Parameters} {o : Opened σ} {w : World σ} {faults : Method → Nat → Option StoreError}

theorem sheltered (r : Runner σ) (levels : Nat) (record : Record) (depth : Nat) (t : Token) :
    (r.executor (r.run levels) record depth t).Sheltered faults :=
  ⟨fun _ => Switchyard.closed_executor (keeps_run r levels) record depth t, fun _ => closed_watching r levels record depth t⟩

theorem live_of_begin? {id : InstanceId} {start : FlowStart} {record : Record} {w' : World σ}
    (h : (begin? d id parameters).run w = (.ok (.ok (start, record)), w')) :
    w'.live.get? record.instanceId.text = some (Checkpoint.opened record) := by
  obtain ⟨latest, w₁, -, h⟩ := Act.run_bind_eq_ok h
  rcases latest with e | latest
  · cases h
  simp only at h
  split at h
  · unfold refuse at h
    split at h <;> cases h
  · obtain ⟨fresh, w₂, -, h⟩ := Act.run_bind_eq_ok h
    obtain ⟨now, w₃, -, h⟩ := Act.run_bind_eq_ok h
    obtain ⟨x, w₄, hopen, h⟩ := Act.run_bind_eq_ok h
    rcases x with e | u
    · cases h
    · cases h
      obtain ⟨y, w₅, -, hopen⟩ := Act.run_bind_eq_ok hopen
      rcases y with e | u
      · cases hopen
      · cases hopen
        exact Dict.get?_insert_self _ _ _

/-- The live view of an attempt begins with its record. -/
theorem live_of_opened (ho : opened? d parameters w = some o) :
    o.world.live.get? o.record.instanceId.text = some (Checkpoint.opened o.record) := by
  obtain ⟨claimed, begun, -, hbegin, hworld⟩ := opened?_eq_some ho
  have hlive := live_of_begin? hbegin
  rw [hworld]
  exact hlive

theorem recorded_of_opened (r : Runner σ) (inner : Run σ) (depth : Nat) (hw : On (Guarded faults []) w)
    (ho : opened? d parameters w = some o) :
    (r.executorOf inner depth o).Recorded faults o.record .pending none o.world := by
  obtain ⟨latest, point, fresh, now, -, -, -, hrecord⟩ := start_of_opened ho
  have hguarded := guarded_of_opened hw ho
  rw [← show o.record.instanceId = InstanceId.derive d.name parameters from congrArg Record.instanceId hrecord]
    at hguarded
  refine ⟨hguarded, hguarded.claimed _ List.mem_cons_self, ?_⟩
  refine (congrArg (Option.map Snapshot.shown) (live_of_opened ho)).trans ?_
  rw [hrecord]
  rfl

/-- Write-ahead: a run comes through the start of every visit of its attempt, and from there
    until the visit comes to an end the history has exactly the visits before it, all of
    which came to an end, and the live view tells of the same and of the node. If the
    record of the visit cannot be stored then, no other node is visited, and what the
    history has of the instance is the same when the run is over. -/
theorem writes_ahead (r : Runner σ) (levels depth : Nat) {job : String} (hreached : Reached w)
    (hjob : w.jobs.get? job = some d) (ho : opened? d parameters w = some o) {before after : List (Executor.Stage σ)}
    {s : Executor.Stage σ} (hvisits : r.visits (r.run levels) depth d o = before ++ s :: after) :
    (r.runOver (r.run levels) depth job parameters).Passes w s.entered ∧
      (Executor.visitsOf before).map (·.1) = before.map (·.node.id) ∧
      ∃ rec : Record, rec.Reflects o.record (Executor.visitsOf before) ∧
        (∀ w', (s.act (r.executorOf (r.run levels) depth o) d.graph).Passes s.entered w' →
          (w'.clock.issued ≤ ExecutionId.room →
            w'.repository.store.Latest (InstanceId.derive d.name parameters) rec) ∧
          ∃ status, w'.live.get? (InstanceId.derive d.name parameters).text =
            some { rec.viewAt .runningNode (some s.node.id) with status }) ∧
        ∀ v gone next, (s.act (r.executorOf (r.run levels) depth o) d.graph).run s.entered = (.ok v, gone) →
          next ∈ s.pos.kept s.node v → (gone.repository.append next).1 ≠ .ok () →
          after = [] ∧ (gone.clock.issued ≤ ExecutionId.room →
            ((r.runOver (r.run levels) depth job parameters).run w).2.repository.store.Latest
              (InstanceId.derive d.name parameters) rec) := by
  obtain ⟨latest, point, fresh, now, -, -, -, hrecord⟩ := start_of_opened ho
  have hid : o.record.instanceId = InstanceId.derive d.name parameters := congrArg Record.instanceId hrecord
  have hguarded : On (Guarded w.core.faults []) w :=
    ⟨rfl, by simp, fun hids => ⟨sound_of_reached hreached hids, by simp⟩⟩
  have hopened := r.recorded_of_opened (r.run levels) depth hguarded ho
  have hex : (r.executorOf (r.run levels) depth o).Sheltered w.core.faults := r.sheltered levels o.record depth o.token
  have hstart : o.record.Reflects o.record [] := by
    rw [hrecord]
    exact .start
  have habreast : (r.executorOf (r.run levels) depth o).Abreast w.core.faults o.record []
      (Executor.Position.start d.graph o.start o.record.context (some o.record))
      (((r.executorOf (r.run levels) depth o).setPhase (some o.record) .pending none).run o.world).2 :=
    ⟨⟨d.graph.name, o.start.last, rfl⟩, o.record, _, _, rfl, hstart, hopened.setPhase .pending none⟩
  obtain ⟨hcame, room, w₁, ⟨-, rec, phase, current, hrec, hreflects, hrecorded⟩, htrail, hloop, hpasses⟩ :=
    Executor.front_of_trail (I := (r.executorOf (r.run levels) depth o).Abreast w.core.faults o.record)
      (Executor.abreast_of_leadsOn hex rfl) hvisits habreast
  have hentered : (r.executorOf (r.run levels) depth o).Recorded w.core.faults rec .runningNode (some s.node.id)
      s.entered := by
    obtain ⟨-, -, -, -, started, henter, -⟩ := Executor.trail_eq_cons htrail
    rw [hrec] at henter
    exact hrecorded.enter henter
  refine ⟨?_, hcame, rec, hreflects, fun w' hduring => ?_, fun v gone next hgone hnext hnot => ?_⟩
  · exact r.passes_of_opened (r.run levels) depth hjob ho
      (.bind_right (Prod.ext rfl rfl) (hpasses _ (Executor.passes_entered htrail)))
  · have hrecorded' := hentered.visit hex hduring
    rw [← hid]
    exact ⟨hrecorded'.latest, hrecorded'.live⟩
  · obtain ⟨hlast, x, left, hrun, hstore, hx⟩ := Executor.loop_of_not_ok htrail hgone hnext hnot
    refine ⟨hlast, fun hids => ?_⟩
    have htraverse : ((r.executorOf (r.run levels) depth o).traverseGraph d.graph o.start o.record.context
        (some o.record)).run o.world = (x, left) := hloop.trans hrun
    obtain ⟨w₂, hover, hrepository, -⟩ := r.run_of_opened (r.run levels) depth hjob ho
    rw [hover, hrepository, Executor.run_execute_of_not_ok htraverse hx, hstore, ← hid]
    exact (hentered.visit hex (Act.passes_of_run hgone)).latest hids

end Runner

/-! ### A store that is lost on the way -/

namespace Outage

def units : Units Nat :=
  { step := fun _ => some fun _ calls =>
      .finish (calls + 1) (.result
        { status := .completed, exit := Exit.completed, updates := Dict.empty.insert "calls" (.int calls) })
    decider := fun _ => none }

def runner : Runner Nat := { config := {}, units }

def harvest : Definition :=
  { graph :=
      ⟨"harvest", "collect", [⟨"collect", .step "collect", [.goto "*" "publish"]⟩, ⟨"publish", .step "publish", []⟩]⟩ }

def world : World Nat :=
  { repository :=
      { store := .table Table.empty
        faults := fun m n => if m = .append ∧ 2 < n then some .connection else none }
    jobs := Dict.empty.insert "harvest" harvest
    bus := Bus.ofCapacity 4
    clock := { origin := Instant.ofSeconds 0 0 }
    memory := 0 }

def executor (o : Opened Nat) : Executor Nat := runner.executorOf (runner.run 0) 0 o

def visits (o : Opened Nat) : List (Executor.Stage Nat) := runner.visits (runner.run 0) 0 harvest o

def stored (o : Opened Nat) (s : Executor.Stage Nat) : Option (Nat × Nat × Bool) :=
  match (s.act (executor o) harvest.graph).run s.entered with
  | (.ok v, gone) => (s.pos.kept s.node v).map fun next =>
      (s.entered.clock.issued, gone.clock.issued,
        match (gone.repository.append next).1 with
        | .ok () => true
        | .error _ => false)
  | (.error _, _) => none

theorem store_is_lost :
    (Runner.opened? harvest Dict.empty world).map (fun o =>
      ((visits o).map (·.node.id), (Executor.visitsOf ((visits o).take 1)).completed)) =
        some (["collect", "publish"], ["collect"]) ∧
    (Runner.opened? harvest Dict.empty world).map (fun o => (visits o).map (stored o)) =
        some [some (1, 1, true), some (1, 1, false)] := by
  decide +kernel

theorem collect_is_kept : ∃ (o : Opened Nat) (s t : Executor.Stage Nat) (rec : Record),
    visits o = [s, t] ∧ t.node.id = "publish" ∧
      (runner.runOver (runner.run 0) 0 "harvest" Dict.empty).Passes world t.entered ∧
      rec.completed = ["collect"] ∧ rec.finalStatus = none ∧
      t.entered.repository.store.Latest (InstanceId.derive "harvest" Dict.empty) rec ∧
      ((runner.runOver (runner.run 0) 0 "harvest" Dict.empty).run world).2.repository.store.Latest
        (InstanceId.derive "harvest" Dict.empty) rec := by
  obtain ⟨hfound, hstored⟩ := store_is_lost
  obtain ⟨o, ho, hfound⟩ := Option.map_eq_some_iff.mp hfound
  obtain ⟨hnodes, hcompleted⟩ := Prod.mk.inj hfound
  rw [ho, Option.map_some, Option.some_inj] at hstored
  obtain ⟨s, t, hvisits⟩ : ∃ s t, visits o = [s] ++ t :: [] :=
    List.length_eq_two.mp (by simpa using congrArg List.length hnodes)
  rw [hvisits] at hnodes hcompleted hstored
  obtain ⟨-, hnodes⟩ := List.cons.inj hnodes
  obtain ⟨-, hstored⟩ := List.cons.inj hstored
  have hnode := (List.cons.inj hnodes).1
  have hlost := (List.cons.inj hstored).1
  obtain ⟨hpasses, -, rec, hreflects, hmoments, hend⟩ :=
    runner.writes_ahead 0 0 (.empty (Or.inr rfl)) (Dict.get?_insert_self _ _ _) ho hvisits
  unfold stored at hlost
  split at hlost
  next v gone hgone =>
    obtain ⟨next, hnext, hfound⟩ := Option.map_eq_some_iff.mp hlost
    obtain ⟨hentered, hfound⟩ := Prod.mk.inj hfound
    obtain ⟨hissued, hrefused⟩ := Prod.mk.inj hfound
    have hnot : (gone.repository.append next).1 ≠ .ok () := by
      intro hok
      rw [hok] at hrefused
      cases hrefused
    obtain ⟨hlatest, -⟩ := hmoments t.entered (.start _ _)
    obtain ⟨-, hover⟩ := hend v gone next hgone hnext hnot
    refine ⟨o, s, t, rec, hvisits, hnode, hpasses, hreflects.completed.trans hcompleted, hreflects.running, ?_, ?_⟩
    · exact hlatest (by rw [hentered]; decide)
    · exact hover (by rw [hissued]; decide)
  · cases hlost

end Outage

end Switchyard
