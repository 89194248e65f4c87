import Switchyard.Proofs.Engine.Attempt
import Switchyard.Proofs.Engine.Steady
import Switchyard.Proofs.History.Guarded

/-
  Switchyard.Proofs.History.Faultless — runs whose calls to the store reach it.

  An instance is opened if its latest record allows it and the two calls that this takes
  reach the store (`opened_of_resolve`). Where all calls do, nothing stands between an
  attempt and the end its graph comes to: no checkpoint is refused (`not_refused`), and
  what the traversal came to is sealed and is the latest record read from then on
  (`run_closing`).
-/

namespace Switchyard

variable {σ : Type} {holds : List Hold} {faults : Method → Nat → Option StoreError}

def noFaults : Method → Nat → Option StoreError := fun _ _ => none

def Repository.Reaches (r : Repository) (m : Method) : Prop := r.faults m (r.counts.next m).1 = none

theorem Repository.reaches_of_noFaults {r : Repository} (h : r.faults = noFaults) (m : Method) : r.Reaches m := by
  rw [Reaches, h]
  rfl

/-! ## Single steps -/

theorem run_now (w : World σ) : ∃ t w', (Act.now : Act σ Instant).run w = (.ok t, w') ∧ w'.core = w.core ∧
    w'.repository = w.repository :=
  ⟨_, _, rfl, rfl, rfl⟩

theorem run_freshId (w : World σ) :
    ∃ w', (Act.freshId : Act σ ExecutionId).run w = (.ok (ExecutionId.numbered w.core.millis w.core.issued), w') ∧
      w'.core = { w.core with issued := w.core.issued + 1 } ∧ w'.repository = w.repository :=
  ⟨_, rfl, rfl, rfl⟩

theorem run_loadLatest {w : World σ} (hw : w.repository.Reaches .loadLatest) (id : InstanceId) :
    ∃ w', (Act.loadLatest id).run w = (.ok (w.repository.store.latest? id), w') ∧ w'.core = w.core ∧
      (w.repository.Reaches .append → w'.repository.Reaches .append) := by
  rw [Repository.Reaches] at hw
  simp only [Act.loadLatest, Act.call, Act.run_update, Repository.loadLatest, Repository.call, hw]
  exact ⟨_, rfl, rfl, fun h => h⟩

theorem run_append {w : World σ} (hw : w.repository.Reaches .append) {r : Record} {s' : Store}
    (happend : w.repository.store.append r = .ok s') :
    ∃ w', (Act.append r).run w = (.ok (.ok ()), w') ∧ w'.core = { w.core with store := s' } := by
  rw [Repository.Reaches] at hw
  simp only [Act.append, Act.call, Act.run_bind, Act.run_update, Repository.append, Repository.call, hw, happend]
  exact ⟨_, rfl, rfl⟩

theorem run_node {w : World σ} (hw : w.repository.Reaches .append) {r : Record} {s' : Store}
    (happend : w.repository.store.append r = .ok s') :
    ∃ w', (Checkpoint.node r).run w = (.ok (.ok ()), w') := by
  obtain ⟨w₁, hrun, -⟩ := run_append hw happend
  simp only [Checkpoint.node, Checkpoint.persist, Act.run_bind, hrun]
  exact ⟨_, rfl⟩

theorem run_sealed {w : World σ} (hw : w.repository.Reaches .append) {r : Record} {s' : Store}
    (happend : w.repository.store.append r = .ok s') :
    ∃ w', (Checkpoint.sealed r).run w = (.ok (.ok ()), w') ∧ w'.core = { w.core with store := s' } := by
  obtain ⟨w₁, hrun, hcore⟩ := run_append hw happend
  simp only [Checkpoint.sealed, Checkpoint.persist, Act.run_bind, hrun]
  exact ⟨_, rfl, hcore⟩

/-- A checkpoint that is not stored leaves the core alone. -/
theorem core_of_not_stored {w w' : World σ} {r : Record} {x : Except Halt (Except CheckpointError Unit)}
    (hrun : (Checkpoint.node r).run w = (x, w')) (hx : x ≠ .ok (.ok ())) : w'.core = w.core := by
  have hmeets : (Checkpoint.node r).Meets (fun _ => True)
      (fun x w' => x ≠ .ok (.ok ()) → w'.core = w.core) w :=
    meets_stored (fun _ => rfl) (fun w₁ hcore => ⟨trivial, fun _ _ _ => hcore⟩)
      (fun s' w₁ _ _ => ⟨trivial, fun hne => absurd rfl hne⟩)
  have hend := hmeets.run
  rw [hrun] at hend
  exact hend hx

/-! ## Opening -/

namespace Runner

variable {d : Definition} {parameters : Parameters}

theorem begin?_of_resolve (parameters : Parameters) {w : World σ} (hw : On (Guarded faults holds) w)
    (hloads : w.repository.Reaches .loadLatest) (hopens : w.repository.Reaches .append)
    (hids : w.clock.issued < ExecutionId.room) {id : InstanceId} {latest : Option Record}
    (hlatest : w.repository.store.latest? id = .ok latest)
    {point : StartPoint} (hpoint : StartPoint.resolve latest d.graph d.restartable = .ok point) :
    ∃ start record w', (begin? d id parameters).run w = (.ok (.ok (start, record)), w') := by
  obtain ⟨w₁, hload, hcore₁, hopens₁⟩ := run_loadLatest hloads id
  rw [hlatest] at hload
  obtain ⟨w₂, hfresh, hcore₂, hrepository₂⟩ := run_freshId w₁
  obtain ⟨now, w₃, hnow, hcore₃, hrepository₃⟩ := run_now w₂
  have hcore : w₃.core = { w.core with issued := w.core.issued + 1 } := by rw [hcore₃, hcore₂, hcore₁]
  obtain ⟨hsound, -⟩ := hw.sound (Nat.le_of_lt hids)
  have hnext : NextAfter latest point.attempt := nextAfter_of_resolve hpoint
  obtain ⟨s', happend, -⟩ := append_next hsound hids hlatest (r := Record.start
    (ExecutionId.numbered w.core.millis w.core.issued) now id d.name point.attempt parameters point.context) hnext rfl
  have hopens₃ : w₃.repository.Reaches .append := by
    rw [hrepository₃, hrepository₂]
    exact hopens₁ hopens
  rw [begin?, Act.run_bind_ok hload]
  simp only [hpoint]
  rw [Act.run_bind_ok hfresh, Act.run_bind_ok hnow, hcore₁]
  obtain ⟨w₄, hopen, -⟩ := run_append hopens₃ (show w₃.core.store.append _ = .ok s' by rw [hcore]; exact happend)
  simp only [Checkpoint.openAttempt, Checkpoint.persist, Act.run_bind, hopen]
  exact ⟨_, _, _, rfl⟩

/-- A claim that is taken is held from then on. -/
theorem guarded_of_claim {w claimed : World σ} {id : InstanceId} {t : Token} (hw : On (Guarded faults []) w)
    (h : (claim? id).run w = (.ok (some t), claimed)) :
    On (Guarded faults []) claimed ∧ claimed.running.get? id.text = some t := by
  obtain ⟨hfree, rfl, rfl⟩ := claim?_eq_some h
  obtain ⟨-, hclaimed⟩ := Guarded.claim (t := w.tokens) hw hfree
  exact ⟨hclaimed, Dict.get?_insert_self _ _ _⟩

/-- What an attempt opened with is stored last of its instance. -/
theorem guarded_of_opened {w : World σ} (hw : On (Guarded faults []) w) {o : Opened σ}
    (ho : opened? d parameters w = some o) :
    On (Guarded faults [.ofRecord (InstanceId.derive d.name parameters) o.token o.record]) o.world := by
  obtain ⟨claimed, begun, hclaim, hbegin, hworld⟩ := opened?_eq_some ho
  obtain ⟨hclaimed, htoken⟩ := guarded_of_claim hw hclaim
  have hmeets := (meets_begin? hclaimed d parameters htoken (by simp)).run
  rw [hbegin] at hmeets
  obtain ⟨-, -, hheld⟩ := hmeets.2 o.start o.record rfl
  rw [hworld]
  exact hheld

/-- An instance that is not claimed is opened if its latest record allows it. -/
theorem opened_of_resolve {w : World σ} (hw : On (Guarded faults []) w)
    (hloads : w.repository.Reaches .loadLatest) (hopens : w.repository.Reaches .append)
    (hids : w.clock.issued < ExecutionId.room)
    (hfree : w.running.contains (InstanceId.derive d.name parameters).text = false) {latest : Option Record}
    (hlatest : w.repository.store.latest? (InstanceId.derive d.name parameters) = .ok latest) {point : StartPoint}
    (hpoint : StartPoint.resolve latest d.graph d.restartable = .ok point) :
    ∃ o, opened? d parameters w = some o ∧ o.start = point.start ∧
      (∃ fresh now, o.record =
        Record.start fresh now (InstanceId.derive d.name parameters) d.name point.attempt parameters point.context) ∧
      On (Guarded faults [.ofRecord (InstanceId.derive d.name parameters) o.token o.record]) o.world := by
  have hclaim : (claim? (InstanceId.derive d.name parameters)).run w = (.ok (some w.tokens),
      { w with
        tokens := w.tokens + 1
        running := w.running.insert (InstanceId.derive d.name parameters).text w.tokens }) := by
    simp [claim?, hfree]
  obtain ⟨hclaimed, -⟩ := guarded_of_claim hw hclaim
  obtain ⟨start, record, begun, hbegin⟩ := begin?_of_resolve parameters hclaimed hloads hopens hids hlatest hpoint
  obtain ⟨o, ho⟩ : ∃ o, opened? d parameters w = some o := by
    simp only [opened?, hclaim, hbegin]
    exact ⟨_, rfl⟩
  obtain ⟨latest', point', fresh, now, hlatest', hpoint', hstart, hrecord⟩ := start_of_opened ho
  cases hlatest.symm.trans hlatest'
  cases hpoint.symm.trans hpoint'
  exact ⟨o, ho, hstart, ⟨fresh, now, hrecord⟩, guarded_of_opened hw ho⟩

end Runner

/-! ## Checkpoints and the seal -/

/-- No checkpoint of an attempt under way is refused. -/
theorem not_refused {w : World σ} {id : InstanceId} {t : Token} {line : Line}
    (hw : On (Guarded noFaults (.ofLine id t line :: holds)) w) (hids : w.clock.issued ≤ ExecutionId.room)
    (hline : line.owner = id.text) : ¬Executor.Refused (fun rec => Line.ofRecord rec = line) w := by
  rintro ⟨rec, w₀, x, rfl, hrun, hx⟩
  have hcore := core_of_not_stored hrun hx
  obtain ⟨hsound, hstored⟩ := hw.sound hids
  obtain rfl : rec.instanceId = id := InstanceId.eq_iff.mpr hline
  obtain ⟨old, hold, hline⟩ := hstored _ List.mem_cons_self
  obtain ⟨pre, hentries⟩ := List.getLast?_eq_some_iff.mp hold
  obtain ⟨s', happend, -⟩ := hsound.append_again (r := rec) hentries (by rw [hline]; exact ⟨rfl, rfl, rfl⟩)
  have hfaults : w.core.faults = noFaults := hw.faults
  rw [hcore] at happend hfaults
  obtain ⟨w', hstored⟩ := run_node (Repository.reaches_of_noFaults hfaults _) happend
  cases hrun.symm.trans hstored
  exact hx rfl

namespace Executor

variable {ex : Executor σ} {g : Graph} {start : FlowStart} {first : Record}

theorem keeps_sealed_issued (n : Nat) (r : Record) :
    (Checkpoint.sealed r : Act σ (Except CheckpointError Unit)).Keeps (On fun c => c.issued = n) := by
  intro w hw
  refine meets_stored (fun _ => rfl) (fun w' hcore => ?_) (fun s' w' _ hcore => ?_)
  · have hw' : On (fun c => c.issued = n) w' := by rwa [On, hcore]
    exact ⟨hw', fun _ _ => hw'⟩
  · have hw' : On (fun c => c.issued = n) w' := by rw [On, hcore]; exact hw
    exact ⟨hw', hw'⟩

/-- Sealing an attempt gives out no identifiers. -/
theorem issued_execute (w : World σ) : ((ex.execute g start first).run w).2.clock.issued =
    ((ex.traverseGraph g start first.context (some first)).run w).2.clock.issued := by
  rw [execute, Act.run_bind]
  cases (ex.traverseGraph g start first.context (some first)).run w with
  | mk walked w' =>
    rcases walked with halt | ⟨e | t, kept⟩
    · rfl
    · rfl
    · refine Act.Keeps.run (J := On fun c => c.issued = w'.clock.issued) ?_ rfl
      refine .bind (Manner.now (M := keeping _)) fun now => .bind (keeps_sealed_issued _ _) fun x => ?_
      cases x <;> exact .pure

/-- The seal of an attempt can be stored, and is what is kept last of its instance then. -/
theorem append_closed {token : Token} {c : Core}
    (hc : Guarded faults (.ofLine first.instanceId token (Line.ofRecord first) :: holds) c)
    (hids : c.issued ≤ ExecutionId.room) (t : Traversal) (now : Instant) :
    ∃ s', c.store.append (first.closed t now) = .ok s' ∧
      ∃ x ∈ (s'.entries first.instanceId).getLast?, x.Of (first.closed t now) := by
  obtain ⟨hsound, hstored⟩ := hc.sound hids
  obtain ⟨x, hx, hline⟩ := hstored _ List.mem_cons_self
  obtain ⟨pre, hentries⟩ := List.getLast?_eq_some_iff.mp hx
  obtain ⟨s', happend, -, hentries'⟩ := hsound.append_again (r := first.closed t now) hentries
    (by rw [hline]; exact ⟨rfl, rfl, rfl⟩)
  refine ⟨s', happend, x.revised (first.closed t now), ?_, Entry.revised_of (by rw [hline]; rfl)⟩
  rw [(hentries' first.instanceId).trans (if_pos rfl), List.getLast?_concat]
  rfl

/-- What a traversal came to is sealed and is the latest record from then on. -/
theorem run_closing {w : World σ} {token : Token}
    (hw : On (Guarded noFaults (.ofLine first.instanceId token (Line.ofRecord first) :: holds)) w)
    (hids : w.clock.issued ≤ ExecutionId.room) (t : Traversal) :
    ∃ now w', (closing first t).run w = (.ok (.ok t.outcome, first.closed t now), w') ∧
      w'.repository.store.latest? first.instanceId = (w'.repository.store.readBack (first.closed t now)).map some := by
  obtain ⟨now, w₁, hnow, hcore, -⟩ := run_now w
  obtain ⟨s', happend, x, hlast, hof⟩ := append_closed hw hids t now
  have hfaults : w.core.faults = noFaults := hw.faults
  rw [← hcore] at hfaults happend
  obtain ⟨w₂, hsealed, hcore₂⟩ := run_sealed (Repository.reaches_of_noFaults hfaults _) happend
  refine ⟨now, w₂, by simp only [closing, Act.run_bind_ok hnow, Act.run_bind_ok hsealed, Act.run_pure], ?_⟩
  have hstore : w₂.repository.store = s' := congrArg Core.store hcore₂
  rw [hstore]
  exact Store.latest?_of_getLast? hlast hof

end Executor

end Switchyard
