import Switchyard.Proofs.Engine.Claims
import Switchyard.Proofs.Engine.WriteAhead

/-
  Switchyard.Proofs.Engine.Refused — a run that is refused has no effect.

  A run may be refused at five points. At two of them it holds no claim yet: its job is not
  known, or its instance is claimed, maybe by the very attempt that nests the run. At the
  others it does, and gives it back: the latest record cannot be loaded, it does not allow
  another attempt, or that cannot be stored. All of them come before the attempt is open;
  from there on what goes wrong is a fault of its flow.

  - `Untouched`: history, claims, live views and all that units and listeners see are as
    they were.
  - `idles_begin?`: an attempt that is not opened, step by step.
  - `refused_of_runOver`: whatever the error, unless it is the flow's, the run is `Refused`.
-/

namespace Switchyard

variable {σ : Type} {w w' w'' : World σ}

/-- What is stored, claimed, shown, told, registered, stopped and remembered is the same. -/
structure Untouched (w w' : World σ) : Prop where
  store : w'.repository.store = w.repository.store
  running : w'.running = w.running
  live : w'.live = w.live
  bus : w'.bus = w.bus
  jobs : w'.jobs = w.jobs
  cancelled : w'.cancelled = w.cancelled
  memory : w'.memory = w.memory

namespace Untouched

theorem refl (w : World σ) : Untouched w w := ⟨rfl, rfl, rfl, rfl, rfl, rfl, rfl⟩

theorem trans (h : Untouched w w') (h' : Untouched w' w'') : Untouched w w'' :=
  ⟨h'.store.trans h.store, h'.running.trans h.running, h'.live.trans h.live, h'.bus.trans h.bus, h'.jobs.trans h.jobs,
    h'.cancelled.trans h.cancelled, h'.memory.trans h.memory⟩

/-- A call to the history that puts nothing into it. -/
theorem of_repository {repository : Repository} (h : repository.store = w.repository.store) :
    Untouched w { w with repository } := ⟨h, rfl, rfl, rfl, rfl, rfl, rfl⟩

/-- A look at the time, or an identifier taken. -/
theorem of_clock (w : World σ) (clock : Clock) : Untouched w { w with clock } := ⟨rfl, rfl, rfl, rfl, rfl, rfl, rfl⟩

/-- A claim was taken, nothing else was touched, and the claim was given back. -/
theorem releasing {id : InstanceId} (h : Untouched (w.claiming id) w') (hw : Attended w)
    (hfree : w.running.contains id.text = false) : Untouched w (w'.releasing id) := by
  refine ⟨h.store, ?_, ?_, h.bus, h.jobs, h.cancelled, h.memory⟩
  · show w'.running.erase id.text = w.running
    rw [h.running]
    exact (Dict.erase_insert _ _ _).trans (Dict.erase_of_not_contains hfree)
  · show w'.live.erase id.text = w.live
    rw [h.live]
    exact Dict.erase_of_not_contains (hw.not_live hfree)

end Untouched

abbrev Act.Idles {α : Type} (x : Act σ α) (w : World σ) : Prop := x.Meets (Untouched w) (fun _ => Untouched w) w

/-- What comes after an action that touched nothing. -/
theorem Act.Idles.bind {α β : Type} {x : Act σ α} {g : α → Act σ β} (hx : x.Idles w)
    (hg : ∀ a w', x.run w = (.ok a, w') → (g a).Idles w') : (x >>= g).Idles w := by
  refine Act.meets_bind.mpr (hx.with_run.mono (fun _ h => h) ?_)
  rintro (e | a) w' ⟨hw', hrun⟩
  · exact hw'
  · exact (hg a w' hrun).mono (fun _ h => hw'.trans h) fun _ _ h => hw'.trans h

/-! ## An attempt that is not opened -/

section Opening

variable {d : Definition} {id : InstanceId} {parameters : Parameters} {r : Record}

theorem idles_loadLatest (id : InstanceId) (w : World σ) : (Act.loadLatest id).Idles w := by
  have hstore : (w.repository.loadLatest id).2.store = w.repository.store := by
    simp only [Repository.loadLatest, Repository.call]
    cases w.repository.faults .loadLatest _ <;> rfl
  exact Act.meets_update.mpr ⟨.of_repository hstore, .of_repository hstore⟩

theorem idles_append (h : (w.repository.append r).1 ≠ .ok ()) : (Act.append r).Idles w := by
  have hstore := Untouched.of_repository (Repository.store_of_not_ok h)
  simp only [Act.append, Act.Idles, Act.call, Act.meets_bind, Act.meets_update, Act.Then]
  refine ⟨hstore, ?_⟩
  rcases (w.repository.append r).1 with (e | _) | u <;> exact hstore

/-- A record that cannot be stored opens nothing. -/
theorem idles_openAttempt (h : ∀ w', (Checkpoint.openAttempt r).run w ≠ (.ok (.ok ()), w')) :
    (Checkpoint.openAttempt r).Idles w := by
  by_cases hok : (w.repository.append r).1 = .ok ()
  · refine absurd ?_ (h ((Checkpoint.openAttempt r).run w).2)
    simp only [Checkpoint.openAttempt, Checkpoint.persist, Act.append, Act.call, Act.run_bind, Act.run_update, hok]
    rfl
  · have happend := idles_append hok
    refine .bind (.bind happend fun x w₁ _ => ?_) fun x w₁ hpersist => ?_
    · cases x <;> exact Untouched.refl _
    · rcases x with e | u
      · exact Untouched.refl _
      · refine absurd ?_ (h ((Checkpoint.openAttempt r).run w).2)
        rw [Checkpoint.openAttempt, Act.run_bind_ok hpersist]
        rfl

/-- An attempt that is not opened touches nothing at any step. -/
theorem idles_begin? (h : ∀ start record w', (Runner.begin? d id parameters).run w ≠ (.ok (.ok (start, record)), w')) :
    (Runner.begin? d id parameters).Idles w := by
  refine .bind (idles_loadLatest id w) fun latest w₁ hload => ?_
  rcases latest with e | latest
  · exact Untouched.refl _
  simp only
  split
  next e _ => cases e <;> exact Untouched.refl _
  next point hpoint =>
    refine .bind ⟨.of_clock _ _, .of_clock _ _⟩ fun fresh w₂ hfresh => ?_
    refine .bind ⟨.of_clock _ _, .of_clock _ _⟩ fun now w₃ hnow => ?_
    refine .bind (idles_openAttempt fun w₄ hopen => ?_) fun x w₄ _ => by cases x <;> exact Untouched.refl _
    -- had the record been stored, the attempt would be open
    refine h point.start (Record.start fresh now id d.name point.attempt parameters point.context) w₄ ?_
    rw [Runner.begin?, Act.run_bind_ok hload]
    simp only [hpoint]
    rw [Act.run_bind_ok hfresh, Act.run_bind_ok hnow, Act.run_bind_ok hopen]
    rfl

end Opening

/-! ## Runs -/

namespace Runner

variable {r : Runner σ} {inner : Run σ} {d : Definition} {id : InstanceId} {depth : Nat} {t : Token} {job : String}
  {parameters : Parameters} {e : JobError}

/-- Once an attempt is under way, what it fails with is its flow's fault. -/
theorem flow_of_drive {start : FlowStart} {record : Record}
    (h : (r.drive inner d start record depth t).run w = (.ok (.error e), w')) : ∃ fault, e = .flow fault := by
  obtain ⟨_, w₁, -, h⟩ := Act.run_bind_eq_ok h
  obtain ⟨before, w₂, -, h⟩ := Act.run_bind_eq_ok h
  obtain ⟨⟨x, sealed⟩, w₃, -, h⟩ := Act.run_bind_eq_ok h
  cases x with
  | error fault =>
    cases h
    exact ⟨fault, rfl⟩
  | ok outcome =>
    obtain ⟨after, w₄, -, h⟩ := Act.run_bind_eq_ok h
    obtain ⟨_, w₅, -, h⟩ := Act.run_bind_eq_ok h
    cases h

/-- Any other error is what the attempt was refused with. -/
theorem begin?_of_refused (h : (r.attemptOver inner d id depth t parameters).run w = (.ok (.error e), w'))
    (he : ∀ fault, e ≠ .flow fault) : (begin? d id parameters).run w = (.ok (.error e), w') := by
  obtain ⟨x, w₁, hbegin, h⟩ := Act.run_bind_eq_ok h
  rcases x with e' | ⟨start, record⟩
  · cases h
    exact hbegin
  · obtain ⟨fault, hfault⟩ := flow_of_drive h
    exact absurd hfault (he fault)

/-- A run of a job that had no effect: it opens no attempt, touches nothing but its own
    claim, and would go the same way whatever the units and whatever runs it could nest. -/
structure Refused (r : Runner σ) (inner : Run σ) (depth : Nat) (job : String) (parameters : Parameters) (w : World σ) :
    Prop where
  untouched : Untouched w ((r.runOver inner depth job parameters).run w).2
  moments : ∀ w', (r.runOver inner depth job parameters).Passes w w' →
    Untouched w w' ∨ ∃ id : InstanceId, w.running.contains id.text = false ∧ Untouched (w.claiming id) w'
  /-- There are no visits: they are made by an attempt that was opened. -/
  unopened : ∀ d, w.jobs.get? job = some d → opened? d parameters w = none
  /-- No unit is called, whatever the units are. -/
  alike : ∀ (r' : Runner σ) (inner' : Run σ),
    (r'.runOver inner' depth job parameters).run w = (r.runOver inner depth job parameters).run w

/-- A run that ends where it began, before it took a claim. -/
theorem Refused.of_idles {x : Except JobError Report} (hidles : (r.runOver inner depth job parameters).Idles w)
    (hrun : ∀ (r : Runner σ) (inner : Run σ), (r.runOver inner depth job parameters).run w = (.ok x, w))
    (hunopened : ∀ d, w.jobs.get? job = some d → opened? d parameters w = none) :
    r.Refused inner depth job parameters w where
  untouched := hidles.run
  moments _ hpasses := .inl (hidles.passes (.refl w) hpasses)
  unopened := hunopened
  alike r' inner' := (hrun r' inner').trans (hrun r inner).symm

theorem refused_of_unknown (hjob : w.jobs.get? job = none) : r.Refused inner depth job parameters w := by
  refine .of_idles (x := .error (.unknownJob job)) ?_ (fun r inner => ?_) fun d hd => ?_
  · refine .bind ⟨.refl w, .refl w⟩ fun found w' hfound => ?_
    cases hfound
    simp only [hjob]
    exact Untouched.refl w
  · simp only [runOver, job?, Act.run_bind, Act.run_find, hjob]
    rfl
  · rw [hjob] at hd
    cases hd

theorem refused_of_claimed (hjob : w.jobs.get? job = some d)
    (hclaimed : w.running.contains (InstanceId.derive d.name parameters).text = true) :
    r.Refused inner depth job parameters w := by
  have hclaim : (claim? (InstanceId.derive d.name parameters)).run w = (.ok none, w) := by
    simp only [claim?, Act.run_update, hclaimed, if_true]
  refine .of_idles (x := .error (.alreadyRunning (InstanceId.derive d.name parameters))) ?_ (fun r inner => ?_)
    fun d' hd' => ?_
  · refine .bind ⟨.refl w, .refl w⟩ fun found w' hfound => ?_
    cases hfound
    simp only [hjob]
    refine .bind (meets_claim (fun _ => ⟨.refl w, .refl w⟩) fun hfree => ?_) fun taken w' htaken => ?_
    · rw [hclaimed] at hfree
      cases hfree
    · cases hclaim.symm.trans htaken
      exact Untouched.refl w
  · simp only [runOver, job?, Act.run_bind, Act.run_find, hjob, hclaim]
    rfl
  · cases hjob.symm.trans hd'
    simp only [opened?, hclaim]

/-- A run whose attempt is refused under its claim. -/
theorem refused_of_begin? (hw : Attended w) (hjob : w.jobs.get? job = some d)
    (hid : InstanceId.derive d.name parameters = id) (hfree : w.running.contains id.text = false)
    (hbegin : (begin? d id parameters).run (w.claiming id) = (.ok (.error e), w')) :
    r.Refused inner depth job parameters w := by
  have hattempt : ∀ (r : Runner σ) (inner : Run σ),
      (r.attemptOver inner d id depth w.tokens parameters).run (w.claiming id) = (.ok (.error e), w') := by
    intro r inner
    rw [attemptOver, Act.run_bind_ok hbegin]
    rfl
  have hrun : ∀ (r : Runner σ) (inner : Run σ),
      (r.runOver inner depth job parameters).run w = (.ok (.error e), w'.releasing id) := by
    intro r inner
    rw [run_of_free r inner depth hjob hid hfree, hattempt]
  have hidles : (r.attemptOver inner d id depth w.tokens parameters).Idles (w.claiming id) := by
    refine .bind (idles_begin? fun start record w'' hopened => ?_) fun x w'' hx => ?_
    · cases hbegin.symm.trans hopened
    · cases hbegin.symm.trans hx
      exact Untouched.refl _
  have huntouched : Untouched w (w'.releasing id) := by
    have hend := hidles.run
    rw [hattempt] at hend
    exact hend.releasing hw hfree
  refine ⟨?_, fun w'' hpasses => ?_, fun d' hd' => ?_, fun r' inner' => (hrun r' inner').trans (hrun r inner).symm⟩
  · rw [hrun]
    exact huntouched
  · rcases passes_of_free hjob hid hfree hpasses with rfl | hunder | rfl
    · exact .inl (.refl _)
    · exact .inr ⟨id, hfree, hidles.passes (.refl _) hunder⟩
    · rw [hrun]
      exact .inl huntouched
  · cases hjob.symm.trans hd'
    subst hid
    simp only [opened?, claim?_of_free hfree, hbegin]

/-- A run that fails for no fault of its flow was refused before its attempt was open. -/
theorem refused_of_runOver (hw : Attended w) (h : ((r.runOver inner depth job parameters).run w).1 = .ok (.error e))
    (he : ∀ fault, e ≠ .flow fault) : r.Refused inner depth job parameters w := by
  cases hjob : w.jobs.get? job with
  | none => exact refused_of_unknown hjob
  | some d =>
    cases hclaimed : w.running.contains (InstanceId.derive d.name parameters).text with
    | true => exact refused_of_claimed hjob hclaimed
    | false =>
      rw [run_of_free r inner depth hjob rfl hclaimed] at h
      exact refused_of_begin? hw hjob rfl hclaimed (begin?_of_refused (Prod.ext h rfl) he)

end Runner

end Switchyard
