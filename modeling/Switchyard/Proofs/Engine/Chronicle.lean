import Switchyard.Proofs.Engine.Telling

/-
  Switchyard.Proofs.Engine.Chronicle — what a run tells, and how it agrees with its record.

  A run tells that its attempt has started, what its traversal tells, and that it has
  finished (`Recount`). A visit that did not fail is told as such, then noted in the record,
  and then the record is stored. Where the next node is entered, what was told, the record in
  hand and the one in the history agree, and so do they once the record is sealed. Only if
  the record cannot be stored after the last node, the history is behind what was told.

  The end is told after the record is sealed and stored, and from there on nothing breaks a
  run off. So a run that tells its end reports it, and one that does not has none to report.
  In the same way the start is told once the record of the attempt is stored
  (`Runner.commits_begin?`), so a run that is over without having told it stored nothing.

  - `Runner.run_recounted`: all of this for every run, from before its attempt is opened until
    after its claim is given back, whatever others do between two of its steps.
-/

namespace Switchyard

variable {σ α : Type}

/-! ## Attempts -/

def relayed : Except FlowError FlowOutcome × Record → Except JobError Report
  | (.error e, _) => .error (.flow e)
  | (.ok o, record) => .ok { instanceId := record.instanceId, status := o.status, exit := o.exit, record }

/-- A run whose attempt was told to have started, sorted by the nodes of its own flow. -/
structure Recount (σ : Type) where
  /-- The steps before the first node. -/
  before : List (World σ × World σ)
  made : List (Executor.Station σ)
  /-- The steps after the last node. -/
  after : List (World σ × World σ)
  /-- What is told of the nodes. -/
  nodes : List Event
  /-- What is told after the last of them. -/
  finish : List Event
  /-- What is left to do of the attempt. -/
  attempt : Act σ (Except FlowError FlowOutcome × Record)

namespace Recount

variable {c : Recount σ} {u : Tour σ} {first : Record} {z : Act σ (Except JobError Report)}

def steps (c : Recount σ) : List (World σ × World σ) := c.before ++ c.made.flatMap Executor.Station.steps ++ c.after

/-- The steps of the run and of its own flow, without those of the visits. -/
def own (c : Recount σ) : List (World σ × World σ) := c.before ++ c.made.flatMap Executor.Station.own ++ c.after

theorem own_subset (c : Recount σ) : c.own ⊆ c.steps := by
  have hstation : ∀ s : Executor.Station σ, s.own ⊆ s.steps := fun s x hx => by
    rcases List.mem_append.mp hx with hx | hx <;> simp [Executor.Station.steps, hx]
  intro x hx
  simp only [own, steps, List.mem_append, List.mem_flatMap] at hx ⊢
  rcases hx with (hx | ⟨s, hs, hx⟩) | hx
  · exact Or.inl (Or.inl hx)
  · exact Or.inl (Or.inr ⟨s, hs, hstation s hx⟩)
  · exact Or.inr hx

/-- A run is told like this: its start, its nodes one by one, and its end once it has one to
    report. -/
structure Of (c : Recount σ) (u : Tour σ) (first : Record) (z : Act σ (Except JobError Report)) : Prop where
  started : Tells c.before [.jobStarted first.id first.instanceId first.job first.attempt u.start.node]
  telling : Executor.Telling first.id u.graph.name c.made c.nodes
  ending : Tells c.after c.finish
  /-- The nodes are those that the attempt has come to. -/
  executes : ∃ earlier executing later, c.steps = earlier ++ executing ++ later ∧
    u.Executes first executing c.made c.attempt
  /-- Where a node is entered, the record in hand has completed what was told to have
      succeeded. It is as it was stored when the node before was left. -/
  booked : ∀ before s after, c.made = before ++ s :: after → ∃ kept told, s.pos.record = some kept ∧ told <+: c.nodes ∧
    Told first.id u.graph.name (Executor.Station.visits before) told ∧ kept.completed = succeeded told ∧
    ∀ t ∈ before.getLast?, Stored kept t.leaving
  /-- So has the record that the attempt leaves, which has told of all its visits. -/
  left : ∀ res kept, c.attempt = pure (res, kept) →
    Told first.id u.graph.name (Executor.Station.visits c.made) c.nodes ∧ kept.completed = succeeded c.nodes
  comes : ∀ a, z = pure a → ∃ x, c.attempt = pure x ∧ a = relayed x
  /-- It has told its end if and only if it reports: once, with what was sealed. -/
  finished : (c.finish = [] ∧ ∀ report, z ≠ pure (.ok report)) ∨
    ∃ o sealed millis, c.attempt = pure (.ok o, sealed) ∧ z.Only (relayed (.ok o, sealed)) ∧
      c.finish = [.jobFinished first.id first.instanceId first.job o.status o.exit millis] ∧
      sealed.finalStatus = some o.status ∧ sealed.finalExit = some o.exit ∧ Stored sealed c.steps
  branched : ∀ s ∈ c.made, u.Branched s

/-- Nothing else is told, but for what the visits tell. -/
theorem Of.tells (h : c.Of u first z) : Tells c.own
    (.jobStarted first.id first.instanceId first.job first.attempt u.start.node :: c.nodes ++ c.finish) :=
  (h.started.append h.telling.tells).append h.ending

end Recount

namespace Tour

open Executor (Station)

variable {u : Tour σ} {first : Record} {steps : List (World σ × World σ)} {made : List (Station σ)}

theorem spares_closing (first : Record) (t : Traversal) : (Executor.closing first t : Act σ _).Spares World.bus := by
  refine silence.bind silence.now fun now _ => ?_
  refine silence.bind (storing_silence.stored _ (showing_silence (first.closed t now).instanceId).discard) fun x _ => ?_
  cases x <;> exact silence.pure _

theorem completed_begun (u : Tour σ) (vs : Visits) : (u.begun.after vs).completed = vs.completed := by
  rw [Progress.after_eq]
  exact List.nil_append _

/-- The nodes that an attempt has come to are those of its traversal, and it tells nothing but
    what that tells. -/
theorem Executes.chronicle {x : Act σ (Except FlowError FlowOutcome × Record)} (h : u.Executes first steps made x) :
    ∃ walking closing es y, steps = walking ++ closing ∧ Silent closing ∧ u.Chronicle walking made es y ∧
      ∀ a, x = pure a → ∃ walked, y = pure walked := by
  cases h with
  | walking htravels _ hopen =>
    obtain ⟨es, hchronicle⟩ := htravels.chronicle
    exact ⟨steps, [], es, _, by simp, by simp, hchronicle, fun a ha => absurd ha (hopen a)⟩
  | failed htravels =>
    obtain ⟨es, hchronicle⟩ := htravels.chronicle
    exact ⟨steps, [], es, _, by simp, by simp, hchronicle, fun _ _ => ⟨_, rfl⟩⟩
  | closing htravels hclosing =>
    obtain ⟨es, hchronicle⟩ := htravels.chronicle
    exact ⟨_, _, es, _, rfl, (spares_closing first _).goes hclosing, hchronicle, fun _ _ => ⟨_, rfl⟩⟩

/-- The record that an attempt leaves has completed what its visits did, whether it is sealed
    or not. -/
theorem Executes.completed_eq (hbooks : ∀ vs, (first.noting u.begun vs).Reflects first vs) (hrec : u.record = some first)
    {res : Except FlowError FlowOutcome} {kept : Record} (h : u.Executes first steps made (pure (res, kept))) :
    kept.completed = (Station.visits made).completed := by
  generalize hx : (pure (res, kept) : Act σ _) = x at h
  cases h with
  | walking _ _ hopen => exact absurd hx.symm (hopen _)
  | failed htravels =>
    cases hx
    rw [htravels.kept_eq hrec]
    exact (hbooks _).completed
  | closing htravels hclosing =>
    obtain ⟨status, exit, restart, failure, rfl⟩ := htravels.finished
    rcases Executor.goes_closing hclosing with ⟨-, hopen⟩ | ⟨now, w, before, after, -, -, -, hmade⟩
    · exact absurd hx.symm (hopen _)
    · obtain ⟨rfl, -⟩ := hmade _ _ hx.symm
      exact completed_begun u _

/-- Where an attempt has an outcome, the record is sealed with it and stored. -/
theorem Executes.sealed {o : FlowOutcome} {sealed : Record} (h : u.Executes first steps made (pure (.ok o, sealed))) :
    (∃ t now, o = t.outcome ∧ sealed = first.closed t now) ∧ Stored sealed steps := by
  generalize hx : (pure (.ok o, sealed) : Act σ (Except FlowError FlowOutcome × Record)) = x at h
  cases h with
  | walking _ _ hopen => exact absurd hx.symm (hopen _)
  | failed => cases hx
  | closing htravels hclosing =>
    rcases Executor.goes_closing hclosing with ⟨-, hopen⟩ | ⟨now, w, before, after, rfl, -, hafter, hmade⟩
    · exact absurd hx.symm (hopen _)
    · obtain ⟨rfl, hok⟩ := hmade _ _ hx.symm
      obtain ⟨rfl, hstored⟩ := hok _ rfl
      exact ⟨⟨_, now, rfl, rfl⟩, .prepend _ ⟨rfl, hstored, hafter⟩⟩

/-- What is done of an attempt that was told to have started, and what is left to do. -/
inductive Drives (u : Tour σ) (first : Record) : List (World σ × World σ) → Act σ (Except JobError Report) → Prop
  | underway {front executing rest : List (World σ × World σ)} {x : Act σ (Except FlowError FlowOutcome × Record)}
      {y : Act σ (Except JobError Report)} :
      Tells front [.jobStarted first.id first.instanceId first.job first.attempt u.start.node] →
      (u.ex.execute u.graph u.start first).Goes executing x → Silent rest → Unstored rest → y.Open →
      Drives u first (front ++ executing ++ rest) y
  | failed {front executing : List (World σ × World σ)} {e : FlowError} {kept : Record} :
      Tells front [.jobStarted first.id first.instanceId first.job first.attempt u.start.node] →
      (u.ex.execute u.graph u.start first).Goes executing (pure (.error e, kept)) →
      Drives u first (front ++ executing) (pure (relayed (.error e, kept)))
  | ended {front executing rest : List (World σ × World σ)} {o : FlowOutcome} {sealed : Record} (millis : Nat) :
      Tells front [.jobStarted first.id first.instanceId first.job first.attempt u.start.node] →
      (u.ex.execute u.graph u.start first).Goes executing (pure (.ok o, sealed)) →
      Tells rest [.jobFinished sealed.id sealed.instanceId sealed.job o.status o.exit millis] → Unstored rest →
      Drives u first (front ++ executing ++ rest) (pure (relayed (.ok o, sealed)))

end Tour

namespace Recount

open Executor (Station)

variable {u : Tour σ} {first : Record} {z : Act σ (Except JobError Report)}

/-- A run is recounted node by node, whatever was done before its attempt and after that. -/
theorem exists_of_executes (hcontext : u.context = first.context) (hrec : u.record = some first)
    (hid : u.ex.scope.id = first.id) (hdeep : u.graph.nesting ≤ u.levels) (hfresh : first.Fresh)
    {front executing rest : List (World σ × World σ)} {made : List (Station σ)} {finish : List Event}
    {x : Act σ (Except FlowError FlowOutcome × Record)} (h : u.Executes first executing made x)
    (hfront : Tells front [.jobStarted first.id first.instanceId first.job first.attempt u.start.node])
    (hrest : Tells rest finish) (hstill : Unstored rest) (hcomes : ∀ a, z = pure a → ∃ b, x = pure b ∧ a = relayed b)
    (hfinished : (finish = [] ∧ ∀ report, z ≠ pure (.ok report)) ∨
      ∃ o sealed millis, x = pure (.ok o, sealed) ∧ z.Only (relayed (.ok o, sealed)) ∧
        finish = [.jobFinished sealed.id sealed.instanceId sealed.job o.status o.exit millis]) :
    ∃ c : Recount σ, c.steps = front ++ executing ++ rest ∧ c.Of u first z := by
  have hbooks := Tour.reflects_begun hcontext hfresh
  obtain ⟨walking, closing, es, y, hsteps, hclosing, hchronicle, hover⟩ := h.chronicle
  obtain ⟨opening, after, rfl, hopening, hafter⟩ := hchronicle.divides
  have hall : (front ++ opening) ++ made.flatMap Station.steps ++ (after ++ closing ++ rest) =
      front ++ executing ++ rest := by simp [hsteps]
  refine ⟨⟨front ++ opening, made, after ++ closing ++ rest, es, finish, x⟩, hall, ?_⟩
  refine
    { started := hfront.append_silent hopening
      telling := hid ▸ hchronicle.telling
      ending := .silent_append (List.forall_mem_append.mpr ⟨hafter, hclosing⟩) hrest
      executes := ⟨front, executing, rest, hall, h⟩
      booked := fun before s later hmade => ?_
      left := ?_
      comes := hcomes
      finished := ?_
      branched := fun s hs => Tour.branched_of_travels hdeep hchronicle.travels hs }
  · obtain ⟨hkept, -⟩ := hchronicle.travels.record_eq hrec hmade
    obtain ⟨told, hprefix, htold⟩ := hchronicle.telling.told_before hmade
    refine ⟨_, told, hkept, hprefix, hid ▸ htold, (hbooks _).completed.trans htold.succeeded_eq.symm, fun t ht => ?_⟩
    obtain ⟨earlier, rfl⟩ := List.getLast?_eq_some_iff.mp ht
    have htwo : made = earlier ++ t :: s :: later := by simpa using hmade
    obtain ⟨kept, hsame, hstored⟩ := hchronicle.travels.stored_before hrec htwo
    cases hkept.symm.trans hsame
    exact hstored
  · rintro res kept rfl
    obtain ⟨walked, hwalked⟩ := hover _ rfl
    have htold := hchronicle.told (Or.inl ⟨walked, hwalked⟩)
    exact ⟨hid ▸ htold, (h.completed_eq hbooks hrec).trans htold.succeeded_eq.symm⟩
  · rcases hfinished with hopen | ⟨o, sealed, millis, rfl, honly, rfl⟩
    · exact Or.inl hopen
    · obtain ⟨⟨t, now, rfl, rfl⟩, hstored⟩ := h.sealed
      have hkept := (hstored.prepend front).append hstill
      rw [← hall] at hkept
      exact Or.inr ⟨_, _, millis, rfl, honly, rfl, rfl, rfl, hkept⟩

end Recount

/-! ## Runs -/

namespace Runner

variable {r : Runner σ} {inner : Run σ} {depth : Nat} {steps : List (World σ × World σ)}

abbrev Unwritten (steps : List (World σ × World σ)) : Prop := ∀ s ∈ steps, s.2.repository.store = s.1.repository.store

/-- A run that tells nothing: it has not come to its attempt yet, or was refused before that.
    Its record is stored only if a step is left to take, so no run that is over or broken off
    without having told its start has opened an attempt. -/
structure Untold (steps : List (World σ × World σ)) (z : Act σ (Except JobError Report)) : Prop where
  silent : Silent steps
  refused : ∀ a, z = pure a → ∃ e, a = .error e ∧ ∀ fault, e ≠ .flow fault
  unopened : Unwritten steps ∨ z.Going

theorem still_of_spares {x y : Act σ α} (hx : x.Spares fun w => (w.bus, w.repository.store)) (h : x.Goes steps y) :
    Silent steps ∧ Unwritten steps :=
  ⟨fun s hs => congrArg Prod.fst (hx.goes h s hs), fun s hs => congrArg Prod.snd (hx.goes h s hs)⟩

/-- Once a record is stored, it is answered that it is. -/
theorem commits_append (record : Record) :
    (Act.append record : Act σ _).Commits (fun w => w.repository.store) (· = .ok ()) := by
  refine Act.Commits.update fun w => ?_
  have hstore : (w.repository.append record).1 ≠ .ok () → (w.repository.append record).2.store = w.repository.store :=
    Repository.store_of_not_ok
  simp only
  generalize w.repository.append record = appended at hstore ⊢
  obtain ⟨(e | _) | _, repository⟩ := appended
  · exact Or.inl ⟨hstore nofun, trivial⟩
  · exact Or.inl ⟨hstore nofun, trivial⟩
  · exact Or.inr ⟨trivial, fun _ => Act.yields_pure⟩

theorem commits_openAttempt (record : Record) :
    (Checkpoint.openAttempt record : Act σ _).Commits (fun w => w.repository.store) (· = .ok ()) := by
  have hpersist : (Checkpoint.persist record : Act σ _).Commits (fun w => w.repository.store) (· = .ok ()) := by
    refine .bind (commits_append record) (fun x => ?_) ?_
    · cases x <;> trivial
    · rintro _ rfl
      exact ⟨trivial, fun _ => Act.yields_pure⟩
  refine .bind hpersist (fun x => ?_) ?_
  · cases x with
    | error e => trivial
    | ok _ => exact .spared (fun _ => rfl) fun _ => trivial
  · rintro _ rfl
    refine ⟨fun _ => trivial, fun x hx => ?_⟩
    obtain ⟨_, -, hx⟩ := Act.yields_bind hx
    exact Act.yields_pure hx

/-- Once its record is stored, an attempt is opened. -/
theorem commits_begin? (d : Definition) (id : InstanceId) (parameters : Parameters) :
    (begin? d id parameters : Act σ _).Commits (fun w => w.repository.store) (∃ o, · = .ok o) := by
  have hload : ∀ h : Repository, (h.loadLatest id).2.store = h.store := fun h => by
    simp only [Repository.loadLatest, Repository.call]
    cases h.faults .loadLatest (h.counts.next .loadLatest).1 <;> rfl
  refine .spared (fun w => hload w.repository) fun latest => ?_
  rcases latest with e | latest
  · trivial
  simp only
  split
  next e _ =>
    unfold refuse
    split <;> trivial
  next point _ =>
    refine .spared (fun _ => rfl) fun fresh => .spared (fun _ => rfl) fun now => ?_
    refine .bind (commits_openAttempt _) (fun x => ?_) ?_
    · cases x <;> trivial
    · rintro _ rfl
      exact ⟨trivial, fun _ hx => ⟨_, Act.yields_pure hx⟩⟩

/-- What is done under a claim, and giving that back: the one comes to what the other does. -/
theorem goes_releasing {id : InstanceId} {x : Act σ α} {z : Act σ α} (h : (releasing id x).Goes steps z) :
    ∃ during closing y, steps = during ++ closing ∧ x.Goes during y ∧ Silent closing ∧ Unstored closing ∧
      (∀ a, z = pure a → y = pure a) ∧ (∀ a, y = pure a → z.Only a) ∧ (y.Going → z.Going) := by
  rcases Act.goes_bind_open h with ⟨_, hattempt, hopen, rfl⟩ | ⟨came, during, steps, rfl, hattempt, h⟩
  · obtain ⟨y, hx, rfl⟩ := Act.goes_attempt hattempt
    refine ⟨steps, [], y, by simp, hx, by simp, by simp, fun a ha => absurd ha (hopen.bind _ _), ?_,
      fun hy => hy.attempt.bind _⟩
    rintro a rfl
    exact absurd rfl (hopen _)
  obtain ⟨y, hx, hy⟩ := Act.goes_attempt hattempt
  cases h with
  | here =>
    refine ⟨during, [], y, rfl, hx, by simp, by simp, nofun, ?_, fun _ => trivial⟩
    rintro a rfl
    cases hy
    refine ⟨fun _ => trivial, fun b hb => ?_⟩
    obtain ⟨_, -, hb⟩ := Act.yields_bind hb
    exact Act.yields_pure hb
  | step w hrest =>
    cases y with
    | done a =>
      cases hy
      obtain ⟨rfl, rfl⟩ := Act.goes_pure hrest
      refine ⟨during, _, _, rfl, hx, by simp, by simp, fun _ h => h, ?_, nofun⟩
      rintro _ ⟨⟩
      exact Act.only_pure _
    | broken e =>
      cases hy
      cases hrest
      exact ⟨during, _, _, rfl, hx, by simp, by simp, nofun, nofun, nofun⟩
    | step => cases hy

/-- A drive that has begun tells first that its attempt has started. -/
theorem goes_drive {d : Definition} {o : Opened σ} {y : Act σ (Except JobError Report)}
    (h : (r.drive inner d o.start o.record depth o.token).Goes steps y) :
    (steps = [] ∧ y.Going) ∨ (r.tourOf inner depth d o).Drives o.record steps y := by
  have hwaiting : (Act.waited : Act σ Nat).Spares World.bus := .update fun _ => rfl
  rcases goes_publish h with hnone | ⟨s, steps, rfl, hstarted, h⟩
  · exact Or.inl hnone
  refine Or.inr ?_
  rcases Act.goes_bind_open h with ⟨_, hwaited, hopen, rfl⟩ | ⟨before, waiting, steps, rfl, hwaited, h⟩
  · simpa using Tour.Drives.underway (u := r.tourOf inner depth d o) (hstarted.append_silent (hwaiting.goes hwaited))
      (.here _) (List.forall_mem_nil _) (List.forall_mem_nil _) (hopen.bind _)
  have hfront := hstarted.append_silent (hwaiting.goes hwaited)
  rcases Act.goes_bind_open h with ⟨x, hexecute, hopen, rfl⟩ | ⟨⟨res, kept⟩, executing, rest, rfl, hexecute, h⟩
  · simpa using Tour.Drives.underway (u := r.tourOf inner depth d o) hfront hexecute (List.forall_mem_nil _)
      (List.forall_mem_nil _) (hopen.bind _)
  rcases res with e | outcome
  · obtain ⟨rfl, rfl⟩ := Act.goes_pure h
    simpa [relayed] using Tour.Drives.failed (u := r.tourOf inner depth d o) hfront hexecute
  have hunstored : Unstored rest := by
    refine Act.Spares.goes (f := World.repository) (.bind (.update fun _ => rfl) fun _ => ?_) h
    exact .bind (.update fun _ => rfl) fun _ => .pure
  rcases tells_of_publish hwaiting (fun _ => .pure) h with ⟨hsilent, hopen⟩ | ⟨_, _, _, rfl, htells, hsilent, hmade⟩
  · simpa using Tour.Drives.underway (u := r.tourOf inner depth d o) hfront hexecute hsilent hunstored hopen
  · obtain ⟨-, rfl⟩ := Act.goes_pure hmade
    simpa [relayed] using Tour.Drives.ended (u := r.tourOf inner depth d o) _ hfront hexecute
      (htells.append_silent hsilent) hunstored

theorem goes_attemptOver {d : Definition} {id : InstanceId} {t : Token} {parameters : Parameters}
    {y : Act σ (Except JobError Report)} (w : World σ) (h : (r.attemptOver inner d id depth t parameters).Goes steps y) :
    Untold steps y ∨
      ∃ (o : Opened σ) (opening driving : List (World σ × World σ)), steps = opening ++ driving ∧ Silent opening ∧
        (begin? d id parameters : Act σ _).Yields (.ok (o.start, o.record)) ∧
        (r.tourOf inner depth d o).Drives o.record driving y := by
  have hsilent : (begin? d id parameters : Act σ _).Spares World.bus :=
    storing_silence.begin? (showing_silence id) d parameters
  rcases Act.goes_bind_open h with ⟨x, hbegin, hopen, rfl⟩ | ⟨begun, opening, driving, rfl, hbegin, h⟩
  · exact Or.inl ⟨hsilent.goes hbegin, fun a ha => absurd ha (hopen.bind _ _),
      ((commits_begin? d id parameters).goes hbegin).imp_right fun hsettled => (hsettled.1.going hopen).bind _⟩
  have hopening : Silent opening := hsilent.goes hbegin
  rcases begun with e | ⟨start, record⟩
  · obtain ⟨rfl, rfl⟩ := Act.goes_pure h
    have hunopened : Unwritten opening := by
      rcases (commits_begin? d id parameters).goes hbegin with hunwritten | hsettled
      · exact hunwritten
      · obtain ⟨o, ho⟩ := hsettled.2 _ (.done _)
        cases ho
    refine Or.inl ⟨by simpa using hopening, ?_, Or.inl (by simpa using hunopened)⟩
    rintro a ⟨⟩
    rcases yields_begin? hbegin.yields with ⟨_, _, _, _, -, hnot⟩ | ⟨e, he, hflow⟩
    · cases hnot
    · cases he
      exact ⟨e, rfl, hflow⟩
  rcases goes_drive (o := ⟨start, record, t, w⟩) h with ⟨rfl, hgoing⟩ | hdrives
  · exact Or.inl ⟨by simpa using hopening, fun a ha => absurd ha (hgoing.open a), Or.inr hgoing⟩
  · exact Or.inr ⟨_, opening, driving, rfl, hopening, hbegin.yields, hdrives⟩

theorem still_of_claim {id : InstanceId} {claiming : List (World σ × World σ)} {x : Act σ (Option Token)} (w : World σ)
    (h : (claim? id : Act σ _).Goes claiming x) :
    Silent ([(w, w)] ++ claiming) ∧ Unwritten ([(w, w)] ++ claiming) := by
  have hclaiming : (claim? id : Act σ _).Spares fun w => (w.bus, w.repository.store) :=
    .update fun w => by split <;> rfl
  obtain ⟨hsilent, hunwritten⟩ := still_of_spares hclaiming h
  exact ⟨List.forall_mem_append.mpr ⟨by simp, hsilent⟩, List.forall_mem_append.mpr ⟨by simp, hunwritten⟩⟩

/-- A run tells nothing, unless it opens an attempt at a job that is known and drives it. -/
theorem goes_runOver {job : String} {parameters : Parameters} {z : Act σ (Except JobError Report)}
    (h : (r.runOver inner depth job parameters).Goes steps z) :
    Untold steps z ∨
      ∃ (d : Definition) (o : Opened σ) (opening driving closing : List (World σ × World σ))
        (y : Act σ (Except JobError Report)),
        (∃ w, steps.head? = some (w, w) ∧ w.jobs.get? job = some d) ∧
        (begin? d (InstanceId.derive d.name parameters) parameters : Act σ _).Yields (.ok (o.start, o.record)) ∧
        steps = opening ++ driving ++ closing ∧ Silent opening ∧ Silent closing ∧ Unstored closing ∧
        (r.tourOf inner depth d o).Drives o.record driving y ∧
        (∀ a, z = pure a → y = pure a) ∧ ∀ a, y = pure a → z.Only a := by
  have hlooking : (job? job : Act σ _).Spares fun w => (w.bus, w.repository.store) := .update fun _ => rfl
  rcases Act.goes_bind_open h with ⟨y, hjob, hopen, rfl⟩ | ⟨found, looking, steps, rfl, hjob, h⟩
  · obtain ⟨hsilent, hunwritten⟩ := still_of_spares hlooking hjob
    exact Or.inl ⟨hsilent, fun a ha => absurd ha (hopen.bind _ _), Or.inl hunwritten⟩
  obtain ⟨w, rfl, hfound⟩ := Act.goes_find hjob
  rcases found with _ | d
  · obtain ⟨rfl, rfl⟩ := Act.goes_pure h
    refine Or.inl ⟨by simp, ?_, Or.inl (by simp)⟩
    rintro a ⟨⟩
    exact ⟨_, rfl, nofun⟩
  rcases Act.goes_bind_open h with ⟨y, hclaim, hopen, rfl⟩ | ⟨claimed, claiming, steps, rfl, hclaim, h⟩
  · obtain ⟨hsilent, hunwritten⟩ := still_of_claim w hclaim
    exact Or.inl ⟨hsilent, fun a ha => absurd ha (hopen.bind _ _), Or.inl hunwritten⟩
  obtain ⟨hsilent, hunwritten⟩ := still_of_claim w hclaim
  rcases claimed with _ | t
  · obtain ⟨rfl, rfl⟩ := Act.goes_pure h
    refine Or.inl ⟨by simpa using hsilent, ?_, Or.inl (by simpa using hunwritten)⟩
    rintro a ⟨⟩
    exact ⟨_, rfl, nofun⟩
  obtain ⟨during, closing, y, rfl, hover, hclosing, hunstored, hfrom, honly, hgoing⟩ := goes_releasing h
  rcases goes_attemptOver w hover with huntold | ⟨o, opening, driving, rfl, hopening, hbegin, hdrives⟩
  · have hclosed : Unwritten closing := fun s hs => congrArg Repository.store (hunstored s hs)
    refine Or.inl ⟨?_, fun a ha => huntold.refused a (hfrom a ha), huntold.unopened.imp (fun hduring => ?_) hgoing⟩
    all_goals simp only [← List.append_assoc]
    · exact List.forall_mem_append.mpr ⟨List.forall_mem_append.mpr ⟨hsilent, huntold.silent⟩, hclosing⟩
    · exact List.forall_mem_append.mpr ⟨List.forall_mem_append.mpr ⟨hunwritten, hduring⟩, hclosed⟩
  · exact Or.inr ⟨d, o, [(w, w)] ++ claiming ++ opening, driving, closing, y, ⟨w, rfl, hfound⟩, hbegin, by simp,
      List.forall_mem_append.mpr ⟨hsilent, hopening⟩, hclosing, hunstored, hdrives, hfrom, honly⟩

/-- What is driven is recounted, whatever was done before and after it. -/
theorem exists_recount {d : Definition} {o : Opened σ} (hfresh : o.record.Fresh)
    {opening driving closing : List (World σ × World σ)} {y z : Act σ (Except JobError Report)}
    (h : (r.tourOf inner depth d o).Drives o.record driving y) (hopening : Silent opening) (hclosing : Silent closing)
    (hunstored : Unstored closing) (hfrom : ∀ a, z = pure a → y = pure a) (honly : ∀ a, y = pure a → z.Only a) :
    ∃ c : Recount σ, c.steps = opening ++ driving ++ closing ∧ c.Of (r.tourOf inner depth d o) o.record z := by
  have hconfirms : (r.tourOf inner depth d o).Confirms o.record := Tour.confirms rfl rfl rfl hfresh
  have hrecount := @Recount.exists_of_executes σ (r.tourOf inner depth d o) o.record z rfl rfl rfl (Nat.le_refl _) hfresh
  cases h with
  | underway hfront hexecute hrest hstill hopen =>
    obtain ⟨made, hexecutes⟩ := hconfirms.divides _ _ hexecute
    have hnone : ∀ a, z ≠ pure a := fun a ha => hopen a (hfrom a ha)
    simpa using hrecount hexecutes (.silent_append hopening hfront)
      (.of_silent (List.forall_mem_append.mpr ⟨hrest, hclosing⟩)) (List.forall_mem_append.mpr ⟨hstill, hunstored⟩)
      (fun a ha => absurd ha (hnone a)) (Or.inl ⟨rfl, fun report => hnone _⟩)
  | failed hfront hexecute =>
    obtain ⟨made, hexecutes⟩ := hconfirms.divides _ _ hexecute
    simpa using hrecount hexecutes (.silent_append hopening hfront) (.of_silent hclosing) hunstored
      (fun a ha => ⟨_, rfl, by cases hfrom a ha; rfl⟩) (Or.inl ⟨rfl, fun report ha => by cases hfrom _ ha⟩)
  | ended millis hfront hexecute hrest hstill =>
    obtain ⟨made, hexecutes⟩ := hconfirms.divides _ _ hexecute
    simpa using hrecount hexecutes (.silent_append hopening hfront) (hrest.append_silent hclosing)
      (List.forall_mem_append.mpr ⟨hstill, hunstored⟩) (fun a ha => ⟨_, rfl, by cases hfrom a ha; rfl⟩)
      (Or.inr ⟨_, _, millis, rfl, honly _ rfl, rfl⟩)

/-- A run tells nothing unless it drives an attempt, and it opens none that it does not come
    to drive. Of that attempt it tells that it has started, each node that is visited where it
    is entered and where it is left, and at last, if and only if it has a report, the end that
    was sealed. Whatever branches tell is told between the two of their split, node by node as
    well, and has come to its end with it. -/
theorem run_recounted {job : String} {parameters : Parameters} {z : Act σ (Except JobError Report)}
    (h : (r.runOver inner depth job parameters).Goes steps z) :
    Untold steps z ∨
      ∃ (d : Definition) (o : Opened σ) (c : Recount σ), (∃ w, steps.head? = some (w, w) ∧ w.jobs.get? job = some d) ∧
        (begin? d (InstanceId.derive d.name parameters) parameters : Act σ _).Yields (.ok (o.start, o.record)) ∧
        c.steps = steps ∧
        Tells c.own (.jobStarted o.record.id o.record.instanceId o.record.job o.record.attempt o.start.node ::
          c.nodes ++ c.finish) ∧
        c.Of (r.tourOf inner depth d o) o.record z := by
  rcases goes_runOver h with huntold |
    ⟨d, o, opening, driving, closing, y, hknown, hbegin, rfl, hopening, hclosing, hunstored, hdrives, hfrom, honly⟩
  · exact Or.inl huntold
  · obtain ⟨c, hsteps, hof⟩ :=
      exists_recount (fresh_of_begin? hbegin) hdrives hopening hclosing hunstored hfrom honly
    exact Or.inr ⟨d, o, c, hknown, hbegin, hsteps, hof.tells, hof⟩

end Runner

/-! ### A survey that somebody listens to -/

namespace Survey

def field : World Nat :=
  { repository := { store := .shelf Shelf.empty }
    jobs := Dict.empty.insert "survey" survey
    bus := (Bus.ofCapacity 4).subscribe
    clock := { origin := Instant.ofSeconds 0 0 }
    memory := 0 }

def launched : Act Nat (Except JobError Report) := runner.runOver (runner.run 0) 0 "survey" Dict.empty

def findings (x : Except Halt (Except JobError Report)) : Option (Status × List String) :=
  match x with
  | .ok (.ok report) => some (report.status, report.record.completed)
  | _ => none

theorem findings_of_launched : findings (launched.run field).1 = some (.completed, ["plots", "plots", "map"]) ∧
    ∀ s ∈ launched.path field, s.1.bus.receiverCount ≠ 0 := by
  decide +kernel

/-- What is heard of the run, but for what is told of the plots. -/
theorem survey_recounted : ∃ (report : Report) (o : Opened Nat) (c : Recount Nat) (millis : Nat),
    launched.Goes (launched.path field) (pure (.ok report)) ∧ c.steps = launched.path field ∧
      c.own.flatMap Tells.added =
        .jobStarted o.record.id o.record.instanceId o.record.job o.record.attempt o.start.node :: c.nodes ++
          [.jobFinished o.record.id o.record.instanceId o.record.job .completed report.exit millis] ∧
      Told o.record.id "survey" (Executor.Station.visits c.made) c.nodes ∧
      succeeded c.nodes = ["plots", "plots", "map"] ∧ Stored report.record c.steps := by
  obtain ⟨hfindings, hlistened⟩ := findings_of_launched
  unfold findings at hfindings
  split at hfindings
  next report hrun =>
    obtain ⟨hstatus, hcompleted⟩ := Prod.mk.inj (Option.some.inj hfindings)
    have hgoes : launched.Goes (launched.path field) (pure (.ok report)) := Act.goes_path (Prod.ext hrun rfl)
    rcases Runner.run_recounted hgoes with huntold | ⟨d, o, c, ⟨w, hhead, hjob⟩, -, hsteps, htells, hof⟩
    · obtain ⟨e, he, -⟩ := huntold.refused _ rfl
      cases he
    have hfirst : (launched.path field).head? = some (field, field) := rfl
    cases hhead.symm.trans hfirst
    obtain rfl : survey = d := Option.some.inj hjob
    rcases hof.finished with ⟨-, hnone⟩ | ⟨outcome, sealed, millis, hattempt, honly, hfinish, -, -, hstored⟩
    · exact absurd rfl (hnone report)
    cases honly.2 _ (.done _)
    have hcame : outcome.status = .completed := hstatus
    obtain ⟨htold, hsame⟩ := hof.left _ _ hattempt
    refine ⟨_, o, c, millis, hgoes, hsteps, ?_, htold, hsame.symm.trans hcompleted, hstored⟩
    rw [htells.heard fun s hs => hlistened s (hsteps ▸ c.own_subset hs), hfinish, hcame]
  · cases hfindings

end Survey

end Switchyard
