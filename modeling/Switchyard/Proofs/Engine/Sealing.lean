import Mathlib.Data.List.Induction
import Switchyard.Proofs.Engine.Contained
import Switchyard.Proofs.Engine.Journey
import Switchyard.Proofs.Engine.WriteAhead

/-
  Switchyard.Proofs.Engine.Sealing — sealing a record confirms what was stored after the
  last node.

  What an attempt has finished is booked twice: its record notes every visit, and its
  traversal folds every visit into its progress. On a restart they do not begin alike, for
  the progress knows of the attempt before; from the first visit on they agree
  (`Record.agrees_noting`), whatever the visits came to. The seal writes what the traversal
  has over what the record has, and so changes nothing but the end of the attempt
  (`Record.Seals`).

  The record was stored after the last node (`Stored`), and nothing that the attempt does
  from there on to its seal has to do with the history. So an attempt that is cut off there
  leaves all it has finished in the history, and is abandoned with the same.

  - `Runner.seal_confirms`: all of this for every attempt that is begun, whatever others do
    between two of its steps.
-/

namespace Switchyard

variable {σ : Type}

/-! ## The two books -/

namespace Record

def Fresh (r : Record) : Prop :=
  ∃ id now instanceId job attempt parameters context,
    r = Record.start id now instanceId job attempt parameters context

/-- The record with visits noted in it one by one, as they are folded into a progress. -/
def noting (r : Record) (p : Progress) : Visits → Record
  | [] => r
  | (id, v) :: rest => (Executor.noted r (p.apply id v) ⟨id, v.status, v.exit⟩).noting (p.apply id v) rest

structure Agrees (r : Record) (p : Progress) : Prop where
  completed : r.completed = p.completed
  lastNode : r.lastNode = p.last.map (·.node)
  lastExit : r.lastExit = p.last.map (·.exit)
  branches : r.branches = p.splits
  context : r.context = p.context

/-- The record is sealed, and but for its end it is this one. -/
structure Seals (sealed last : Record) : Prop where
  isSealed : sealed.isSealed = true
  completed : sealed.completed = last.completed
  lastNode : sealed.lastNode = last.lastNode
  lastExit : sealed.lastExit = last.lastExit
  branches : sealed.branches = last.branches
  context : sealed.context = last.context
  rest : { sealed with
    finalStatus := last.finalStatus
    finalExit := last.finalExit
    restartNode := last.restartNode
    failure := last.failure
    ended := last.ended } = last

variable {r first : Record}

theorem Fresh.reflects (h : first.Fresh) : first.Reflects first [] := by
  obtain ⟨id, now, instanceId, job, attempt, parameters, context, rfl⟩ := h
  exact .start

theorem noting_concat (r : Record) (p : Progress) (vs : Visits) (id : String) (v : Visit) :
    r.noting p (vs ++ [(id, v)]) =
      Executor.noted (r.noting p vs) ((p.after vs).apply id v) ⟨id, v.status, v.exit⟩ := by
  induction vs generalizing r p with
  | nil => rfl
  | cons x rest ih => exact ih _ _

theorem Fresh.reflects_noting (h : first.Fresh) (flow : String) (last : Option NodeOutcome) (vs : Visits) :
    (first.noting (Progress.start flow first.context last) vs).Reflects first vs := by
  induction vs using List.reverseRecOn with
  | nil => exact h.reflects
  | append_singleton vs x ih =>
    rw [noting_concat]
    exact ih.noted flow last x.1 x.2

/-- From the first visit on the two books agree, whatever was the last visit of the attempt
    before. -/
theorem agrees_noting (h : first.Fresh) (flow : String) (last : Option NodeOutcome) {vs : Visits} (hvs : vs ≠ []) :
    (first.noting (Progress.start flow first.context last) vs).Agrees
      ((Progress.start flow first.context last).after vs) := by
  obtain ⟨o, hlast⟩ : ∃ o, vs.last? = some o := by
    rw [Visits.last?, List.getLast?_eq_some_getLast hvs]
    exact ⟨_, rfl⟩
  obtain ⟨-, -, hcompleted, hnode, hexit, hcontext, hbranches⟩ := h.reflects_noting flow last vs
  rw [hlast] at hnode hexit
  rw [Progress.after_eq]
  exact ⟨hcompleted, by rw [hnode, hlast]; rfl, by rw [hexit, hlast]; rfl, hbranches, hcontext⟩

/-- To seal a record with what its traversal ended with, where the two books agree. -/
theorem seals_closed {last : Record} (hlast : last.Continues first) {p : Progress} (hagrees : last.Agrees p)
    (status : Status) (exit : Exit) (restart : Option String) (failure : Option Failure) (now : Instant) :
    (first.closed (Executor.ending p (p.finish status exit restart failure)) now).Seals last := by
  obtain ⟨hcompleted, hnode, hexit, hbranches, hcontext⟩ := hagrees
  refine ⟨rfl, hcompleted.symm, hnode.symm, hexit.symm, hbranches.symm, hcontext.symm, ?_⟩
  rw [← hlast]
  simp only [closed, Executor.ending, Progress.finish, ← hcompleted, ← hnode, ← hexit, ← hbranches, ← hcontext]

/-- A record that is still open is abandoned with all that was noted in it. -/
theorem exists_seals_of_open (h : r.finalStatus = none) (now : Instant) :
    ∃ marker, r.abandon? now = some marker ∧ marker.Seals r := by
  have hopen : r.isSealed = false := by simp [isSealed, h]
  exact ⟨_, if_neg (by simp [hopen]), rfl, rfl, rfl, rfl, rfl, rfl, rfl⟩

end Record

/-! ## What is stored, and what comes after -/

def World.storing (w : World σ) (r : Record) : World σ := { w with repository := (w.repository.append r).2 }

abbrev Unstored (steps : List (World σ × World σ)) : Prop := ∀ s ∈ steps, s.2.repository = s.1.repository

/-- The record was stored, and nothing was from there on. -/
inductive Stored (r : Record) (steps : List (World σ × World σ)) : Prop
  | mk {before after : List (World σ × World σ)} {w : World σ} : steps = before ++ (w, w.storing r) :: after →
      (w.repository.append r).1 = .ok () → Unstored after → Stored r steps

namespace Stored

variable {r : Record} {steps : List (World σ × World σ)}

theorem append (h : Stored r steps) {after : List (World σ × World σ)} (hafter : Unstored after) :
    Stored r (steps ++ after) := by
  obtain ⟨rfl, hok, hrest⟩ := h
  exact ⟨List.append_assoc .., hok, fun s hs => (List.mem_append.mp hs).elim (hrest s) (hafter s)⟩

theorem prepend (before : List (World σ × World σ)) (h : Stored r steps) : Stored r (before ++ steps) := by
  obtain ⟨rfl, hok, hrest⟩ := h
  exact ⟨(List.append_assoc ..).symm, hok, hrest⟩

end Stored

namespace Checkpoint

variable {r : Record} {steps : List (World σ × World σ)}

/-- Storing a record takes the history one step. -/
theorem goes_persist {y : Act σ (Except CheckpointError Unit)} (h : (persist r : Act σ _).Goes steps y) :
    (steps = [] ∧ y.Open) ∨ ∃ w : World σ, steps = [(w, w.storing r)] ∧
      ∀ x, y = pure x → (x = .ok () ↔ (w.repository.append r).1 = .ok ()) := by
  cases h with
  | here => exact Or.inl ⟨rfl, nofun⟩
  | step w h =>
    refine Or.inr ⟨w, ?_⟩
    dsimp only [World.storing] at h ⊢
    generalize w.repository.append r = appended at h ⊢
    obtain ⟨(e | _) | u, repository⟩ := appended
    · obtain ⟨rfl, rfl⟩ := Act.goes_pure h
      exact ⟨rfl, by rintro x ⟨⟩; simp⟩
    · cases h
      exact ⟨rfl, nofun⟩
    · obtain ⟨rfl, rfl⟩ := Act.goes_pure h
      exact ⟨rfl, by rintro x ⟨⟩; simp⟩

/-- So does storing it and seeing to the live view then. -/
theorem goes_stored {x : Act σ Unit} (hx : x.Spares World.repository) {y : Act σ (Except CheckpointError Unit)}
    (h : (do
      match ← persist r with
      | .ok () =>
        x
        return .ok ()
      | .error e => return .error e : Act σ (Except CheckpointError Unit)).Goes steps y) :
    (steps = [] ∧ y.Open) ∨ ∃ w rest, steps = (w, w.storing r) :: rest ∧ Unstored rest ∧
      ∀ a, y = pure a → (a = .ok () ↔ (w.repository.append r).1 = .ok ()) := by
  rcases Act.goes_bind_open h with ⟨y, hstore, hopen, rfl⟩ | ⟨stored, storing, steps, rfl, hstore, h⟩
  · rcases goes_persist hstore with ⟨rfl, -⟩ | ⟨w, rfl, -⟩
    · exact Or.inl ⟨rfl, hopen.bind _⟩
    · exact Or.inr ⟨w, [], rfl, by simp, fun a ha => absurd ha (hopen.bind _ _)⟩
  rcases goes_persist hstore with ⟨-, hopen⟩ | ⟨w, rfl, hstored⟩
  · exact absurd rfl (hopen stored)
  refine Or.inr ⟨w, steps, rfl, ?_⟩
  rcases stored with e | u
  · obtain ⟨rfl, rfl⟩ := Act.goes_pure h
    refine ⟨by simp, ?_⟩
    rintro a ⟨⟩
    simpa using hstored _ rfl
  · refine ⟨(hx.bind fun _ => .pure).goes h, ?_⟩
    rintro a rfl
    obtain ⟨_, before, after, -, -, hdone⟩ := Act.goes_bind_pure h
    cases (Act.goes_pure hdone).2
    simpa using hstored _ rfl

end Checkpoint

/-! ## Leaving a node -/

namespace Executor

variable {ex : Executor σ} {walk : BranchWalk σ} {g : Graph} {node : Node Graph} {pos : Position} {v : Visit}

theorem spares_settle {β : Type} {f : World σ → β} (hf : ∀ w live, f { w with live } = f w) (ex : Executor σ)
    (node : Node Graph) (v : Visit) (p : Progress) (kept : Except CheckpointError Unit × Option Record) :
    (settle ex node v p kept).Spares f := by
  obtain ⟨e | u, record⟩ := kept
  · exact .pure
  · simp only [settle]
    split
    · exact (spares_ended hf ex record _ _).bind fun _ => .pure
    · refine (spares_setPhase hf ex record _ _).bind fun _ => .bind (.update fun _ => rfl) fun stopping => ?_
      split
      · exact (spares_ended hf ex record _ _).bind fun _ => .pure
      · exact .pure

theorem record_onward {r : Record} (hrec : pos.record = some r) (target : String) :
    (pos.onward node v target).record =
      some (noted r (pos.progress.apply node.id v) ⟨node.id, v.status, v.exit⟩) := by
  simp only [Position.onward, Position.kept, hrec, Option.map_some]
  rfl

theorem spares_changeLive (id : InstanceId) (f : Snapshot → Snapshot) :
    (Checkpoint.changeLive id f : Act σ Unit).Spares World.repository := .update fun _ => rfl

/-- Unless its record could not be stored, a node is left with its visit stored, and nothing is
    stored after that. -/
theorem stored_of_leave {r : Record} (hrec : pos.record = some r) {started : Nat} {steps : List (World σ × World σ)}
    {turn : Turn} (h : (leave ex g node pos started v).Goes steps (pure turn))
    (hturn : ∀ e kept, turn ≠ .done (.error (.checkpoint e), kept)) :
    Stored (noted r (pos.folded node v) ⟨node.id, v.status, v.exit⟩) steps := by
  rw [leave_eq, hrec] at h
  obtain ⟨finished, timing, steps, rfl, -, h⟩ := Act.goes_bind_pure h
  obtain ⟨_, telling, steps, rfl, -, h⟩ := Act.goes_bind_pure h
  obtain ⟨⟨stored, record⟩, keeping, steps, rfl, hkeep, h⟩ := Act.goes_bind_pure h
  refine .prepend _ (.prepend _ ?_)
  rcases stored with e | u
  · cases (Act.goes_pure h).2
    exact absurd rfl (hturn e record)
  refine .append ?_ ((spares_settle (fun _ _ => rfl) ex node v _ _).goes h)
  obtain ⟨y, hstore, hy⟩ := Act.goes_map hkeep
  cases y with
  | done a =>
    cases hy
    rcases Checkpoint.goes_stored (spares_changeLive _ _) hstore with ⟨-, hopen⟩ | ⟨w, rest, rfl, hrest, hok⟩
    · exact absurd rfl (hopen _)
    · exact .mk (List.nil_append _).symm ((hok _ rfl).mp rfl) hrest
  | broken => cases hy
  | step => cases hy

namespace Journey

variable {room : Nat} {made before after : List (Station σ)} {s : Station σ} {closing : List (World σ × World σ)}
  {y : Act σ Walked} {r : Record}

/-- Where a node is entered, the record has the visits before noted in it. -/
theorem record_eq (h : Journey ex walk g room pos made closing y) (hrec : pos.record = some r)
    (hmade : made = before ++ s :: after) : s.pos.record = some (r.noting pos.progress (Station.visits before)) := by
  induction h generalizing before r with
  | unknown => simp at hmade
  | full => simp at hmade
  | onward _ _ _ hleave _ ih =>
    cases before with
    | nil =>
      obtain ⟨rfl, -⟩ := List.cons.inj hmade
      exact hrec
    | cons first before =>
      obtain ⟨rfl, hrest⟩ := List.cons.inj hmade
      obtain ⟨target, rfl⟩ := onward_eq hleave
      rw [Station.visits_cons rfl]
      exact ih (record_onward hrec target) hrest
  | _ =>
    cases before with
    | nil =>
      obtain ⟨rfl, -⟩ := List.cons.inj hmade
      exact hrec
    | cons => simp at hmade

/-- In a traversal that has come to an end, so has every visit. -/
theorem visited (h : Journey ex walk g room pos made closing y) {x : Walked} (hy : y = pure x) (hs : s ∈ made) :
    ∃ v, s.visit? = some v := by
  induction h with
  | unknown => cases hs
  | full => cases hs
  | entering _ _ hopen => exact absurd hy (hopen.bind _ _)
  | visiting _ _ _ hopen => exact absurd hy (hopen.bind _ _)
  | leaving _ _ _ _ hopen => exact absurd hy (hopen.bind _ _)
  | done =>
    rw [List.mem_singleton.mp hs]
    exact ⟨_, rfl⟩
  | onward _ _ _ _ _ ih =>
    rcases List.mem_cons.mp hs with rfl | hs
    · exact ⟨_, rfl⟩
    · exact ih hy hs

/-- The record that a traversal ends with has all visits noted in it. -/
theorem kept_eq (h : Journey ex walk g room pos made closing y) (hrec : pos.record = some r)
    {x : Except FlowError Traversal} {kept : Option Record} (hy : y = pure (x, kept)) :
    kept = some (r.noting pos.progress (Station.visits made)) := by
  induction h generalizing r with
  | unknown =>
    cases hy
    exact hrec
  | full _ hended =>
    obtain ⟨-, hx⟩ := yields_exceed (hy ▸ hended).yields
    cases hx
    exact hrec
  | entering _ _ hopen => exact absurd hy (hopen.bind _ _)
  | visiting _ _ _ hopen => exact absurd hy (hopen.bind _ _)
  | leaving _ _ _ _ hopen => exact absurd hy (hopen.bind _ _)
  | done _ _ _ hleave =>
    cases hy
    cases parted_of_leave hleave <;> simp only [Position.kept, hrec, Option.map_some] <;> rfl
  | onward _ _ _ hleave _ ih =>
    obtain ⟨target, rfl⟩ := onward_eq hleave
    rw [Station.visits_cons rfl]
    exact ih (record_onward hrec target) hy

/-- A traversal that comes to an outcome has stored its last visit and nothing after that. -/
theorem stored (h : Journey ex walk g room pos made closing y) (hrec : pos.record = some r) (hmade : made ≠ [])
    {t : Traversal} {kept : Option Record} (hy : y = pure (.ok t, kept)) :
    Stored (r.noting pos.progress (Station.visits made)) (made.flatMap Station.steps ++ closing) := by
  induction h generalizing r with
  | unknown => exact absurd rfl hmade
  | full => exact absurd rfl hmade
  | entering _ _ hopen => exact absurd hy (hopen.bind _ _)
  | visiting _ _ _ hopen => exact absurd hy (hopen.bind _ _)
  | leaving _ _ _ _ hopen => exact absurd hy (hopen.bind _ _)
  | done _ _ _ hleave =>
    cases hy
    have hstored := stored_of_leave hrec hleave (by rintro _ _ ⟨⟩)
    rw [Station.visits_cons rfl, Station.visits_nil]
    simpa [Station.steps, Record.noting, Position.folded] using hstored.prepend (_ ++ _)
  | @onward room pos next node entering visiting leaving started v made closing y _ _ _ hleave hrest ih =>
    have hstored := stored_of_leave hrec hleave (by rintro _ _ ⟨⟩)
    obtain ⟨target, rfl⟩ := onward_eq hleave
    cases made with
    | nil =>
      cases hrest with
      | unknown => cases hy
      | full _ hended =>
        have hstill : Unstored closing := (spares_exceed (fun _ _ => rfl) ex _ _).goes hended
        rw [Station.visits_cons rfl, Station.visits_nil]
        simpa [Station.steps, Record.noting, Position.folded] using (hstored.append hstill).prepend (entering ++ visiting)
    | cons s rest =>
      have hlater := ih (record_onward hrec target) (by simp) hy
      rw [Station.visits_cons rfl, List.flatMap_cons, List.append_assoc]
      exact hlater.prepend _

/-- Where a node is entered after another one, the record in hand is the one that was stored
    when that was left. -/
theorem stored_before (h : Journey ex walk g room pos made closing y) (hrec : pos.record = some r) {t : Station σ}
    (hmade : made = before ++ t :: s :: after) : ∃ kept, s.pos.record = some kept ∧ Stored kept t.leaving := by
  induction h generalizing before r with
  | unknown => simp at hmade
  | full => simp at hmade
  | onward _ _ _ hleave hrest ih =>
    have hstored := stored_of_leave hrec hleave (by rintro _ _ ⟨⟩)
    obtain ⟨target, rfl⟩ := onward_eq hleave
    cases before with
    | nil =>
      obtain ⟨rfl, hs⟩ := List.cons.inj hmade
      exact ⟨_, hrest.record_eq (record_onward hrec target) (hs.trans (List.nil_append _).symm), hstored⟩
    | cons => exact ih (record_onward hrec target) (List.cons.inj hmade).2
  | _ => cases before <;> simp at hmade

end Journey

/-! ## Sealing -/

/-- To seal an attempt takes the history one step. -/
theorem goes_closing {first : Record} {t : Traversal} {steps : List (World σ × World σ)}
    {x : Act σ (Except FlowError FlowOutcome × Record)} (h : (closing first t).Goes steps x) :
    (Unstored steps ∧ x.Open) ∨ ∃ now w before after,
      steps = before ++ (w, w.storing (first.closed t now)) :: after ∧ Unstored before ∧ Unstored after ∧
      ∀ res r, x = pure (res, r) →
        r = first.closed t now ∧ ∀ o, res = .ok o → o = t.outcome ∧ (w.repository.append r).1 = .ok () := by
  have hnow : (Act.now : Act σ Instant).Spares World.repository := .update fun _ => rfl
  rcases Act.goes_bind_open h with ⟨y, hlook, hopen, rfl⟩ | ⟨now, before, steps, rfl, hlook, h⟩
  · exact Or.inl ⟨hnow.goes hlook, hopen.bind _⟩
  have hbefore : Unstored before := hnow.goes hlook
  have hdiscard : (Checkpoint.discard (first.closed t now).instanceId : Act σ Unit).Spares World.repository :=
    .update fun _ => rfl
  rcases Act.goes_bind_open h with ⟨y, hstore, hopen, rfl⟩ | ⟨stored, storing, after, rfl, hstore, h⟩
  · rcases Checkpoint.goes_stored hdiscard hstore with ⟨rfl, -⟩ | ⟨w, rest, rfl, hrest, -⟩
    · exact Or.inl ⟨by simpa using hbefore, hopen.bind _⟩
    · exact Or.inr ⟨now, w, before, rest, rfl, hbefore, hrest, fun res r hx => absurd hx (hopen.bind _ _)⟩
  rcases Checkpoint.goes_stored hdiscard hstore with ⟨-, hopen⟩ | ⟨w, rest, rfl, hrest, hok⟩
  · exact absurd rfl (hopen stored)
  refine Or.inr ⟨now, w, before, rest, ?_, hbefore, hrest, ?_⟩
  · rcases stored with e | u <;> obtain ⟨rfl, -⟩ := Act.goes_pure h <;> simp
  · rcases stored with e | u
    · obtain ⟨-, rfl⟩ := Act.goes_pure h
      rintro res r ⟨⟩
      exact ⟨rfl, nofun⟩
    · obtain ⟨-, rfl⟩ := Act.goes_pure h
      rintro res r ⟨⟩
      exact ⟨rfl, fun o ho => ⟨(Except.ok.inj ho).symm, (hok _ rfl).mp rfl⟩⟩

end Executor

/-- What an attempt whose flow has come to an end had stored: its record after the last node,
    and nothing from there on until the sealed record was to be stored, if it came to that. -/
inductive Sealing (last : Record) (steps : List (World σ × World σ)) : Option Record → Prop
  | ahead : Stored last steps → Sealing last steps none
  | over {before after : List (World σ × World σ)} {w : World σ} {r : Record} :
      steps = before ++ (w, w.storing r) :: after → Stored last before → Unstored after → Sealing last steps (some r)

namespace Tour

open Executor (Station)

/-- An attempt as far as it has come: its flow is under way, has failed, or has come to an end
    and the record is sealed. -/
inductive Executes (u : Tour σ) (first : Record) :
    List (World σ × World σ) → List (Station σ) → Act σ (Except FlowError FlowOutcome × Record) → Prop
  | walking {steps : List (World σ × World σ)} {made : List (Station σ)} {y : Act σ Executor.Walked}
      {x : Act σ (Except FlowError FlowOutcome × Record)} : u.Travels steps made y → y.Open → x.Open →
      Executes u first steps made x
  | failed {steps : List (World σ × World σ)} {made : List (Station σ)} {e : FlowError} {kept : Option Record} :
      u.Travels steps made (pure (.error e, kept)) → Executes u first steps made (pure (.error e, kept.getD first))
  | closing {walking closing : List (World σ × World σ)} {made : List (Station σ)} {t : Traversal}
      {kept : Option Record} {x : Act σ (Except FlowError FlowOutcome × Record)} :
      u.Travels walking made (pure (.ok t, kept)) → (Executor.closing first t).Goes closing x →
      Executes u first (walking ++ closing) made x

def begun (u : Tour σ) : Progress := Progress.start u.graph.name u.context u.start.last

variable {u : Tour σ} {first : Record} {steps : List (World σ × World σ)} {made : List (Station σ)}
  {y : Act σ Executor.Walked}

namespace Travels

theorem record_eq (h : u.Travels steps made y) (hrec : u.record = some first) {before after : List (Station σ)}
    {s : Station σ} (hmade : made = before ++ s :: after) :
    s.pos.record = some (first.noting u.begun (Station.visits before)) ∧
      s.pos.progress = u.begun.after (Station.visits before) := by
  cases h with
  | opening => simp at hmade
  | underway _ hjourney => exact ⟨hjourney.record_eq hrec hmade, hjourney.progress_eq hmade⟩

theorem stored_before (h : u.Travels steps made y) (hrec : u.record = some first) {before after : List (Station σ)}
    {t s : Station σ} (hmade : made = before ++ t :: s :: after) :
    ∃ kept, s.pos.record = some kept ∧ Stored kept t.leaving := by
  cases h with
  | opening => simp at hmade
  | underway _ hjourney => exact hjourney.stored_before hrec hmade

theorem visited {x : Executor.Walked} (h : u.Travels steps made (pure x)) {s : Station σ} (hs : s ∈ made) :
    ∃ v, s.visit? = some v := by
  generalize hy : (pure x : Act σ Executor.Walked) = y at h
  cases h with
  | opening => cases hs
  | underway _ hjourney => exact hjourney.visited hy.symm hs

theorem kept_eq {x : Except FlowError Traversal} {kept : Option Record} (h : u.Travels steps made (pure (x, kept)))
    (hrec : u.record = some first) : kept = some (first.noting u.begun (Station.visits made)) := by
  generalize hy : (pure (x, kept) : Act σ Executor.Walked) = y at h
  cases h with
  | opening _ hopen => exact absurd hy.symm (hopen.bind _ _)
  | underway _ hjourney => exact hjourney.kept_eq hrec hy.symm

theorem finished {t : Traversal} {kept : Option Record} (h : u.Travels steps made (pure (.ok t, kept))) :
    ∃ status exit restart failure, t = Executor.ending (u.begun.after (Station.visits made))
      ((u.begun.after (Station.visits made)).finish status exit (some restart) failure) := by
  generalize hy : (pure (.ok t, kept) : Act σ Executor.Walked) = y at h
  cases h with
  | opening _ hopen => exact absurd hy.symm (hopen.bind _ _)
  | underway _ hjourney => exact hjourney.traversal_eq hy.symm

/-- Where there is room for a visit, there is no outcome without one. -/
theorem ne_nil {t : Traversal} {kept : Option Record} (h : u.Travels steps made (pure (.ok t, kept)))
    (hroom : u.ex.config.maxNodeVisits ≠ 0) : made ≠ [] := by
  rintro rfl
  generalize hy : (pure (.ok t, kept) : Act σ Executor.Walked) = y at h
  cases h with
  | opening _ hopen => exact absurd hy.symm (hopen.bind _ _)
  | underway _ hjourney =>
    generalize u.ex.config.maxNodeVisits = room at hroom hjourney
    cases hjourney with
    | unknown => cases hy
    | full => exact hroom rfl

theorem stored {t : Traversal} {kept : Option Record} (h : u.Travels steps made (pure (.ok t, kept)))
    (hrec : u.record = some first) (hmade : made ≠ []) :
    Stored (first.noting u.begun (Station.visits made)) steps := by
  generalize hy : (pure (.ok t, kept) : Act σ Executor.Walked) = y at h
  cases h with
  | opening _ hopen => exact absurd hy.symm (hopen.bind _ _)
  | underway _ hjourney =>
    rw [List.append_assoc]
    exact (hjourney.stored hrec hmade hy.symm).prepend _

end Travels

/-- How the record of an attempt is kept and sealed. -/
structure Confirms (u : Tour σ) (first : Record) : Prop where
  divides : ∀ steps x, (u.ex.execute u.graph u.start first).Goes steps x → ∃ made, u.Executes first steps made x
  /-- The two books agree from the first visit on, whatever visits are made. -/
  agrees : ∀ vs, vs ≠ [] → (first.noting u.begun vs).Agrees (u.begun.after vs)
  /-- Where a node is entered, both have the visits before. -/
  booked : ∀ steps made y, u.Travels steps made y → ∀ before s after, made = before ++ s :: after →
    s.pos.record = some (first.noting u.begun (Station.visits before)) ∧
      s.pos.progress = u.begun.after (Station.visits before)
  /-- Without an outcome nothing is sealed. -/
  unsealed : ∀ steps made e kept, u.Travels steps made (pure (.error e, kept)) → (kept.getD first).finalStatus = none
  /-- Once a flow that visited a node has come to an end, its record is in the history as it was
      after the last node, and nothing but the sealed record follows it there. -/
  confirmed : ∀ walking made t kept, u.Travels walking made (pure (.ok t, kept)) → made ≠ [] →
    ∀ closing x, (Executor.closing first t).Goes closing x →
      ∃ sealed?, Sealing (first.noting u.begun (Station.visits made)) (walking ++ closing) sealed? ∧
        (∀ r ∈ sealed?, r.Seals (first.noting u.begun (Station.visits made))) ∧
        ∀ res r, x = pure (res, r) → sealed? = some r
  /-- Until then it is open. An attempt that was cut off may be abandoned, with all it had
      finished. -/
  abandoned : ∀ vs, (first.noting u.begun vs).finalStatus = none ∧
    ∀ now, ∃ marker, (first.noting u.begun vs).abandon? now = some marker ∧ marker.Seals (first.noting u.begun vs)

theorem reflects_begun (hcontext : u.context = first.context) (hfresh : first.Fresh) (vs : Visits) :
    (first.noting u.begun vs).Reflects first vs := by
  rw [begun, hcontext]
  exact hfresh.reflects_noting _ _ vs

theorem confirms (hown : u.act = u.ex.traverseGraph u.graph u.start first.context (some first))
    (hcontext : u.context = first.context) (hrec : u.record = some first) (hfresh : first.Fresh) :
    u.Confirms first := by
  have hbooks := reflects_begun hcontext hfresh
  have hagrees : ∀ vs, vs ≠ [] → (first.noting u.begun vs).Agrees (u.begun.after vs) := fun vs hvs => by
    rw [begun, hcontext]
    exact Record.agrees_noting hfresh _ _ hvs
  refine ⟨fun steps x h => ?_, hagrees, fun _ _ _ h _ _ _ hmade => h.record_eq hrec hmade, fun steps made e kept h => ?_,
    fun walking made t kept h hmade closing x hclosing => ?_, fun vs =>
      ⟨(hbooks vs).running, Record.exists_seals_of_open (hbooks vs).running⟩⟩
  · rw [Executor.execute, ← hown] at h
    rcases Act.goes_bind_open h with ⟨y, hwalk, hopen, rfl⟩ | ⟨⟨x, kept⟩, walking, closing, rfl, hwalk, h⟩
    · obtain ⟨made, htravels⟩ := goes_iff_travels.mp hwalk
      exact ⟨made, .walking htravels hopen (hopen.bind _)⟩
    obtain ⟨made, htravels⟩ := goes_iff_travels.mp hwalk
    rcases x with e | t
    · obtain ⟨rfl, rfl⟩ := Act.goes_pure h
      exact ⟨made, by simpa using Executes.failed htravels⟩
    · have hcontinues : (kept.getD first).Continues first := by
        rw [htravels.kept_eq hrec]
        exact (hbooks _).attempt
      exact ⟨made, .closing htravels (Executor.closing_eq hfresh.reflects.running hcontinues t ▸ h)⟩
  · rw [h.kept_eq hrec]
    exact (hbooks _).running
  · have hstored := h.stored hrec hmade
    obtain ⟨status, exit, restart, failure, ht⟩ := h.finished
    have hvisits : Station.visits made ≠ [] := by
      obtain ⟨s, rest, rfl⟩ := List.exists_cons_of_ne_nil hmade
      obtain ⟨v, hv⟩ := h.visited List.mem_cons_self
      simp [Station.visits_cons hv]
    have hseals : ∀ now, (first.closed t now).Seals (first.noting u.begun (Station.visits made)) := fun now => by
      rw [ht]
      exact Record.seals_closed (hbooks _).attempt (hagrees _ hvisits) status exit (some restart) failure now
    rcases Executor.goes_closing hclosing with ⟨hstill, hopen⟩ | ⟨now, w, before, after, rfl, hbefore, hafter, hx⟩
    · exact ⟨none, .ahead (hstored.append hstill), by simp, fun res r hx => absurd hx (hopen _)⟩
    · refine ⟨some (first.closed t now), .over (List.append_assoc ..).symm (hstored.append hbefore) hafter, ?_, ?_⟩
      · rintro r ⟨⟩
        exact hseals now
      · intro res r hpure
        rw [(hx res r hpure).1]

end Tour

namespace Runner

theorem fresh_of_begin? {d : Definition} {id : InstanceId} {parameters : Parameters} {start : FlowStart}
    {record : Record} (h : (begin? d id parameters : Act σ _).Yields (.ok (start, record))) : record.Fresh := by
  rcases yields_begin? h with ⟨latest, point, fresh, now, -, hbegun⟩ | ⟨e, he, -⟩
  · cases hbegun
    exact ⟨_, _, _, _, _, _, _, rfl⟩
  · cases he

/-- Every attempt begins with a fresh record, and whatever others do between two of its steps,
    its record and its traversal agree from the first visit on. If it comes to an outcome after
    a visit, the record stored after the last one stays what the history has until the seal,
    and the seal changes nothing in it but the end. -/
theorem seal_confirms (r : Runner σ) (inner : Run σ) (depth : Nat) (d : Definition) :
    (∀ id parameters start record, (begin? d id parameters : Act σ _).Yields (.ok (start, record)) → record.Fresh) ∧
    ∀ o : Opened σ, o.record.Fresh → (r.tourOf inner depth d o).Confirms o.record :=
  ⟨fun _ _ _ _ h => fresh_of_begin? h, fun _ hfresh => Tour.confirms rfl rfl rfl hfresh⟩

end Runner

/-! ### A survey that is taken up again -/

namespace Survey

def plot (name : String) : Graph := ⟨name, name, [⟨name, .step name, []⟩]⟩

def survey : Definition :=
  { graph := ⟨"survey", "plots",
      [⟨"plots", .split [plot "north", plot "south"], [.goto "*" "map"]⟩,
        ⟨"map", .step "map", [.goto "FAILED" "plots", Transition.complete "COMPLETED"]⟩]⟩ }

def units : Units Nat :=
  { step := fun name => some fun _ maps =>
      if name = "map" then .finish (maps + 1) (if maps = 0 then .error ["smudged"] else .result
        { status := .completed, exit := Exit.completed, updates := Dict.empty.insert "maps" (.int (maps + 1)) })
      else .finish maps (.result { status := .completed, exit := Exit.completed })
    decider := fun _ => none }

def runner : Runner Nat := { config := {}, units }

def second : Opened Nat :=
  { start := { node := "plots", last := some ⟨"map", .stopped, Exit.stopped⟩ }
    record := Record.start (ExecutionId.numbered 0 1) (Instant.ofSeconds 0 0) ⟨"survey"⟩ "survey" 2 Dict.empty Dict.empty
    token := 0
    world :=
      { repository := { store := .shelf Shelf.empty }
        bus := Bus.ofCapacity 4
        clock := { origin := Instant.ofSeconds 0 0 }
        memory := 0 } }

def attempt : Act Nat (Except FlowError FlowOutcome × Record) :=
  (runner.executorOf (runner.run 0) 0 second).execute survey.graph second.start second.record

def sealed? : Option Record :=
  match (attempt.run second.world).1 with
  | .ok (_, r) => some r
  | .error _ => none

theorem sealed_of_attempt : sealed?.map (fun r => (r.isSealed, r.completed, r.lastNode, r.branches.keys)) =
    some (true, ["plots", "plots", "map"], some "map", ["plots"]) := by
  decide +kernel

/-- The record stored after the second map has all of it, and is open. -/
theorem survey_confirmed : ∃ (last sealed : Record) (res : Except FlowError FlowOutcome),
    attempt.Goes (attempt.path second.world) (pure (res, sealed)) ∧
      Sealing last (attempt.path second.world) (some sealed) ∧ sealed.Seals last ∧ last.finalStatus = none ∧
      last.completed = ["plots", "plots", "map"] ∧ last.lastNode = some "map" ∧ last.branches.keys = ["plots"] := by
  obtain ⟨-, hconfirms⟩ := runner.seal_confirms (runner.run 0) 0 survey
  have h := hconfirms second ⟨_, _, _, _, _, _, _, rfl⟩
  obtain ⟨sealed, hsealed, hfound⟩ := Option.map_eq_some_iff.mp sealed_of_attempt
  obtain ⟨hisSealed, hcompleted, hnode, hkeys⟩ := by simpa only [Prod.mk.injEq] using hfound
  unfold sealed? at hsealed
  split at hsealed
  next res r hrun =>
    obtain rfl := Option.some.inj hsealed
    have hgoes : attempt.Goes (attempt.path second.world) (pure (res, r)) := Act.goes_path (Prod.ext hrun rfl)
    generalize attempt.path second.world = steps at hgoes ⊢
    obtain ⟨made, hexecutes⟩ := h.divides _ _ hgoes
    generalize hx : (pure (res, r) : Act Nat _) = x at hexecutes
    cases hexecutes with
    | walking _ _ hopen => exact absurd hx.symm (hopen _)
    | failed hfailed =>
      cases hx
      rw [Record.isSealed, h.unsealed _ _ _ _ hfailed] at hisSealed
      cases hisSealed
    | closing htravels hclosing =>
      obtain ⟨sealed?, hsealing, hseals, hover⟩ :=
        h.confirmed _ _ _ _ htravels (htravels.ne_nil (by decide)) _ _ hclosing
      obtain rfl := hover _ _ hx.symm
      have hsame := hseals r rfl
      exact ⟨_, r, res, hgoes, hsealing, hsame, (h.abandoned _).1, hsame.completed.symm.trans hcompleted,
        hsame.lastNode.symm.trans hnode, (congrArg Dict.keys hsame.branches).symm.trans hkeys⟩
  · cases hsealed

end Survey

end Switchyard
