import Switchyard.Engine.Runner
import Switchyard.Proofs.Engine.Positions

/-
  Switchyard.Proofs.Engine.Frame — what a traversal leaves alone.

  The core of a world is the history, the schedule of its faults, the claims and the
  count of identifiers. A traversal changes it only where a unit or a launching node
  asks for something, and where its record is stored; it publishes nothing but that its
  own nodes start and finish; and of the live views it changes its own attempt's, and the
  status of one whose attempt a unit asks to stop. Units waiting, deadlines, splits and
  the order of their branches have no part in it.

  A `Manner` of acting is told by its parts: steps that leave core, channel and live
  views alone, and every stop that was asked for, are in it, and so is what is put together
  from actions in it.
  `has_traverseGraph` says that a traversal is in every manner in which its units ask,
  its nodes launch and tell, and its record is stored and followed in the live view. What
  happens between two steps of it plays no part in this.

  The same goes for a runner, whose requests are in every manner in which it runs jobs
  and abandons instances (`has_handle`). A claim that is taken is given back however the
  action under it ends (`meets_claim`, `meets_releasing`).

  - `keeping P`: never to leave the worlds whose core has `P`, if nobody else acts.
-/

namespace Switchyard

/-- What a world's history and claims are, and what they depend on. -/
structure Core where
  store : Store
  faults : Method → Nat → Option StoreError
  running : Dict Token
  millis : Nat
  issued : Nat

def World.core {σ : Type} (w : World σ) : Core :=
  { store := w.repository.store
    faults := w.repository.faults
    running := w.running
    millis := w.clock.originMillis
    issued := w.clock.issued }

def On {σ : Type} (P : Core → Prop) (w : World σ) : Prop := P w.core

variable {σ α : Type} {P : Core → Prop}

/-! ## Manners of acting -/

/-- A step that changes neither the core nor the channel nor a live view, and takes no
    request to stop back. -/
def Quiet (f : World σ → α × World σ) : Prop :=
  ∀ w, (f w).2.core = w.core ∧ (f w).2.bus = w.bus ∧ (f w).2.live = w.live ∧ w.cancelled ⊆ (f w).2.cancelled

/-- A manner of acting that whatever is put together from actions in it has as well. -/
structure Manner (σ : Type) where
  Has : {α : Type} → Act σ α → Prop
  pure : ∀ {α : Type} (a : α), Has (Pure.pure a)
  broken : ∀ {α : Type} (h : Halt), Has (Act.broken h : Act σ α)
  quiet : ∀ {α : Type} {f : World σ → α × World σ}, Quiet f → Has (Act.update f)
  /-- Showing that an attempt is asked to stop. -/
  status : ∀ (id : InstanceId) (s : Status), Has (Checkpoint.setStatus id s)
  bind : ∀ {α β : Type} {x : Act σ α} {g : α → Act σ β}, Has x → (∀ a, x.Yields a → Has (g a)) → Has (x >>= g)
  attempt : ∀ {α : Type} {x : Act σ α}, Has x → Has x.attempt

def keeping (P : Core → Prop) : Manner σ :=
  { Has := fun x => x.Keeps (On P)
    pure := fun _ => .pure
    broken := fun _ => .broken
    quiet := fun h => .update fun w hw => by rwa [On, (h w).1]
    status := fun _ _ => .change fun _ hw => hw
    bind := fun hx hg => .bind_yields hx hg
    attempt := fun hx => hx.attempt }

namespace Manner

variable {M : Manner σ}

theorem find (f : World σ → α) : M.Has (Act.find f) :=
  M.quiet (f := fun w => (f w, w)) fun _ => ⟨rfl, rfl, rfl, List.Subset.refl _⟩

theorem change {f : World σ → World σ}
    (h : ∀ w, (f w).core = w.core ∧ (f w).bus = w.bus ∧ (f w).live = w.live ∧ w.cancelled ⊆ (f w).cancelled) :
    M.Has (Act.change f) :=
  M.quiet (f := fun w => ((), f w)) h

theorem now : M.Has (Act.now : Act σ Instant) := M.quiet fun _ => ⟨rfl, rfl, rfl, List.Subset.refl _⟩

theorem cancel (t : Token) : M.Has (Act.cancel t) :=
  M.change fun _ => ⟨rfl, rfl, rfl, List.subset_cons_self _ _⟩

theorem pass (target : Option Nat) : M.Has (Act.pass target) := by
  refine M.quiet fun w => ?_
  split <;> exact ⟨rfl, rfl, rfl, List.Subset.refl _⟩

theorem wait (millis : Nat) : M.Has (Act.wait millis) := by
  refine M.bind (M.find _) fun start _ => M.bind (M.pass _) fun expired _ => ?_
  cases expired with
  | none => exact M.pure _
  | some g => exact M.broken _

theorem forever : M.Has (Act.forever : Act σ α) := by
  refine M.bind (M.pass _) fun expired _ => ?_
  cases expired with
  | none => exact M.broken _
  | some g => exact M.broken _

theorem within {x : Act σ α} (seconds : Option Nat) (hx : M.Has x) : M.Has (Act.within seconds x) := by
  cases seconds with
  | none => exact M.bind hx fun a _ => M.pure _
  | some s =>
    refine M.bind (M.quiet fun _ => ⟨rfl, rfl, rfl, List.Subset.refl _⟩) fun guard _ => ?_
    refine M.bind (M.attempt hx) fun r _ => M.bind (M.change fun _ => ⟨rfl, rfl, rfl, List.Subset.refl _⟩) fun _ _ => ?_
    rcases r with (_ | _ | g | _) | a
    · exact M.broken _
    · exact M.broken _
    · dsimp only
      split
      · exact M.pure _
      · exact M.broken _
    · exact M.broken _
    · exact M.pure _

/-- A call to the history that changes no record and no fault. -/
theorem call {f : Repository → α × Repository} (h : ∀ r, (f r).2.store = r.store ∧ (f r).2.faults = r.faults) :
    M.Has (Act.call f) := by
  refine M.quiet fun w => ?_
  obtain ⟨hstore, hfaults⟩ := h w.repository
  simp [World.core, hstore, hfaults]

theorem list (id : InstanceId) : M.Has (Act.list id : Act σ (Except StoreError (List Record))) := by
  refine M.call fun r => ?_
  simp only [Repository.list, Repository.call]
  cases r.faults .list _ <;> exact ⟨rfl, rfl⟩

theorem listRecent (limit : Nat) : M.Has (Act.listRecent limit : Act σ (Except StoreError (List Record))) := by
  refine M.call fun r => ?_
  simp only [Repository.listRecent, Repository.call]
  cases r.faults .listRecent _ <;> exact ⟨rfl, rfl⟩

theorem loadLatest (id : InstanceId) : M.Has (Act.loadLatest id : Act σ (Except StoreError (Option Record))) := by
  refine M.call fun r => ?_
  simp only [Repository.loadLatest, Repository.call]
  cases r.faults .loadLatest _ <;> exact ⟨rfl, rfl⟩

end Manner

theorem Act.keeps_publish (e : Event) : (Act.publish e : Act σ Unit).Keeps (On P) := .change fun _ hw => hw

def Event.isNode : Event → Bool
  | .nodeStarted .. | .nodeFinished .. => true
  | .jobStarted .. | .jobFinished .. => false

def Event.instanceId? : Event → Option InstanceId
  | .nodeStarted .. | .nodeFinished .. => none
  | .jobStarted _ id .. | .jobFinished _ id .. => some id

theorem Event.instanceId?_of_isNode {e : Event} (h : e.isNode = true) : e.instanceId? = none := by
  cases e with
  | nodeStarted | nodeFinished => rfl
  | jobStarted | jobFinished => cases h

theorem instanceId_noted (r : Record) (p : Progress) (o : NodeOutcome) :
    (Executor.noted r p o).instanceId = r.instanceId := by
  unfold Executor.noted Record.note
  split <;> rfl

theorem instanceId_sealWith (r : Record) (o : FlowOutcome) (now : Instant) :
    ((r.sealWith? o now).getD r).instanceId = r.instanceId := by
  unfold Record.sealWith?
  split <;> rfl

/-- What the units of an executor ask for, what its nodes launch, and what it tells of
    them is in a manner. -/
structure Executor.Closed (ex : Executor σ) (M : Manner σ) : Prop where
  answer : ∀ r, M.Has (ex.answer r)
  launch : ∀ l, ex.launch = some l → ∀ job parameters depth, M.Has (l job parameters depth)
  tell : ∀ e : Event, e.isNode = true → e.id = ex.scope.id → M.Has (Act.publish e)

namespace Executor

variable {ex : Executor σ} {M : Manner σ}

/-! ## Visits -/

theorem has_remember (m : σ) : M.Has (remember m) := M.change fun _ => ⟨rfl, rfl, rfl, List.Subset.refl _⟩

theorem has_memory : M.Has (memory : Act σ σ) := M.find _

theorem has_reply (h : ex.Closed M) (r : Request) : M.Has (ex.reply r) := by
  cases r with
  | cancel => exact M.bind (M.cancel _) fun _ _ => M.pure _
  | _ => exact h.answer _

theorem has_perform (h : ex.Closed M) (s : Script σ α) : M.Has (ex.perform s) := by
  induction s with
  | finish m e =>
    refine M.bind (has_remember m) fun _ _ => ?_
    cases e with
    | result a => exact M.pure _
    | error chain => exact M.pure _
    | panic p => exact M.broken _
  | ask m r resume ih =>
    refine M.bind (has_remember m) fun _ _ => M.bind (has_reply h r) fun answer _ => ?_
    exact M.bind has_memory fun m _ => ih _ _
  | wait m millis resume ih =>
    exact M.bind (has_remember m) fun _ _ => M.bind (M.wait millis) fun _ _ => M.bind has_memory fun m _ => ih _
  | hang m => exact M.bind (has_remember m) fun _ _ => M.forever

theorem has_catchPanic {x : Act σ α} (hx : M.Has x) : M.Has (catchPanic x) := by
  refine M.bind (M.attempt hx) fun r _ => ?_
  rcases r with (p | _ | g | _) | a
  · exact M.pure _
  · exact M.broken _
  · exact M.broken _
  · exact M.broken _
  · exact M.pure _

theorem has_guarded (h : ex.Closed M) (s : Script σ α) : M.Has (ex.guarded s) := by
  refine M.bind (has_catchPanic (M.within _ (has_perform h s))) fun r _ => ?_
  rcases r with p | _ | chain | a
  all_goals exact M.pure _

theorem has_visitStep (h : ex.Closed M) (g : Graph) (node : Node Graph) (p : Progress) (name : String) :
    M.Has (ex.visitStep g node p name) := by
  simp only [visitStep]
  split
  · exact M.pure _
  · refine M.bind has_memory fun m _ => M.bind (has_guarded h _) fun r _ => ?_
    cases r <;> exact M.pure _

theorem has_visitDecision (h : ex.Closed M) (g : Graph) (node : Node Graph) (p : Progress) (name : String) :
    M.Has (ex.visitDecision g node p name) := by
  simp only [visitDecision]
  split
  · exact M.pure _
  · refine M.bind has_memory fun m _ => M.bind (has_guarded h _) fun r _ => ?_
    cases r <;> exact M.pure _

theorem has_visitSubJob (h : ex.Closed M) (p : Progress) (job : String) (keys : List String) :
    M.Has (ex.visitSubJob p job keys) := by
  simp only [visitSubJob]
  split
  · exact M.pure _
  next launch hlaunch =>
    split
    · exact M.pure _
    · refine M.bind (has_catchPanic (h.launch launch hlaunch _ _ _)) fun r _ => ?_
      rcases r with payload | (chain | ⟨status, exit⟩) <;> exact M.pure _

theorem has_allBegun (halted : List Halt) : M.Has (allBegun halted) := by
  simp only [allBegun]
  split
  · exact M.broken _
  · exact M.pure _

abbrev WalkHas (walk : BranchWalk σ) (M : Manner σ) : Prop :=
  ∀ branch start context, M.Has (walk branch start context)

variable {walk : BranchWalk σ}

theorem has_walkBranches (hwalk : WalkHas walk M) (context : Context) (halted : List Halt)
    (starts : List (Nat × Graph × FlowStart)) : M.Has (ex.walkBranches walk context halted starts) := by
  induction starts generalizing halted with
  | nil => exact has_allBegun halted
  | cons x rest ih =>
    obtain ⟨i, branch, start⟩ := x
    simp only [walkBranches]
    split
    · exact has_allBegun halted
    · refine M.bind (M.attempt (hwalk branch start context)) fun r _ => ?_
      rcases r with (_ | _ | _ | _) | e
      · exact M.bind (ih halted) fun ends _ => M.pure _
      · exact ih _
      · exact ih _
      · exact ih _
      · exact M.bind (ih halted) fun ends _ => M.pure _

theorem has_visitSplit (hwalk : WalkHas walk M) (p : Progress) (branches : List Graph)
    (prior : Option (List FlowOutcome)) : M.Has (ex.visitSplit walk p branches prior) := by
  simp only [visitSplit]
  split
  · exact M.bind (M.broken _) fun _ _ => M.bind (has_walkBranches hwalk _ _ _) fun ends _ => M.pure _
  · exact M.bind (has_walkBranches hwalk _ _ _) fun ends _ => M.pure _

theorem has_visit (h : ex.Closed M) (hwalk : WalkHas walk M) (g : Graph) (node : Node Graph) (p : Progress)
    (prior : Option (List FlowOutcome)) : M.Has (ex.visit walk g node p prior) := by
  simp only [visit]
  split
  · exact has_visitStep h g node p _
  · exact has_visitDecision h g node p _
  · exact has_visitSplit hwalk p _ prior
  · exact has_visitSubJob h p _ _

/-! ## Walking a graph -/

section Live

variable {β : Type} {f : World σ → β} (hf : ∀ w live, f { w with live } = f w)
include hf

theorem spares_setPhase (ex : Executor σ) (record : Option Record) (phase : Phase) (id : Option String) :
    (setPhase ex record phase id).Spares f := by
  cases record with
  | none => exact .pure
  | some r => exact .update fun w => hf w _

theorem spares_ended (ex : Executor σ) (record : Option Record) (p : Progress) (o : FlowOutcome) :
    (ended ex record p o).Spares f :=
  (spares_setPhase hf ex record _ _).bind fun _ => .pure

theorem spares_exceed (ex : Executor σ) (node : Node Graph) (pos : Position) : (exceed ex node pos).Spares f := by
  unfold exceed
  split
  · exact spares_ended hf ex _ _ _
  · exact fun _ => trivial

end Live

/-- Storing one of these records after a node and showing its attempt's phase is in a
    manner, and with a node noted it is still one of them. -/
structure Storable (ex : Executor σ) (R : Record → Prop) (M : Manner σ) : Prop where
  noted : ∀ r p o, R r → R (noted r p o)
  stored : ∀ r, R r → M.Has (Checkpoint.node r)
  shown : ∀ r, R r → ∀ phase node, M.Has (Checkpoint.setPhase ex.scope.instanceId phase node)

variable {R : Record → Prop}

theorem has_setPhase (hR : Storable ex R M) {record : Option Record} (hrecord : ∀ r ∈ record, R r) (phase : Phase)
    (node : Option String) : M.Has (ex.setPhase record phase node) := by
  cases record with
  | none => exact M.pure _
  | some r => exact hR.shown r (hrecord r rfl) phase node

theorem has_ended (hR : Storable ex R M) {record : Option Record} (hrecord : ∀ r ∈ record, R r) (p : Progress)
    (o : FlowOutcome) : M.Has (ex.ended record p o) :=
  M.bind (has_setPhase hR hrecord _ _) fun _ _ => M.pure _

theorem has_exceed (hR : Storable ex R M) (node : Node Graph) {pos : Position} (hpos : ∀ r ∈ pos.record, R r) :
    M.Has (ex.exceed node pos) := by
  unfold exceed
  split
  · exact has_ended hR hpos _ _
  · exact M.broken _

theorem has_enter (h : ex.Closed M) (hR : Storable ex R M) (g : Graph) (node : Node Graph) {record : Option Record}
    (hrecord : ∀ r ∈ record, R r) : M.Has (ex.enter g node record) :=
  M.bind (has_setPhase hR hrecord _ _) fun _ _ => M.bind (h.tell _ rfl rfl) fun _ _ => M.find _

theorem has_keep (hR : Storable ex R M) {record : Option Record} (hrecord : ∀ r ∈ record, R r) (p : Progress)
    (o : NodeOutcome) : M.Has (keep record p o) := by
  cases record with
  | none => exact M.pure _
  | some r => exact M.bind (hR.stored _ (hR.noted r p o (hrecord r rfl))) fun _ _ => M.pure _

theorem has_leave (h : ex.Closed M) (hR : Storable ex R M) (g : Graph) (node : Node Graph) {pos : Position}
    (hpos : ∀ r ∈ pos.record, R r) (started : Nat) (v : Visit) : M.Has (ex.leave g node pos started v) := by
  refine M.bind (M.find _) fun finished _ => M.bind (h.tell _ rfl rfl) fun _ _ => ?_
  refine M.bind (has_keep hR hpos _ _) fun ⟨stored, record⟩ hkeep => ?_
  obtain ⟨rfl, -⟩ := yields_keep hkeep
  have hkept := pos.all_kept hR.noted node v hpos
  cases stored with
  | error e => exact M.pure _
  | ok u =>
    dsimp only
    split
    · exact M.bind (has_ended hR hkept _ _) fun _ _ => M.pure _
    · refine M.bind (has_setPhase hR hkept _ _) fun _ _ => M.bind (M.find _) fun stopping _ => ?_
      split
      · exact M.bind (has_ended hR hkept _ _) fun _ _ => M.pure _
      · exact M.pure _

theorem has_loop (h : ex.Closed M) (hwalk : WalkHas walk M) (hR : Storable ex R M) (g : Graph) (room : Nat)
    {pos : Position} (hpos : ∀ r ∈ pos.record, R r) : M.Has (ex.loop walk g room pos) := by
  induction room generalizing pos with
  | zero =>
    rw [loop_zero]
    split
    · exact M.pure _
    · exact has_exceed hR _ hpos
  | succ room ih =>
    rw [loop_succ]
    split
    · exact M.pure _
    next node hnode =>
      refine M.bind (has_enter h hR _ _ hpos) fun started _ => M.bind (has_visit h hwalk _ _ _ _) fun v _ => ?_
      refine M.bind (has_leave h hR g node hpos started v) fun turn hturn => ?_
      cases turn_of_leave hturn with
      | onward => exact ih (pos.all_kept hR.noted node v hpos)
      | _ => exact M.pure _

theorem has_traverse (h : ex.Closed M) (hwalk : WalkHas walk M) (hR : Storable ex R M) (g : Graph) (start : FlowStart)
    (context : Context) {record : Option Record} (hrecord : ∀ r ∈ record, R r) :
    M.Has (ex.traverse walk g start context record) :=
  M.bind (has_setPhase hR hrecord _ _) fun _ _ => has_loop h hwalk hR g _ hrecord

theorem has_walkBranch (h : ex.Closed M) (levels : Nat) : WalkHas (ex.walkBranch levels) M := by
  induction levels with
  | zero => exact fun _ _ _ => M.pure _
  | succ levels ih =>
    intro branch start context
    have hnone : Storable ex (fun _ => False) M := ⟨fun _ _ _ h => h, fun _ h => h.elim, fun _ h => h.elim⟩
    refine M.bind (has_traverse h ih hnone branch start context (by simp)) fun walked _ => ?_
    rcases walked with ⟨e | t, kept⟩ <;> exact M.pure _

theorem has_traverseGraph (h : ex.Closed M) (hR : Storable ex R M) (g : Graph) (start : FlowStart) (context : Context)
    {record : Option Record} (hrecord : ∀ r ∈ record, R r) : M.Has (ex.traverseGraph g start context record) :=
  has_traverse h (has_walkBranch h _) hR g start context hrecord

abbrev Sealable (R : Record → Prop) (M : Manner σ) : Prop :=
  ∀ r context o now, R r → M.Has (Checkpoint.sealed (({ r with context }.sealWith? o now).getD { r with context }))

theorem has_execute (h : ex.Closed M) (hR : Storable ex R M) (hseal : Sealable R M) (g : Graph) (start : FlowStart)
    {r : Record} (hr : R r) : M.Has (ex.execute g start r) := by
  have hrecord : ∀ r' ∈ some r, R r' := by simpa using hr
  refine M.bind (has_traverseGraph h hR g start r.context hrecord) fun ⟨x, kept⟩ hwalk => ?_
  have hkept : R (kept.getD r) := by
    cases kept with
    | none => exact hr
    | some r' => exact kept_of_traverse_yields hR.noted hrecord hwalk r' rfl
  cases x with
  | error e => exact M.pure _
  | ok t =>
    refine M.bind M.now fun now _ => M.bind (hseal _ t.context t.outcome now hkept) fun x _ => ?_
    cases x <;> exact M.pure _

/-- What an attempt ends with is of the instance it began with. -/
theorem instanceId_of_execute {g : Graph} {start : FlowStart} {r final : Record} {x : Except FlowError FlowOutcome}
    (h : (ex.execute g start r).Yields (x, final)) : final.instanceId = r.instanceId := by
  obtain ⟨⟨walked, kept⟩, hwalk, hrest⟩ := Act.yields_bind h
  have hkept : (kept.getD r).instanceId = r.instanceId := by
    cases kept with
    | none => rfl
    | some r' =>
      exact kept_of_traverse_yields (R := fun r' => r'.instanceId = r.instanceId)
        (fun r' p o h => (instanceId_noted r' p o).trans h) (by simp) hwalk r' rfl
  cases walked with
  | error e =>
    cases Act.yields_pure hrest
    exact hkept
  | ok t =>
    obtain ⟨now, -, hrest⟩ := Act.yields_bind hrest
    obtain ⟨y, -, hrest⟩ := Act.yields_bind hrest
    cases y
    all_goals cases Act.yields_pure hrest; exact (instanceId_sealWith _ _ _).trans hkept

end Executor

/-! ## Claims -/

def World.claiming (w : World σ) (id : InstanceId) : World σ :=
  { w with tokens := w.tokens + 1, running := w.running.insert id.text w.tokens }

def World.releasing (w : World σ) (id : InstanceId) : World σ :=
  { w with running := w.running.erase id.text, live := w.live.erase id.text }

namespace Runner

section Claims

variable {I : World σ → Prop} {w : World σ} {id : InstanceId}

theorem meets_claim {Q : Except Halt (Option Token) → World σ → Prop}
    (hheld : w.running.contains id.text = true → I w ∧ Q (.ok none) w)
    (hfree : w.running.contains id.text = false → I (w.claiming id) ∧ Q (.ok (some w.tokens)) (w.claiming id)) :
    (claim? id).Meets I Q w := by
  refine Act.meets_update.mpr ?_
  cases hclaimed : w.running.contains id.text with
  | true => exact hheld hclaimed
  | false => exact hfree hclaimed

theorem claim?_eq_some {t : Token} {claimed : World σ} (h : (claim? id).run w = (.ok (some t), claimed)) :
    w.running.contains id.text = false ∧ t = w.tokens ∧ claimed = w.claiming id := by
  simp only [claim?, Act.run_update] at h
  split at h
  · cases h
  next hfree =>
    cases h
    exact ⟨Bool.eq_false_iff.mpr hfree, rfl, rfl⟩

/-- However an action under a claim ends, the claim is given back. -/
theorem meets_releasing {Q : Except Halt α → World σ → Prop} {x : Act σ α}
    (h : x.Meets I (fun y w' => I (w'.releasing id) ∧ Q y (w'.releasing id)) w) : (releasing id x).Meets I Q w := by
  refine Act.meets_bind.mpr (Act.meets_attempt.mpr (h.mono (fun _ h => h) ?_))
  rintro (halt | a) w' hw' <;> exact hw'

end Claims

/-! ## Requests -/

variable {r : Runner σ} {run : Run σ} {M : Manner σ}

theorem has_refuse (e : RestartError) : M.Has (refuse e : Act σ (Except JobError α)) := by
  cases e with
  | noAttemptLeft => exact M.broken _
  | _ => exact M.pure _

theorem has_handle (hrun : ∀ job parameters, M.Has (run 0 job parameters)) (habandon : ∀ id, M.Has (abandon id))
    (q : Request) : M.Has (r.handle run q) := by
  cases q with
  | run job parameters => exact M.bind (hrun _ _) fun _ _ => M.pure _
  | state id =>
    refine M.bind (M.bind (M.find _) fun live _ => ?_) fun _ _ => M.pure _
    cases live with
    | some s => exact M.pure _
    | none => exact M.bind (M.loadLatest id) fun latest _ => by cases latest <;> exact M.pure _
  | stop id =>
    refine M.bind (M.bind (M.find _) fun token _ => ?_) fun _ _ => M.pure _
    cases token with
    | none => exact M.pure _
    | some t =>
      exact M.bind (M.cancel t) fun _ _ => M.bind (M.status id .stopping) fun _ _ => M.pure _
  | abandon id => exact M.bind (habandon id) fun _ _ => M.pure _
  | history id => exact M.bind (M.bind (M.list id) fun _ _ => M.pure _) fun _ _ => M.pure _
  | recent limit => exact M.bind (M.bind (M.listRecent limit) fun _ _ => M.pure _) fun _ _ => M.pure _
  | register d => exact M.bind (M.change fun _ => ⟨rfl, rfl, rfl, List.Subset.refl _⟩) fun _ _ => M.pure _
  | jobs => exact M.bind (M.find _) fun _ _ => M.pure _
  | job name => exact M.bind (M.find _) fun _ _ => M.pure _
  | instanceId job parameters => exact M.pure _
  | config => exact M.pure _
  | cancel => exact M.pure _

theorem closed_executor (hrun : ∀ depth job parameters, M.Has (run depth job parameters))
    (habandon : ∀ id, M.Has (abandon id)) (record : Record) (depth : Nat) (t : Token)
    (htell : ∀ e : Event, e.isNode = true → e.id = record.id → M.Has (Act.publish e)) :
    (r.executor run record depth t).Closed M := by
  refine ⟨fun q => has_handle (hrun 0) habandon q, ?_, htell⟩
  rintro launch ⟨⟩ job parameters depth
  refine M.bind (hrun _ _ _) fun x _ => ?_
  cases x <;> exact M.pure _

/-- An attempt, from its opening to its seal, where its nodes, its start and its end may be
    told. -/
theorem has_drive (hrun : ∀ depth job parameters, M.Has (run depth job parameters)) (habandon : ∀ id, M.Has (abandon id))
    {record : Record} {depth : Nat} {t : Token} {R : Record → Prop}
    (htell : ∀ e : Event, (∀ id ∈ e.instanceId?, id = record.instanceId) → M.Has (Act.publish e))
    (hR : (r.executor run record depth t).Storable R M) (hseal : Executor.Sealable R M) (hr : R record) (d : Definition)
    (start : FlowStart) : M.Has (r.drive run d start record depth t) := by
  have hex : (r.executor run record depth t).Closed M := closed_executor hrun habandon record depth t fun e hnode _ =>
    htell e (by simp [Event.instanceId?_of_isNode hnode])
  refine M.bind (htell _ (by simp [Event.instanceId?])) fun _ _ => M.bind (M.find _) fun before _ => ?_
  refine M.bind (Executor.has_execute hex hR hseal d.graph start hr) fun ⟨x, final⟩ hexecute => ?_
  cases x with
  | error e => exact M.pure _
  | ok o =>
    have hfinal := Executor.instanceId_of_execute hexecute
    exact M.bind (M.find _) fun after _ => M.bind (htell _ (by simp [Event.instanceId?, hfinal])) fun _ _ => M.pure _

end Runner

end Switchyard
