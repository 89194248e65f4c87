import Mathlib.Logic.Relation
import Switchyard.Proofs.Engine.Contained

/-
  Switchyard.Proofs.Engine.Errands — what is done in the course of a run, and the worlds in
  which it begins.

  An `Errand` is a request that is answered or a run that is made. A run makes others on
  its way: the units at its nodes and at those of its branches ask for them, and its nodes
  launch them (`Runner.Nests`). Every errand within another one is reached by such steps.

  Units ask and nodes launch in the middle of a run. What is so of a world there follows
  for a manner of acting that leads from `J` to `J` and stays in `I` on the way
  (`between`): what is begun there is begun in `J`.

  - `Tour.Ordered.entered`, `Tour.Ordered.branch`: nodes are entered and branches begun in `J`.
  - `Executor.Asks.from`: what a unit asks for is begun in `J`.
-/

namespace Switchyard

variable {σ α : Type}

/-! ## Errands -/

namespace Executor

def timed (ex : Executor σ) (w : World σ) : World σ :=
  match ex.config.stepTimeout with
  | none => w
  | some s => ((Act.pushDeadline s).run w).2

/-- A unit that does as this script says, from this world, asks for this in that one. -/
inductive Asks (ex : Executor σ) {α : Type} : Script σ α → World σ → Request → World σ → Prop
  | now {m : σ} {q : Request} {resume : Reply → σ → Script σ α} {w : World σ} :
      Asks ex (.ask m q resume) w q { w with memory := m }
  | answered {m : σ} {q q' : Request} {resume : Reply → σ → Script σ α} {w w₁ w' : World σ} {a : Reply} :
      (ex.reply q).run { w with memory := m } = (.ok a, w₁) → Asks ex (resume a w₁.memory) w₁ q' w' →
      Asks ex (.ask m q resume) w q' w'
  | waited {m : σ} {millis : Nat} {q' : Request} {resume : σ → Script σ α} {w w₁ w' : World σ} :
      (Act.wait millis).run { w with memory := m } = (.ok (), w₁) → Asks ex (resume w₁.memory) w₁ q' w' →
      Asks ex (.wait m millis resume) w q' w'

end Executor

/-- A tour, a tour of a branch at one of its visits, and so on. -/
inductive Tour.Makes (t : Tour σ) : Tour σ → Prop
  | self : Makes t t
  | branch {u : Tour σ} {s : Executor.Stage σ} {x : Nat × Tour σ} : Makes t u → s ∈ u.visits → x ∈ u.branches s →
      Makes t x.2

theorem Tour.Makes.ex_eq {t u : Tour σ} (h : t.Makes u) : u.ex = t.ex := by
  induction h with
  | self => rfl
  | branch _ _ hx ih => exact (of_mem_branches hx).1.trans ih

inductive Errand where
  | answer (q : Request)
  | run (depth : Nat) (job : String) (parameters : Parameters)

structure Outset (σ : Type) where
  levels : Nat
  errand : Errand
  world : World σ

inductive Runner.Nests (r : Runner σ) : Outset σ → Outset σ → Prop
  | answered {levels : Nat} {job : String} {parameters : Parameters} {w : World σ} :
      Nests r ⟨levels, .answer (.run job parameters), w⟩ ⟨levels, .run 0 job parameters, w⟩
  /-- A unit of an attempt that the run opened asks for something. -/
  | asked {levels depth : Nat} {job : String} {d : Definition} {parameters : Parameters} {w : World σ} {o : Opened σ}
      {t : Tour σ} {s : Executor.Stage σ} {α : Type} {script : Script σ α} {q : Request} {w' : World σ} :
      w.jobs.get? job = some d → Runner.opened? d parameters w = some o →
      (r.tourOf (r.run levels) depth d o).Makes t → s ∈ t.visits →
      Executor.Calls t.ex t.graph s.node s.pos.progress s.entered script →
      Executor.Asks t.ex script (t.ex.timed s.entered) q w' →
      Nests r ⟨levels + 1, .run depth job parameters, w⟩ ⟨levels, .answer q, w'⟩
  /-- A node of an attempt that the run opened launches a job. -/
  | launched {levels depth : Nat} {job : String} {d : Definition} {parameters : Parameters} {w : World σ} {o : Opened σ}
      {t : Tour σ} {s : Executor.Stage σ} {depth' : Nat} {job' : String} {parameters' : Parameters} :
      w.jobs.get? job = some d → Runner.opened? d parameters w = some o →
      (r.tourOf (r.run levels) depth d o).Makes t → s ∈ t.visits →
      Executor.Launches t.ex s.node s.pos.progress (r.run levels) depth' job' parameters' →
      Nests r ⟨levels + 1, .run depth job parameters, w⟩ ⟨levels, .run depth' job' parameters', s.entered⟩

/-! ## From `J` to `J` within `I` -/

variable {I J : Core → Prop} {hJ : ∀ c, J c → I c}

/-- To lead from worlds whose core has `J` to such worlds, through worlds whose core has
    `I`. -/
def between (I J : Core → Prop) (hJ : ∀ c, J c → I c) : Manner σ :=
  { Has := fun x => ∀ w, On J w → x.Meets (On I) (fun _ w' => On J w') w
    pure := fun _ _ hw => hw
    broken := fun _ _ hw => hw
    quiet := fun {_ f} hf w hw => by
      have hleft : On J (f w).2 := by rwa [On, (hf w).1]
      exact ⟨hJ _ hleft, hleft⟩
    status := fun _ _ _ hw => ⟨hJ _ hw, hw⟩
    bind := fun {_ _ x g} hx hg w hw => by
      refine Act.meets_bind.mpr ((hx w hw).with_run.mono (fun _ h => h) ?_)
      rintro (e | a) w' ⟨hw', hrun⟩
      · exact hw'
      · exact hg a (.of_run hrun) w' hw'
    attempt := fun hx w hw => Act.meets_attempt.mpr (hx w hw) }

theorem left_of_between {x : Act σ α} (hx : (between I J hJ).Has x) {w w' : World σ} {c : Except Halt α} (hw : On J w)
    (hrun : x.run w = (c, w')) : On J w' := by
  have hleft := (hx w hw).run
  rwa [hrun] at hleft

/-- What a unit asks for is begun in `J`. -/
theorem Executor.Asks.from {ex : Executor σ} (hex : ex.Closed (between I J hJ)) {script : Script σ α} {w w' : World σ}
    {q : Request} (h : ex.Asks script w q w') (hw : On J w) : On J w' := by
  induction h with
  | now => exact hw
  | @answered m q q' resume w w₁ w' a hreply _ ih =>
    have hbegun : On J { w with memory := m } := hw
    exact ih (left_of_between (Executor.has_reply hex q) hbegun hreply)
  | @waited m millis q' resume w w₁ w' hwait _ ih =>
    have hbegun : On J { w with memory := m } := hw
    have hpause : (between I J hJ).Has (Act.wait millis : Act σ Unit) := Manner.wait millis
    exact ih (left_of_between hpause hbegun hwait)

namespace Tour

variable {t : Tour σ} {R : Record → Prop}

structure Ordered (t : Tour σ) (R : Record → Prop) (hJ : ∀ c, J c → I c) : Prop where
  closed : t.ex.Closed (between I J hJ)
  storable : t.ex.Storable R (between I J hJ)
  record : ∀ r ∈ t.record, R r
  world : On J t.world

theorem Ordered.entered (h : t.Ordered R hJ) : ∀ s ∈ t.visits, On J s.entered := by
  intro s hs
  have hwalk : Executor.WalkHas (t.ex.walkBranch t.levels) (between I J hJ) := Executor.has_walkBranch h.closed t.levels
  have hpending : On J ((t.ex.setPhase t.record .pending none).run t.world).2 :=
    left_of_between (Executor.has_setPhase h.storable h.record .pending none) h.world rfl
  have hturn : ∀ {pos : Executor.Position} {w : World σ} {node : Node Graph} {v : Visit} {next : Executor.Position}
      {left : World σ}, (On J w ∧ ∀ r ∈ pos.record, R r) →
      Executor.LeadsOn t.ex (t.ex.walkBranch t.levels) t.graph pos w node v next left →
      On J left ∧ ∀ r ∈ next.record, R r := by
    rintro pos w node v next left ⟨hw, hpos⟩ ⟨hnode, henter, hvisit, hleave⟩
    have hentered := left_of_between (Executor.has_enter h.closed h.storable t.graph node hpos) hw henter
    have hgone := left_of_between (Executor.has_visit h.closed hwalk t.graph node pos.progress pos.prior) hentered hvisit
    refine ⟨left_of_between (Executor.has_leave h.closed h.storable t.graph node hpos _ v) hgone hleave, ?_⟩
    cases Executor.turn_of_leave (.of_run hleave) with
    | onward => exact pos.all_kept h.storable.noted node v hpos
  obtain ⟨started, w', ⟨hfront, hpos⟩, henter⟩ :=
    Executor.entered_of_trail (I := fun pos w => On J w ∧ ∀ r ∈ pos.record, R r) hturn hs ⟨hpending, h.record⟩
  exact left_of_between (Executor.has_enter h.closed h.storable t.graph s.node hpos) hfront henter

theorem Ordered.branch (h : t.Ordered R hJ) {s : Executor.Stage σ} (hs : s ∈ t.visits) {x : Nat × Tour σ}
    (hx : x ∈ t.branches s) : x.2.Ordered R hJ := by
  obtain ⟨hex, -, hrecord⟩ := of_mem_branches hx
  have hworld : On J x.2.world := by
    unfold Tour.branches at hx
    split at hx
    · cases hx
    next levels _ =>
      refine Executor.world_of_mem_followed (fun graph start w hw => ?_) (h.entered s hs) x hx
      have hwalk : Executor.WalkHas (t.ex.walkBranch levels) (between I J hJ) := Executor.has_walkBranch h.closed levels
      have hnone : ∀ r ∈ (none : Option Record), R r := by simp
      exact left_of_between (Executor.has_traverse h.closed hwalk h.storable graph start _ hnone) hw rfl
  refine ⟨?_, ?_, ?_, hworld⟩
  · rw [hex]
    exact h.closed
  · rw [hex]
    exact h.storable
  · rw [hrecord]
    simp

theorem Ordered.makes (h : t.Ordered R hJ) {u : Tour σ} (hu : t.Makes u) : u.Ordered R hJ := by
  induction hu with
  | self => exact h
  | branch _ hs hx ih => exact ih.branch hs hx

end Tour

end Switchyard
