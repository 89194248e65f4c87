import Switchyard.Proofs.Engine.Storing

/-
  Switchyard.Proofs.Engine.Views — the live view of a claimed instance is changed by its
  own attempt only, but for the status.

  A live view goes with a claim. While the claim is held every other run is one of another
  instance, and what it opens, follows, seals and gives back is that instance's view. A
  stop may be asked for by anyone, and shows in the status; so `Watched` says of a view
  what it shows besides. Abandoning changes no view at all.

  - `watching`: never to change what is shown of a claimed instance, as a manner.
  - `watches_run`, `closed_watching`: runs nested in an attempt, and all that its units ask
    for, are in it.
-/

namespace Switchyard

def Snapshot.shown (s : Snapshot) : Snapshot := { s with status := .started }

variable {σ α : Type}

/-- The claim on an instance is held under a token, and its live view shows this. -/
structure Watched (id : InstanceId) (t : Token) (view : Option Snapshot) (w : World σ) : Prop where
  claimed : w.running.get? id.text = some t
  shown : (w.live.get? id.text).map Snapshot.shown = view

variable {id : InstanceId} {t : Token} {view : Option Snapshot}

theorem Watched.of_eq {w w' : World σ} (h : Watched id t view w) (hrunning : w'.running = w.running)
    (hlive : w'.live = w.live) : Watched id t view w' :=
  ⟨by rw [hrunning]; exact h.claimed, by rw [hlive]; exact h.shown⟩

/-- The attempt itself changes its view. -/
theorem Watched.modify {w : World σ} {shown : Snapshot} (h : Watched id t (some shown) w) {f : Snapshot → Snapshot}
    (hf : ∀ s, (f s).shown = f s.shown) : Watched id t (some (f shown)) { w with live := w.live.modify id.text f } := by
  refine ⟨h.claimed, ?_⟩
  obtain ⟨s, hs, rfl⟩ := Option.map_eq_some_iff.mp h.shown
  show ((w.live.modify id.text f).get? id.text).map Snapshot.shown = _
  rw [Dict.get?_modify_self, hs, Option.map_some, Option.map_some, hf]

/-- Another instance is claimed. -/
theorem Watched.claiming {w : World σ} (h : Watched id t view w) {other : InstanceId} (hne : other ≠ id) :
    Watched id t view (w.claiming other) := ⟨(w.running_claiming hne).trans h.claimed, h.shown⟩

/-- The claim on another instance is given back. -/
theorem Watched.releasing {w : World σ} (h : Watched id t view w) {other : InstanceId} (hne : other ≠ id) :
    Watched id t view (w.releasing other) := by
  refine ⟨(w.running_releasing hne).trans h.claimed, ?_⟩
  rw [← h.shown]
  exact congrArg _ (Dict.get?_erase_of_ne _ (InstanceId.text_ne hne).symm)

/-! ## Single steps -/

/-- A change of live views that this one has no part in. -/
theorem keeps_live {f : Dict Snapshot → Dict Snapshot} (hf : ∀ live, (f live).get? id.text = live.get? id.text) :
    (Act.change fun w : World σ => { w with live := f w.live }).Keeps (Watched id t view) := by
  refine .change fun w hw => ⟨hw.claimed, ?_⟩
  rw [← hw.shown, ← hf w.live]

theorem keeps_changeLive {other : InstanceId} (hne : other ≠ id) (f : Snapshot → Snapshot) :
    (Checkpoint.changeLive other f : Act σ Unit).Keeps (Watched id t view) :=
  keeps_live (f := (·.modify other.text f)) fun live => live.get?_modify_of_ne (InstanceId.text_ne hne).symm f

theorem keeps_setStatus (other : InstanceId) (s : Status) :
    (Checkpoint.setStatus other s : Act σ Unit).Keeps (Watched id t view) := by
  by_cases h : other = id
  · subst h
    refine .change fun w hw => ⟨hw.claimed, ?_⟩
    rw [← hw.shown, Dict.get?_modify_self, Option.map_map]
    rfl
  · exact keeps_changeLive h _

def watching (id : InstanceId) (t : Token) (view : Option Snapshot) : Manner σ :=
  { Has := fun x => x.Keeps (Watched id t view)
    pure := fun _ => .pure
    broken := fun _ => .broken
    quiet := fun h => .update fun w hw => hw.of_eq (congrArg Core.running (h w).1) (h w).2.2.1
    status := keeps_setStatus
    bind := fun hx hg => .bind_yields hx hg
    attempt := fun hx => hx.attempt }

theorem watches_publish (e : Event) : (watching id t view).Has (Act.publish e : Act σ Unit) :=
  .change fun _ hw => hw.of_eq rfl rfl

theorem storing_watching : (watching id t view : Manner σ).Storing :=
  ⟨fun _ => .update fun _ hw => hw.of_eq rfl rfl, .update fun _ hw => hw.of_eq rfl rfl⟩

/-! ## Attempts of other instances -/

theorem showing_watching {other : InstanceId} (hne : other ≠ id) : (watching id t view : Manner σ).Showing other :=
  fun _ hf => keeps_live fun live => hf live id hne.symm

variable {r : Runner σ} {run : Runner.Run σ}

/-- A run under a claim of another instance, for this one is claimed. -/
theorem watches_runOver (hrun : ∀ depth job parameters, (watching id t view).Has (run depth job parameters))
    (depth : Nat) (job : String) (parameters : Parameters) :
    (watching id t view).Has (r.runOver run depth job parameters) := by
  refine Runner.keeps_runOver_of_claimed (fun _ hw => hw.claimed) (fun _ _ hne hw => hw.claiming hne)
    (fun _ _ hne hw => hw.releasing hne) (fun d other depth token parameters hne => ?_) depth job parameters
  exact storing_watching.attemptOver (showing_watching hne) hrun (fun e _ => watches_publish e) d depth token parameters

theorem watches_run (r : Runner σ) (levels depth : Nat) (job : String) (parameters : Parameters) :
    (watching id t view).Has (r.run levels depth job parameters) := by
  induction levels generalizing depth job parameters with
  | zero => exact .broken
  | succ levels ih => exact watches_runOver ih depth job parameters

/-- Whatever the units of an attempt ask for and its nodes launch leaves what is shown of
    it alone. -/
theorem closed_watching (r : Runner σ) (levels : Nat) (record : Record) (depth : Nat) (token : Token) :
    (r.executor (r.run levels) record depth token).Closed (watching id t view) :=
  Runner.closed_executor (watches_run r levels) storing_watching.abandon record depth token fun e _ _ =>
    watches_publish e

end Switchyard
