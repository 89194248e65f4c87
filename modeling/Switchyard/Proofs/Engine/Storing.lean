import Switchyard.Proofs.Dict
import Switchyard.Proofs.Engine.Attempt
import Switchyard.Proofs.Engine.Frame
import Switchyard.Proofs.Store.Page

/-
  Switchyard.Proofs.Engine.Storing — manners of acting in which it plays no part what is
  stored.

  Who holds a claim, what is shown of an attempt and who is told of it do not depend on the
  history. A manner that is about these is one in which the history may be called in any way
  (`Manner.Storing`), and it is told by what it has to do with live views and events: an
  attempt is in it if changes of the view of its own instance are, and its events
  (`Manner.Storing.attemptOver`).

  While an instance is claimed, every run is one of another instance; so what a claimed
  instance is spared by the attempts of others, runs keep (`keeps_runOver_of_claimed`).
-/

namespace Switchyard

variable {σ α : Type} {M : Manner σ} {id : InstanceId}

/-- Calls to the history are in a manner, whatever they do there, and identifiers may be
    given out. -/
structure Manner.Storing (M : Manner σ) : Prop where
  call : ∀ {α : Type} (f : Repository → α × Repository), M.Has (Act.call f)
  freshId : M.Has (Act.freshId : Act σ ExecutionId)

def Manner.Showing (M : Manner σ) (id : InstanceId) : Prop :=
  ∀ f : Dict Snapshot → Dict Snapshot,
    (∀ live, ∀ other : InstanceId, other ≠ id → (f live).get? other.text = live.get? other.text) →
    M.Has (Act.change fun w : World σ => { w with live := f w.live })

namespace Manner.Showing

theorem changeLive (h : M.Showing id) (f : Snapshot → Snapshot) : M.Has (Checkpoint.changeLive id f) :=
  h (·.modify id.text f) fun live _ hne => live.get?_modify_of_ne (InstanceId.text_ne hne) f

theorem insert (h : M.Showing id) (view : Snapshot) :
    M.Has (Act.change fun w : World σ => { w with live := w.live.insert id.text view }) :=
  h (·.insert id.text view) fun live _ hne => live.get?_insert_of_ne (InstanceId.text_ne hne) view

theorem discard (h : M.Showing id) : M.Has (Checkpoint.discard id : Act σ Unit) :=
  h (·.erase id.text) fun live _ hne => live.get?_erase_of_ne (InstanceId.text_ne hne)

end Manner.Showing

namespace Manner.Storing

variable (h : M.Storing)
include h

theorem append (r : Record) : M.Has (Act.append r : Act σ (Except StoreError Unit)) := by
  refine M.bind (h.call _) fun x _ => ?_
  rcases x with (e | _) | u
  · exact M.pure _
  · exact M.broken _
  · exact M.pure _

/-- Storing a record and then seeing to a live view. -/
theorem stored (r : Record) {x : Act σ Unit} (hx : M.Has x) :
    M.Has (do
      match ← Checkpoint.persist r with
      | .ok () =>
        x
        return .ok ()
      | .error e => return .error e : Act σ (Except CheckpointError Unit)) := by
  have hpersist : M.Has (Checkpoint.persist r : Act σ (Except CheckpointError Unit)) :=
    M.bind (h.append r) fun x _ => by cases x <;> exact M.pure _
  refine M.bind hpersist fun x _ => ?_
  cases x with
  | error e => exact M.pure _
  | ok u => exact M.bind hx fun _ _ => M.pure _

theorem abandon (other : InstanceId) : M.Has (Runner.abandon other : Act σ (Except JobError Record)) := by
  refine M.bind (M.find _) fun claimed _ => ?_
  split
  · exact M.pure _
  refine M.bind (M.loadLatest other) fun latest _ => ?_
  rcases latest with e | _ | latest
  · exact M.pure _
  · exact M.pure _
  refine M.bind M.now fun now _ => M.bind h.freshId fun fresh _ => ?_
  split
  · exact Runner.has_refuse _
  · refine M.bind (h.append _) fun x _ => ?_
    cases x <;> exact M.pure _

variable (hlive : M.Showing id)
include hlive

theorem begin? (d : Definition) (parameters : Parameters) :
    M.Has (Runner.begin? d id parameters : Act σ (Except JobError (FlowStart × Record))) := by
  refine M.bind (M.loadLatest id) fun latest _ => ?_
  rcases latest with e | latest
  · exact M.pure _
  simp only
  split
  · exact Runner.has_refuse _
  · refine M.bind h.freshId fun fresh _ => M.bind M.now fun now _ => M.bind (h.stored _ (hlive.insert _)) fun x _ => ?_
    cases x <;> exact M.pure _

theorem storable {ex : Executor σ} (hex : ex.scope.instanceId = id) : ex.Storable (fun r => r.instanceId = id) M := by
  refine ⟨fun r p o hr => (instanceId_noted r p o).trans hr, ?_, fun r _ phase node => ?_⟩
  · rintro r rfl
    exact h.stored r (hlive.changeLive _)
  · rw [hex]
    exact hlive.changeLive _

theorem sealable : Executor.Sealable (fun r => r.instanceId = id) M := by
  rintro r context o now rfl
  refine h.stored _ ?_
  rw [instanceId_sealWith]
  exact hlive.discard

variable {r : Runner σ} {run : Runner.Run σ} (hrun : ∀ depth job parameters, M.Has (run depth job parameters))
  (htell : ∀ e : Event, (∀ i ∈ e.instanceId?, i = id) → M.Has (Act.publish e))
include hrun htell

/-- An attempt of an instance, if its own live view may change and its start and end be
    told. -/
theorem attemptOver (d : Definition) (depth : Nat) (t : Token) (parameters : Parameters) :
    M.Has (r.attemptOver run d id depth t parameters) := by
  refine M.bind (h.begin? hlive d parameters) fun begun hbegin => ?_
  rcases Runner.yields_begin? hbegin with ⟨latest, point, fresh, now, -, rfl⟩ | ⟨e, rfl, -⟩
  · exact Runner.has_drive hrun h.abandon htell (h.storable hlive rfl) (h.sealable hlive) rfl d point.start
  · exact M.pure _

end Manner.Storing

/-! ## Runs beside a claim -/

theorem World.running_claiming (w : World σ) {other : InstanceId} (hne : other ≠ id) :
    (w.claiming other).running.get? id.text = w.running.get? id.text :=
  Dict.get?_insert_of_ne _ (InstanceId.text_ne hne).symm _

theorem World.running_releasing (w : World σ) {other : InstanceId} (hne : other ≠ id) :
    (w.releasing other).running.get? id.text = w.running.get? id.text :=
  Dict.get?_erase_of_ne _ (InstanceId.text_ne hne).symm

/-- What is so of a claimed instance stays so in a run, if the attempts and the claims of
    other instances leave it so. -/
theorem Runner.keeps_runOver_of_claimed {J : World σ → Prop} {t : Token} {r : Runner σ} {run : Runner.Run σ}
    (hheld : ∀ w, J w → w.running.get? id.text = some t)
    (hclaiming : ∀ w other, other ≠ id → J w → J (w.claiming other))
    (hreleasing : ∀ w other, other ≠ id → J w → J (w.releasing other))
    (hattempt : ∀ d other depth token parameters, other ≠ id →
      (r.attemptOver run d other depth token parameters).Keeps J)
    (depth : Nat) (job : String) (parameters : Parameters) : (r.runOver run depth job parameters).Keeps J := by
  refine .bind .find fun found => ?_
  rcases found with _ | d
  · exact .pure
  intro w hw
  refine Act.meets_bind.mpr (Runner.meets_claim (fun _ => ⟨hw, hw⟩) fun hfree => ?_)
  have hne : InstanceId.derive d.name parameters ≠ id := by
    rintro rfl
    simp [Dict.contains, hheld w hw] at hfree
  have hclaimed := hclaiming w _ hne hw
  refine ⟨hclaimed, Runner.meets_releasing ?_⟩
  refine (hattempt d _ depth _ parameters hne _ hclaimed).mono (fun _ h => h) fun x w' hw' => ?_
  have hreleased := hreleasing w' _ hne hw'
  exact ⟨hreleased, hreleased⟩

end Switchyard
