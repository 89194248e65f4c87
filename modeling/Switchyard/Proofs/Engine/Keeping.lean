import Switchyard.Proofs.Engine.Course
import Switchyard.Proofs.Engine.Visit
import Switchyard.Proofs.Identity

/-
  Switchyard.Proofs.Engine.Keeping — why a traversal comes to no outcome.

  After every node the record is appended to the history. If that fails the traversal is
  over: with an error if the record was refused, and in a panic if the refusal cannot be
  written down. `AppendFails` ties both to their cause, an append in a world that the
  traversal comes through, of a record that has what every record of the attempt has.

  Apart from that a traversal is broken off only where its last visit is, or where visits
  can no longer be counted.

  - `run_node_cases`: what storing a record after a node comes to, by what the history answers.
  - `run_leave`: the same of a whole turn.
  - `unkept_of_loop`, `broken_of_loop`: why a traversal comes to an error, and why it is
    broken off, by induction on the room.
  - `loop_overflows`: with the greatest limit there is, a flow that never ends panics.
-/

namespace Switchyard.Executor

variable {σ α : Type}

/-- In a world that the action comes through, storing one of these records fails so. -/
def AppendFails (x : Act σ α) (w : World σ) (R : Record → Prop) (f : AppendFailure) : Prop :=
  ∃ rec w', R rec ∧ x.Passes w w' ∧ (w'.repository.append rec).1 = .error f

variable {ex : Executor σ} {walk : BranchWalk σ} {g : Graph} {node : Node Graph} {room : Nat} {pos : Position}
  {w w' : World σ} {R : Record → Prop}

theorem run_node_cases (rec : Record) (w : World σ) :
    (∃ w', (Checkpoint.node rec).run w = (.ok (.ok ()), w')) ∨
    (∃ e w', (w.repository.append rec).1 = .error (.refused e) ∧
      (Checkpoint.node rec).run w = (.ok (.error ⟨e⟩), w')) ∨
    ∃ p w', (w.repository.append rec).1 = .error .unwritable ∧
      (Checkpoint.node rec).run w = (.error (.panic p), w') := by
  simp only [Checkpoint.node, Checkpoint.persist, Act.append, Act.call, Act.run_bind, Act.run_update]
  rcases (w.repository.append rec).1 with (e | _) | u
  · exact Or.inr (Or.inl ⟨e, _, rfl, rfl⟩)
  · exact Or.inr (Or.inr ⟨_, _, rfl, rfl⟩)
  · exact Or.inl ⟨_, rfl⟩

/-- A turn whose record is stored comes to an outcome or leads on. -/
theorem run_settle (ex : Executor σ) (node : Node Graph) (v : Visit) (p : Progress) (record : Option Record)
    (w : World σ) :
    (∃ walked left, (settle ex node v p (.ok (), record)).run w = (.ok (.done (.ok walked, record)), left)) ∨
      ∃ target left, (settle ex node v p (.ok (), record)).run w =
        (.ok (.onward { progress := p, node := target, prior := none, record }), left) := by
  simp only [settle]
  cases hfailure : v.failure with
  | some failure =>
    obtain ⟨live, hended⟩ := run_ended ex record p (p.engineFailure node.id failure) w
    exact Or.inl ⟨_, _, by simp only [Act.run_bind_ok hended]; rfl⟩
  | none =>
    obtain ⟨live, hphase⟩ := run_setPhase ex record .awaitingMatch none w
    simp only [Act.run_bind_ok hphase, Act.isCancelled, Act.run_bind, Act.run_find]
    cases p.route node v (w.cancelled.contains ex.scope.token) with
    | finish o =>
      obtain ⟨live', hended⟩ := run_ended ex record p o { w with live }
      exact Or.inl ⟨_, _, by simp only [Act.run_bind_ok hended]; rfl⟩
    | goto target => exact Or.inr ⟨target, _, rfl⟩

/-- What a turn comes to by whether the record of its visit could be stored, and the world in
    which that was tried. -/
theorem run_leave (ex : Executor σ) (g : Graph) (node : Node Graph) (pos : Position) (started : Nat) (v : Visit)
    (w : World σ) :
    (∃ walked left, (leave ex g node pos started v).run w = (.ok (.done (.ok walked, pos.kept node v)), left)) ∨
    (∃ target left, (leave ex g node pos started v).run w = (.ok (.onward (pos.onward node v target)), left)) ∨
    ∃ w₁ left, (leave ex g node pos started v).Passes w w₁ ∧ ∃ rec ∈ pos.kept node v,
      (∃ e, (w₁.repository.append rec).1 = .error (.refused e) ∧
        (leave ex g node pos started v).run w = (.ok (.done (.error (.checkpoint ⟨e⟩), pos.kept node v)), left)) ∨
      ∃ p, (w₁.repository.append rec).1 = .error .unwritable ∧
        (leave ex g node pos started v).run w = (.error (.panic p), left) := by
  rw [leave_eq]
  have hwaited : (Act.waited : Act σ Nat).run w = (.ok w.clock.waited, w) := rfl
  obtain ⟨told, htold⟩ : ∃ told, (Act.publish (.nodeFinished ex.scope.id g.name node.id v.status v.exit
    (w.clock.waited - started))).run w = (.ok (), told) := ⟨_, rfl⟩
  simp only [Act.run_bind_ok hwaited, Act.run_bind_ok htold]
  rcases run_keep pos.record (pos.folded node v) ⟨node.id, v.status, v.exit⟩ told with
    ⟨w₁, hkeep⟩ | ⟨rec, hrec, hkeep⟩
  · rw [Act.run_bind_ok hkeep]
    rcases run_settle ex node v (pos.folded node v) (pos.kept node v) w₁ with hdone | ⟨target, left, honward⟩
    · exact Or.inl hdone
    · exact Or.inr (Or.inl ⟨target, left, honward⟩)
  · refine Or.inr (Or.inr ⟨told, ?_⟩)
    rcases run_node_cases rec told with ⟨left, hnode⟩ | ⟨e, left, hrefused, hnode⟩ | ⟨p, left, hunwritable, hnode⟩
    · rcases hkeep with ⟨e, w₁, -, h⟩ | ⟨e, w₁, -, h⟩ <;> cases hnode.symm.trans h
    · obtain ⟨e', w₁, hkeep, h⟩ | ⟨e', w₁, -, h⟩ := hkeep
      · cases hnode.symm.trans h
        refine ⟨left, .bind_right hwaited (.bind_right htold (.start _ _)), rec, hrec, Or.inl ⟨e, hrefused, ?_⟩⟩
        rw [Act.run_bind_ok hkeep]
        rfl
      · cases hnode.symm.trans h
    · obtain ⟨e', w₁, -, h⟩ | ⟨e', w₁, hkeep, h⟩ := hkeep
      · cases hnode.symm.trans h
      · cases hnode.symm.trans h
        refine ⟨left, .bind_right hwaited (.bind_right htold (.start _ _)), rec, hrec, Or.inr ⟨p, hunwritable, ?_⟩⟩
        rw [Act.run_bind_error hkeep]

/-! ## Whole traversals -/

theorem AppendFails.mono {β : Type} {x : Act σ α} {y : Act σ β} {f : AppendFailure} (h : AppendFails x w R f)
    (hpasses : ∀ w₁, x.Passes w w₁ → y.Passes w' w₁) : AppendFails y w' R f := by
  obtain ⟨rec, w₁, hrec, hx, hanswer⟩ := h
  exact ⟨rec, w₁, hrec, hpasses w₁ hx, hanswer⟩

/-- Only a record that is refused makes a traversal of a graph that stays among its nodes come
    to an error. -/
theorem unkept_of_loop (hR : ∀ rec p o, R rec → R (noted rec p o)) (hpos : ∀ rec ∈ pos.record, R rec)
    {e : CheckpointError} {kept : Option Record}
    (h : (loop ex walk g room pos).run w = (.ok (.error (.checkpoint e), kept), w')) :
    AppendFails (loop ex walk g room pos) w R (.refused e.cause) := by
  induction room generalizing pos w with
  | zero =>
    rw [loop_zero] at h
    cases hnode : g.node? pos.node with
    | none =>
      rw [hnode] at h
      cases h
    | some node =>
      simp only [hnode] at h
      rcases run_exceed ex node pos w with ⟨-, live, hrun⟩ | ⟨-, hrun⟩ <;> cases hrun.symm.trans h
  | succ room ih =>
    rw [loop_succ] at h ⊢
    cases hnode : g.node? pos.node with
    | none =>
      rw [hnode] at h
      cases h
    | some node =>
      simp only [hnode] at h ⊢
      obtain ⟨started, w₁, henter, h⟩ := Act.run_bind_eq_ok h
      obtain ⟨v, w₂, hvisit, h⟩ := Act.run_bind_eq_ok h
      obtain ⟨turn, w₃, hleave, h⟩ := Act.run_bind_eq_ok h
      have hall := pos.all_kept hR node v hpos
      rcases run_leave ex g node pos started v w₂ with ⟨t, left, hdone⟩ | ⟨target, left, honward⟩ |
        ⟨w₄, left, hpasses, rec, hrec, ⟨e', hrefused, hleave'⟩ | ⟨p, -, hleave'⟩⟩
      · cases hdone.symm.trans hleave
        cases h
      · cases honward.symm.trans hleave
        exact (ih hall h).mono fun _ hp => .bind_right henter (.bind_right hvisit (.bind_right hleave hp))
      · cases hleave'.symm.trans hleave
        cases h
        exact ⟨rec, w₄, hall rec hrec, .bind_right henter (.bind_right hvisit (.bind_left hpasses _)), hrefused⟩
      · cases hleave'.symm.trans hleave

def Stage.LedOn (ex : Executor σ) (s : Stage σ) : Prop :=
  ∃ v target, s.came = .ok v ∧ v.failure = none ∧
    (s.pos.folded s.node v).route s.node v (s.stopping ex.scope.token) = .goto target

/-- Every visit was made that there is room for, and the last one led on. -/
def Exhausted (ex : Executor σ) (room : Nat) (made : List (Stage σ)) : Prop :=
  made.length = room ∧ ∀ s, made.getLast? = some s → s.LedOn ex

theorem Exhausted.cons {s : Stage σ} {rest : List (Stage σ)} (h : Exhausted ex room rest) (hs : s.LedOn ex) :
    Exhausted ex (room + 1) (s :: rest) := by
  obtain ⟨hlength, hlast⟩ := h
  refine ⟨by rw [List.length_cons, hlength], fun last h => ?_⟩
  rw [List.getLast?_cons, Option.some.injEq] at h
  cases hrest : rest.getLast? with
  | none =>
    rw [hrest] at h
    exact h ▸ hs
  | some s' =>
    rw [hrest] at h
    exact h ▸ hlast s' hrest

/-- A traversal is broken off where its last visit is, where its record cannot be stored, or
    where its visits can no longer be counted. -/
theorem broken_of_loop (hR : ∀ rec p o, R rec → R (noted rec p o)) (hpos : ∀ rec ∈ pos.record, R rec) {h : Halt}
    (hrun : (loop ex walk g room pos).run w = (.error h, w')) :
    (∃ s, (trail ex walk g room pos w).getLast? = some s ∧ s.came = .error h) ∨
    (∃ p, h = .panic p) ∧ AppendFails (loop ex walk g room pos) w R .unwritable ∨
    h = .panic countOverflow ∧ Text.maxU32 ≤ ex.config.maxNodeVisits ∧
      Exhausted ex room (trail ex walk g room pos w) := by
  induction room generalizing pos w with
  | zero =>
    rw [loop_zero] at hrun
    cases hnode : g.node? pos.node with
    | none =>
      rw [hnode] at hrun
      cases hrun
    | some node =>
      simp only [hnode] at hrun
      rcases run_exceed ex node pos w with ⟨-, live, h'⟩ | ⟨hcount, h'⟩
      · cases h'.symm.trans hrun
      · cases h'.symm.trans hrun
        refine Or.inr (Or.inr ⟨rfl, hcount, ?_⟩)
        simp [Exhausted, trail]
  | succ room ih =>
    rw [loop_succ] at hrun ⊢
    cases hnode : g.node? pos.node with
    | none =>
      rw [hnode] at hrun
      cases hrun
    | some node =>
      simp only [hnode] at hrun ⊢
      obtain ⟨live, henter⟩ := run_enter ex g node pos.record w
      simp only [trail, hnode, henter, Act.run_bind_ok henter] at hrun ⊢
      generalize { w with live, bus := w.bus.publish (.nodeStarted ex.scope.id g.name node.id) } = entered at *
      cases hvisit : (visit ex walk g node pos.progress pos.prior).run entered with
      | mk came gone =>
        cases came with
        | error e =>
          rw [Act.run_bind_error hvisit] at hrun
          cases hrun
          exact Or.inl ⟨_, rfl, rfl⟩
        | ok v =>
          rw [Act.run_bind_ok hvisit] at hrun
          have hall := pos.all_kept hR node v hpos
          rcases run_leave ex g node pos w.clock.waited v gone with ⟨t, left, hleave⟩ | ⟨target, left, hleave⟩ |
            ⟨w₁, left, hpasses, rec, hrec, ⟨e, -, hleave⟩ | ⟨p, hunwritable, hleave⟩⟩
          · rw [Act.run_bind_ok hleave] at hrun
            cases hrun
          · rw [Act.run_bind_ok hleave] at hrun
            simp only [hleave]
            rcases ih hall hrun with ⟨s, hlast, hcame⟩ | ⟨hpanic, hfails⟩ | ⟨hpanic, hcount, hexhausted⟩
            · exact Or.inl ⟨s, by rw [List.getLast?_cons, hlast]; rfl, hcame⟩
            · exact Or.inr (Or.inl ⟨hpanic, hfails.mono fun _ hp =>
                .bind_right henter (.bind_right hvisit (.bind_right hleave hp))⟩)
            · have hleft := left_of_leave ex g node pos w.clock.waited v gone
              rw [hleave] at hleft
              obtain ⟨hfailure, target', -, hroute⟩ := hleft.eq_onward
              exact Or.inr (Or.inr ⟨hpanic, hcount, hexhausted.cons ⟨v, target', rfl, hfailure, hroute⟩⟩)
          · rw [Act.run_bind_ok hleave] at hrun
            cases hrun
          · rw [Act.run_bind_error hleave] at hrun
            cases hrun
            exact Or.inr (Or.inl ⟨⟨p, rfl⟩, rec, w₁, hall rec hrec,
              .bind_right henter (.bind_right hvisit (.bind_left hpasses _)), hunwritable⟩)

/-- A flow whose visits always lead on comes to its limit, and if that is the greatest number
    that visits are counted with, it does not come to an end there. -/
theorem loop_overflows (hlimit : Text.maxU32 ≤ ex.config.maxNodeVisits) {I : Position → World σ → Prop}
    (hturn : ∀ pos w, I pos w → ∃ node v next left, LeadsOn ex walk g pos w node v next left ∧ I next left)
    (h : I pos w) :
    ∃ last left, (loop ex walk g room pos).run w = (.error (.panic countOverflow), left) ∧ I last left := by
  induction room generalizing pos w with
  | zero =>
    obtain ⟨node, v, next, left, ⟨hnode, -⟩, -⟩ := hturn pos w h
    rw [loop_zero, hnode]
    rcases run_exceed ex node pos w with ⟨hcount, -⟩ | ⟨-, hrun⟩
    · exact absurd hlimit (Nat.not_le.mpr hcount)
    · exact ⟨pos, w, hrun, h⟩
  | succ room ih =>
    obtain ⟨node, v, next, left, hleads, hnext⟩ := hturn pos w h
    rw [hleads.run_loop]
    exact ih hnext

end Switchyard.Executor
