import Switchyard.Proofs.Engine.Restart

/-
  Switchyard.Proofs.Engine.Journey — what a traversal has done, node by node, while others
  act.

  `Act.Goes` tells the steps of a traversal one by one, as far as it has come. `Journey`
  sorts them by the nodes they were taken at: a `Station` is one node with the position it
  was entered at, the steps that enter it, those of its visit and those that leave it again.
  `journey_of_loop` and `Journey.goes` are the link, and `Tour.goes_iff_travels` says it of
  whole traversals: every step is taken at one of the stations, or before the first or after
  the last.

  - `Journey.progress_eq`, `Journey.traversal_eq`: what a traversal knows where it enters a
    node is what the visits before have folded in, and so is what it ends with.
  - `Journey.after_visit`: what may follow a visit.
  - `sure_leave`: without a record nothing breaks off what follows it.
-/

namespace Switchyard

variable {σ : Type}

namespace Executor

variable {ex : Executor σ} {walk : BranchWalk σ} {g : Graph} {node : Node Graph} {pos : Position} {v : Visit}

/-! ## Steps that nothing breaks off -/

theorem sure_setPhase (record : Option Record) (phase : Phase) (id : Option String) : (setPhase ex record phase id).Sure := by
  cases record with
  | none => trivial
  | some r => exact .change

theorem sure_ended (record : Option Record) (p : Progress) (o : FlowOutcome) : (ended ex record p o).Sure :=
  (sure_setPhase record _ _).bind fun _ => trivial

theorem sure_settle (node : Node Graph) (v : Visit) (p : Progress) (kept : Except CheckpointError Unit × Option Record) :
    (settle ex node v p kept).Sure := by
  obtain ⟨e | u, record⟩ := kept
  · trivial
  · simp only [settle]
    split
    · exact (sure_ended _ _ _).bind fun _ => trivial
    · refine (sure_setPhase _ _ _).bind fun _ => Act.Sure.find.bind fun stopping => ?_
      split
      · exact (sure_ended _ _ _).bind fun _ => trivial
      · trivial

/-- Only storing a record can be broken off. -/
theorem sure_leave (hrecord : pos.record = none) (g : Graph) (node : Node Graph) (started : Nat) (v : Visit) :
    (leave ex g node pos started v).Sure := by
  rw [leave_eq, hrecord]
  exact Act.Sure.find.bind fun finished => Act.Sure.change.bind fun _ => Act.Sure.bind trivial fun kept =>
    sure_settle node v _ kept

/-! ## Node by node -/

/-- A traversal at one of its nodes, as far as it has come there. -/
structure Station (σ : Type) where
  pos : Position
  node : Node Graph
  entering : List (World σ × World σ)
  visiting : List (World σ × World σ) := []
  /-- What the visit came to, once it did. -/
  visit? : Option Visit := none
  /-- The steps after the visit: it is told, kept and routed. -/
  leaving : List (World σ × World σ) := []

namespace Station

def steps (s : Station σ) : List (World σ × World σ) := s.entering ++ s.visiting ++ s.leaving

def visits (made : List (Station σ)) : Visits := made.filterMap fun s => s.visit?.map fun v => (s.node.id, v)

@[simp] theorem visits_nil : visits ([] : List (Station σ)) = [] := rfl

theorem visits_cons {s : Station σ} {v : Visit} (h : s.visit? = some v) (rest : List (Station σ)) :
    visits (s :: rest) = (s.node.id, v) :: visits rest := by
  simp [visits, h]

theorem visits_append (before after : List (Station σ)) : visits (before ++ after) = visits before ++ visits after :=
  List.filterMap_append

end Station

/-- A traversal from a position: the nodes it has come to, the steps it took after the last
    of them, and what is left to do. -/
inductive Journey (ex : Executor σ) (walk : BranchWalk σ) (g : Graph) :
    Nat → Position → List (Station σ) → List (World σ × World σ) → Act σ Walked → Prop
  | unknown {room : Nat} {pos : Position} : g.node? pos.node = none →
      Journey ex walk g room pos [] [] (pure (.error (.unknownNode g.name pos.node), pos.record))
  | full {pos : Position} {node : Node Graph} {closing : List (World σ × World σ)} {y : Act σ Walked} :
      g.node? pos.node = some node → (exceed ex node pos).Goes closing y → Journey ex walk g 0 pos [] closing y
  | entering {room : Nat} {pos : Position} {node : Node Graph} {entering : List (World σ × World σ)} {x : Act σ Nat} :
      g.node? pos.node = some node → (enter ex g node pos.record).Goes entering x → x.Open →
      Journey ex walk g (room + 1) pos [{ pos, node, entering }] []
        (x >>= fun started => visit ex walk g node pos.progress pos.prior >>= fun v =>
          leave ex g node pos started v >>= goOn ex walk g room)
  | visiting {room : Nat} {pos : Position} {node : Node Graph} {entering visiting : List (World σ × World σ)}
      {started : Nat} {x : Act σ Visit} :
      g.node? pos.node = some node → (enter ex g node pos.record).Goes entering (pure started) →
      (visit ex walk g node pos.progress pos.prior).Goes visiting x → x.Open →
      Journey ex walk g (room + 1) pos [{ pos, node, entering, visiting }] []
        (x >>= fun v => leave ex g node pos started v >>= goOn ex walk g room)
  | leaving {room : Nat} {pos : Position} {node : Node Graph} {entering visiting leaving : List (World σ × World σ)}
      {started : Nat} {v : Visit} {x : Act σ Turn} :
      g.node? pos.node = some node → (enter ex g node pos.record).Goes entering (pure started) →
      (visit ex walk g node pos.progress pos.prior).Goes visiting (pure v) →
      (leave ex g node pos started v).Goes leaving x → x.Open →
      Journey ex walk g (room + 1) pos [{ pos, node, entering, visiting, visit? := some v, leaving }] []
        (x >>= goOn ex walk g room)
  | done {room : Nat} {pos : Position} {node : Node Graph} {entering visiting leaving : List (World σ × World σ)}
      {started : Nat} {v : Visit} {walked : Walked} :
      g.node? pos.node = some node → (enter ex g node pos.record).Goes entering (pure started) →
      (visit ex walk g node pos.progress pos.prior).Goes visiting (pure v) →
      (leave ex g node pos started v).Goes leaving (pure (.done walked)) →
      Journey ex walk g (room + 1) pos [{ pos, node, entering, visiting, visit? := some v, leaving }] [] (pure walked)
  | onward {room : Nat} {pos next : Position} {node : Node Graph} {entering visiting leaving : List (World σ × World σ)}
      {started : Nat} {v : Visit} {made : List (Station σ)} {closing : List (World σ × World σ)} {y : Act σ Walked} :
      g.node? pos.node = some node → (enter ex g node pos.record).Goes entering (pure started) →
      (visit ex walk g node pos.progress pos.prior).Goes visiting (pure v) →
      (leave ex g node pos started v).Goes leaving (pure (.onward next)) → Journey ex walk g room next made closing y →
      Journey ex walk g (room + 1) pos ({ pos, node, entering, visiting, visit? := some v, leaving } :: made) closing y

theorem journey_of_loop {room : Nat} {steps : List (World σ × World σ)} {y : Act σ Walked}
    (h : (loop ex walk g room pos).Goes steps y) :
    ∃ made closing, steps = made.flatMap Station.steps ++ closing ∧ Journey ex walk g room pos made closing y := by
  induction room generalizing pos steps with
  | zero =>
    rw [loop_zero] at h
    cases hnode : g.node? pos.node with
    | none =>
      simp only [hnode] at h
      obtain ⟨rfl, rfl⟩ := Act.goes_pure h
      exact ⟨[], [], rfl, .unknown hnode⟩
    | some node =>
      simp only [hnode] at h
      exact ⟨[], steps, rfl, .full hnode h⟩
  | succ room ih =>
    rw [loop_succ] at h
    cases hnode : g.node? pos.node with
    | none =>
      rw [hnode] at h
      obtain ⟨rfl, rfl⟩ := Act.goes_pure h
      exact ⟨[], [], rfl, .unknown hnode⟩
    | some node =>
      simp only [hnode] at h
      rcases Act.goes_bind_open h with ⟨x, henter, hopen, rfl⟩ | ⟨started, entering, steps, rfl, henter, h⟩
      · exact ⟨_, [], by simp [Station.steps], .entering hnode henter hopen⟩
      rcases Act.goes_bind_open h with ⟨x, hvisit, hopen, rfl⟩ | ⟨v, visiting, steps, rfl, hvisit, h⟩
      · exact ⟨_, [], by simp [Station.steps], .visiting hnode henter hvisit hopen⟩
      rcases Act.goes_bind_open h with ⟨x, hleave, hopen, rfl⟩ | ⟨turn, leaving, steps, rfl, hleave, h⟩
      · exact ⟨_, [], by simp [Station.steps], .leaving hnode henter hvisit hleave hopen⟩
      cases turn with
      | done walked =>
        obtain ⟨rfl, rfl⟩ := Act.goes_pure h
        exact ⟨_, [], by simp [Station.steps], .done hnode henter hvisit hleave⟩
      | onward next =>
        obtain ⟨made, closing, rfl, hrest⟩ := ih h
        exact ⟨_, closing, by simp [Station.steps], .onward hnode henter hvisit hleave hrest⟩

/-- A journey is told by the steps that were taken, and nothing else is. -/
theorem Journey.goes {room : Nat} {made : List (Station σ)} {closing : List (World σ × World σ)} {y : Act σ Walked}
    (h : Journey ex walk g room pos made closing y) :
    (loop ex walk g room pos).Goes (made.flatMap Station.steps ++ closing) y := by
  induction h with
  | @unknown room pos hnode =>
    cases room with
    | zero =>
      rw [loop_zero, hnode]
      exact .here _
    | succ room =>
      rw [loop_succ, hnode]
      exact .here _
  | full hnode hended =>
    rw [loop_zero, hnode]
    exact hended
  | entering hnode henter =>
    rw [loop_succ, hnode]
    simpa [Station.steps] using henter.bind _
  | visiting hnode henter hvisit =>
    rw [loop_succ, hnode]
    simpa [Station.steps] using (henter.bind _).trans (hvisit.bind _)
  | leaving hnode henter hvisit hleave =>
    rw [loop_succ, hnode]
    simpa [Station.steps] using (henter.bind _).trans ((hvisit.bind _).trans (hleave.bind _))
  | done hnode henter hvisit hleave =>
    rw [loop_succ, hnode]
    simpa [Station.steps] using (henter.bind _).trans ((hvisit.bind _).trans (hleave.bind _))
  | onward hnode henter hvisit hleave _ ih =>
    rw [loop_succ, hnode]
    simpa [Station.steps] using (henter.bind _).trans ((hvisit.bind _).trans ((hleave.bind _).trans ih))

namespace Journey

variable {room : Nat} {made before after : List (Station σ)} {s : Station σ} {closing : List (World σ × World σ)}
  {y : Act σ Walked}

theorem onward_eq {started : Nat} {steps : List (World σ × World σ)} {next : Position}
    (h : (leave ex g node pos started v).Goes steps (pure (.onward next))) : ∃ target, next = pos.onward node v target := by
  cases parted_of_leave h with
  | onward target => exact ⟨target, rfl⟩

/-- Where a node is entered, the visits before are folded in, and nothing else. -/
theorem progress_eq (h : Journey ex walk g room pos made closing y) (hmade : made = before ++ s :: after) :
    s.pos.progress = pos.progress.after (Station.visits before) := by
  induction h generalizing before with
  | unknown => simp at hmade
  | full => simp at hmade
  | onward _ _ _ hleave _ ih =>
    cases before with
    | nil =>
      obtain ⟨rfl, -⟩ := List.cons.inj hmade
      rfl
    | cons first before =>
      obtain ⟨rfl, hrest⟩ := List.cons.inj hmade
      obtain ⟨target, rfl⟩ := onward_eq hleave
      rw [Station.visits_cons rfl, Progress.after_cons]
      exact ih hrest
  | _ =>
    cases before with
    | nil =>
      obtain ⟨rfl, -⟩ := List.cons.inj hmade
      rfl
    | cons => simp at hmade

theorem isSome_record (h : Journey ex walk g room pos made closing y) (hs : s ∈ made) :
    s.pos.record.isSome = pos.record.isSome := by
  induction h with
  | unknown => cases hs
  | full => cases hs
  | onward _ _ _ hleave _ ih =>
    rcases List.mem_cons.mp hs with rfl | hs
    · rfl
    · obtain ⟨target, rfl⟩ := onward_eq hleave
      rw [ih hs, isSome_record_onward]
  | _ => rw [List.mem_singleton.mp hs]

/-- Every station is at a node of the graph, and is what the engine does there. -/
theorem of_mem (h : Journey ex walk g room pos made closing y) (hs : s ∈ made) :
    g.node? s.pos.node = some s.node ∧ ∃ x, (visit ex walk g s.node s.pos.progress s.pos.prior).Goes
      s.visiting x ∧ ∀ v, s.visit? = some v → x = pure v := by
  induction h with
  | unknown => cases hs
  | full => cases hs
  | entering hnode =>
    obtain rfl := List.mem_singleton.mp hs
    exact ⟨hnode, _, .here _, nofun⟩
  | visiting hnode _ hvisit =>
    obtain rfl := List.mem_singleton.mp hs
    exact ⟨hnode, _, hvisit, nofun⟩
  | leaving hnode _ hvisit =>
    obtain rfl := List.mem_singleton.mp hs
    exact ⟨hnode, _, hvisit, fun _ hv => congrArg pure (Option.some.inj hv)⟩
  | done hnode _ hvisit =>
    obtain rfl := List.mem_singleton.mp hs
    exact ⟨hnode, _, hvisit, fun _ hv => congrArg pure (Option.some.inj hv)⟩
  | onward hnode _ hvisit _ _ ih =>
    rcases List.mem_cons.mp hs with rfl | hs
    · exact ⟨hnode, _, hvisit, fun _ hv => congrArg pure (Option.some.inj hv)⟩
    · exact ih hs

/-- Once a visit has come to an end, its node is left: the traversal is still about that, it has
    come to its end with it, or it goes on. -/
theorem after_visit (h : Journey ex walk g room pos made closing y) (hmade : made = before ++ s :: after)
    (hs : s.visit? = some v) :
    ∃ started x, (leave ex g s.node s.pos started v).Goes s.leaving x ∧
      (x.Open ∧ after = [] ∧ (∃ room, y = x >>= goOn ex walk g room) ∨
        (∃ walked, x = pure (.done walked) ∧ after = [] ∧ y = pure walked) ∨ ∃ next, x = pure (.onward next)) := by
  induction h generalizing before with
  | unknown => simp at hmade
  | full => simp at hmade
  | onward _ _ _ hleave _ ih =>
    cases before with
    | nil =>
      obtain ⟨rfl, -⟩ := List.cons.inj hmade
      cases hs
      exact ⟨_, _, hleave, Or.inr (Or.inr ⟨_, rfl⟩)⟩
    | cons first before => exact ih (List.cons.inj hmade).2
  | leaving _ _ _ hleave hopen =>
    cases before with
    | nil =>
      obtain ⟨rfl, rfl⟩ := List.cons.inj hmade
      cases hs
      exact ⟨_, _, hleave, Or.inl ⟨hopen, rfl, _, rfl⟩⟩
    | cons => simp at hmade
  | done _ _ _ hleave =>
    cases before with
    | nil =>
      obtain ⟨rfl, rfl⟩ := List.cons.inj hmade
      cases hs
      exact ⟨_, _, hleave, Or.inr (Or.inl ⟨_, rfl, rfl, rfl⟩)⟩
    | cons => simp at hmade
  | _ =>
    cases before with
    | nil =>
      obtain ⟨rfl, -⟩ := List.cons.inj hmade
      cases hs
    | cons => simp at hmade

/-- What a traversal ends with is made of the progress that all its visits made. -/
theorem traversal_eq (h : Journey ex walk g room pos made closing y) {t : Traversal} {kept : Option Record}
    (hy : y = pure (.ok t, kept)) :
    ∃ status exit restart failure, t = ending (pos.progress.after (Station.visits made))
      ((pos.progress.after (Station.visits made)).finish status exit (some restart) failure) := by
  induction h with
  | unknown => cases hy
  | full _ hended =>
    obtain ⟨-, hx⟩ := yields_exceed (hy ▸ hended).yields
    cases hx
    exact ⟨_, _, _, _, rfl⟩
  | entering _ _ hopen => exact absurd hy (hopen.bind _ _)
  | visiting _ _ _ hopen => exact absurd hy (hopen.bind _ _)
  | leaving _ _ _ _ hopen => exact absurd hy (hopen.bind _ _)
  | done _ _ _ hleave =>
    cases hy
    cases parted_of_leave hleave with
    | failed => exact ⟨_, _, _, _, rfl⟩
    | finished o w _ _ hroute =>
      obtain ⟨status, exit, restart, failure, rfl, -⟩ := Progress.eq_of_route_finish hroute
      exact ⟨status, exit, restart, failure, rfl⟩
  | onward _ _ _ hleave _ ih =>
    obtain ⟨target, rfl⟩ := onward_eq hleave
    rw [Station.visits_cons rfl, Progress.after_cons]
    exact ih hy

end Journey

end Executor

/-! ## Whole traversals -/

namespace Tour

open Executor (Station Journey Position)

/-- The steps of a traversal as far as it has come, the nodes they were taken at, and what is
    left to do. -/
inductive Travels (u : Tour σ) : List (World σ × World σ) → List (Station σ) → Act σ Executor.Walked → Prop
  | opening {steps : List (World σ × World σ)} {x : Act σ Unit} :
      (u.ex.setPhase u.record .pending none).Goes steps x → x.Open →
      Travels u steps [] (x >>= fun _ => u.ex.loop (u.ex.walkBranch u.levels) u.graph u.ex.config.maxNodeVisits
        (Position.start u.graph u.start u.context u.record))
  | underway {opening closing : List (World σ × World σ)} {made : List (Station σ)} {y : Act σ Executor.Walked} :
      (u.ex.setPhase u.record .pending none).Goes opening (pure ()) →
      Journey u.ex (u.ex.walkBranch u.levels) u.graph u.ex.config.maxNodeVisits
        (Position.start u.graph u.start u.context u.record) made closing y →
      Travels u (opening ++ made.flatMap Station.steps ++ closing) made y

theorem goes_iff_travels {u : Tour σ} {steps : List (World σ × World σ)} {y : Act σ Executor.Walked} :
    u.act.Goes steps y ↔ ∃ made, u.Travels steps made y := by
  constructor
  · intro h
    rcases Act.goes_bind_open h with ⟨x, hopening, hopen, rfl⟩ | ⟨_, opening, after, rfl, hopening, h⟩
    · exact ⟨[], .opening hopening hopen⟩
    · obtain ⟨made, closing, rfl, hjourney⟩ := Executor.journey_of_loop h
      exact ⟨made, by simpa using Travels.underway hopening hjourney⟩
  · rintro ⟨made, hopening | ⟨hopening, hjourney⟩⟩
    · exact hopening.bind _
    · rw [List.append_assoc]
      exact (hopening.bind _).trans hjourney.goes

end Tour

end Switchyard
