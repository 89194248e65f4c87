import Switchyard.Proofs.Engine.Course

/-
  Switchyard.Proofs.Engine.Positions — where a traversal may come while others act.

  The branches of a split change one world in turns, and so do the jobs of one channel.
  What a traversal may come to then is told by `Act.Yields`: each of its steps is taken
  in whatever world it finds. `Comes` are the positions it may come to, each in front of
  the node that the visit at the one before led to, and `Ends` is what it may come to
  from one of them. `ends_of_traverse` is the link: whatever a traversal yields, it
  came to some position and ended there.

  So what holds of a start and is handed on by every visit holds wherever a traversal
  comes, by induction on `Comes`; `loop` is not looked at again.

  What follows a visit is told step by step as well: `parted_of_leave` keeps the world in
  which the token was looked at.
-/

namespace Switchyard

variable {σ : Type}

theorem Progress.flow_of_route_finish {p : Progress} {node : Node Graph} {v : Visit} {stopping : Bool}
    {o : FlowOutcome} (h : p.route node v stopping = .finish o) : o.flow = p.flow := by
  obtain ⟨status, exit, restart, failure, rfl, -⟩ := eq_of_route_finish h
  rfl

namespace Executor

variable {ex : Executor σ} {walk : BranchWalk σ} {g : Graph}

/-! ## One turn -/

/-- What may follow a visit: the record was not kept, the flow has ended, or it is in
    front of another node. The record has the visit in it. -/
inductive Turn.Of (node : Node Graph) (pos : Position) (v : Visit) : Turn → Prop
  | unkept (e : CheckpointError) : pos.record.isSome = true →
      Of node pos v (.done (.error (.checkpoint e), pos.kept node v))
  | failed (f : Failure) : v.failure = some f →
      Of node pos v
        (.done (.ok (ending (pos.folded node v) ((pos.folded node v).engineFailure node.id f)), pos.kept node v))
  | finished (o : FlowOutcome) (stopping : Bool) : v.failure = none →
      (pos.folded node v).route node v stopping = .finish o →
      Of node pos v (.done (.ok (ending (pos.folded node v) o), pos.kept node v))
  | onward (target : String) (stopping : Bool) : v.failure = none →
      (pos.folded node v).route node v stopping = .goto target → Of node pos v (.onward (pos.onward node v target))

theorem yields_keep {record : Option Record} {p : Progress} {o : NodeOutcome} {stored : Except CheckpointError Unit}
    {kept : Option Record} (h : (keep record p o : Act σ _).Yields (stored, kept)) :
    kept = record.map (noted · p o) ∧ (record = none → stored = .ok ()) := by
  cases record with
  | none =>
    cases Act.yields_pure h
    exact ⟨rfl, fun _ => rfl⟩
  | some r =>
    obtain ⟨x, -, h⟩ := Act.yields_bind h
    cases Act.yields_pure h
    exact ⟨rfl, fun hnone => nomatch hnone⟩

theorem yields_ended {record : Option Record} {p : Progress} {o : FlowOutcome} {x : Walked}
    (h : (ended ex record p o).Yields x) : x = (.ok (ending p o), record) := by
  simp only [ended] at h
  obtain ⟨u, -, h⟩ := Act.yields_bind h
  exact Act.yields_pure h

theorem yields_exceed {node : Node Graph} {pos : Position} {x : Walked} (h : (exceed ex node pos).Yields x) :
    ex.config.maxNodeVisits < Text.maxU32 ∧ x = (.ok (ending pos.progress
      (pos.progress.engineFailure node.id (.visitLimitExceeded node.id ex.config.maxNodeVisits))), pos.record) := by
  unfold exceed at h
  split at h
  next hcount => exact ⟨hcount, yields_ended h⟩
  next => cases Act.not_yields_broken h

/-- What leaving a node may come to by these steps: as `Turn.Of`, with the world in which the
    token was looked at. Where it leads on, that look was the last step. -/
inductive Parted (ex : Executor σ) (node : Node Graph) (pos : Position) (v : Visit) (steps : List (World σ × World σ)) :
    Turn → Prop
  | unkept (e : CheckpointError) : pos.record.isSome = true →
      Parted ex node pos v steps (.done (.error (.checkpoint e), pos.kept node v))
  | failed (f : Failure) : v.failure = some f →
      Parted ex node pos v steps
        (.done (.ok (ending (pos.folded node v) ((pos.folded node v).engineFailure node.id f)), pos.kept node v))
  | finished (o : FlowOutcome) (w : World σ) : v.failure = none → (w, w) ∈ steps →
      (pos.folded node v).route node v (w.cancelled.contains ex.scope.token) = .finish o →
      Parted ex node pos v steps (.done (.ok (ending (pos.folded node v) o), pos.kept node v))
  | onward (target : String) (w : World σ) (before : List (World σ × World σ)) : v.failure = none →
      steps = before ++ [(w, w)] →
      (pos.folded node v).route node v (w.cancelled.contains ex.scope.token) = .goto target →
      Parted ex node pos v steps (.onward (pos.onward node v target))

theorem parted_of_leave {node : Node Graph} {pos : Position} {started : Nat} {v : Visit}
    {steps : List (World σ × World σ)} {turn : Turn} (h : (leave ex g node pos started v).Goes steps (pure turn)) :
    Parted ex node pos v steps turn := by
  obtain ⟨finished, timing, steps, rfl, -, h⟩ := Act.goes_bind_pure h
  obtain ⟨_, telling, steps, rfl, -, h⟩ := Act.goes_bind_pure h
  obtain ⟨⟨stored, record⟩, keeping, steps, rfl, hkeep, h⟩ := Act.goes_bind_pure h
  obtain ⟨rfl, hstored⟩ := yields_keep hkeep.yields
  cases stored with
  | error e =>
    cases (Act.goes_pure h).2
    refine .unkept e ?_
    cases hrecord : pos.record with
    | none => cases hstored hrecord
    | some r => rfl
  | ok u =>
    simp only at h
    split at h
    next failure hfailure =>
      obtain ⟨walked, ended, steps, rfl, hended, h⟩ := Act.goes_bind_pure h
      obtain rfl := yields_ended hended.yields
      cases (Act.goes_pure h).2
      exact .failed failure hfailure
    next hfailure =>
      obtain ⟨_, showing, steps, rfl, -, h⟩ := Act.goes_bind_pure h
      obtain ⟨stopping, looking, steps, rfl, hlook, h⟩ := Act.goes_bind_pure h
      obtain ⟨w, rfl, rfl⟩ := Act.goes_find hlook
      split at h
      next o hroute =>
        obtain ⟨walked, ended, after, rfl, hended, h⟩ := Act.goes_bind_pure h
        obtain rfl := yields_ended hended.yields
        cases (Act.goes_pure h).2
        exact .finished o w hfailure (by simp) hroute
      next target hroute =>
        obtain ⟨rfl, hturn⟩ := Act.goes_pure h
        cases hturn
        exact .onward target w (timing ++ telling ++ keeping ++ showing) hfailure (by simp) hroute

theorem turn_of_leave {node : Node Graph} {pos : Position} {started : Nat} {v : Visit} {turn : Turn}
    (h : (leave ex g node pos started v).Yields turn) : Turn.Of node pos v turn := by
  obtain ⟨steps, hgoes⟩ := h.exists_goes
  cases parted_of_leave hgoes with
  | unkept e hrecord => exact .unkept e hrecord
  | failed f hf => exact .failed f hf
  | finished o w hf _ hroute => exact .finished o _ hf hroute
  | onward target w _ hf _ hroute => exact .onward target _ hf hroute

/-! ## All turns -/

/-- The positions a traversal may come to from a position. -/
inductive Comes (ex : Executor σ) (walk : BranchWalk σ) (g : Graph) (pos : Position) : Position → Prop
  | here : Comes ex walk g pos pos
  | onward {p next : Position} {node : Node Graph} {v : Visit} : Comes ex walk g pos p →
      g.node? p.node = some node → (visit ex walk g node p.progress p.prior).Yields v →
      Turn.Of node p v (.onward next) → Comes ex walk g pos next

/-- What a traversal may come to at a position. -/
inductive Ends (ex : Executor σ) (walk : BranchWalk σ) (g : Graph) (pos : Position) : Walked → Prop
  | unknown : g.node? pos.node = none → Ends ex walk g pos (.error (.unknownNode g.name pos.node), pos.record)
  | full {node : Node Graph} : g.node? pos.node = some node →
      ex.config.maxNodeVisits < Text.maxU32 → Ends ex walk g pos (.ok (ending pos.progress
        (pos.progress.engineFailure node.id (.visitLimitExceeded node.id ex.config.maxNodeVisits))), pos.record)
  | done {node : Node Graph} {v : Visit} {walked : Walked} : g.node? pos.node = some node →
      (visit ex walk g node pos.progress pos.prior).Yields v → Turn.Of node pos v (.done walked) →
      Ends ex walk g pos walked

theorem Comes.trans {pos p q : Position} (h : Comes ex walk g pos p) (hq : Comes ex walk g p q) :
    Comes ex walk g pos q := by
  induction hq with
  | here => exact h
  | onward _ hnode hvisit hturn ih => exact .onward ih hnode hvisit hturn

theorem ends_of_loop {room : Nat} {pos : Position} {x : Walked} (h : (loop ex walk g room pos).Yields x) :
    ∃ p, Comes ex walk g pos p ∧ Ends ex walk g p x := by
  induction room generalizing pos with
  | zero =>
    rw [loop_zero] at h
    cases hnode : g.node? pos.node with
    | none =>
      simp only [hnode] at h
      cases Act.yields_pure h
      exact ⟨pos, .here, .unknown hnode⟩
    | some node =>
      simp only [hnode] at h
      obtain ⟨hcount, rfl⟩ := yields_exceed h
      exact ⟨pos, .here, .full hnode hcount⟩
  | succ room ih =>
    rw [loop_succ] at h
    cases hnode : g.node? pos.node with
    | none =>
      simp only [hnode] at h
      cases Act.yields_pure h
      exact ⟨pos, .here, .unknown hnode⟩
    | some node =>
      simp only [hnode] at h
      obtain ⟨started, -, h⟩ := Act.yields_bind h
      obtain ⟨v, hvisit, h⟩ := Act.yields_bind h
      obtain ⟨turn, hleave, h⟩ := Act.yields_bind h
      have hturn := turn_of_leave hleave
      cases turn with
      | done walked =>
        cases Act.yields_pure h
        exact ⟨pos, .here, .done hnode hvisit hturn⟩
      | onward next =>
        obtain ⟨p, hcomes, hends⟩ := ih h
        have hnext : Comes ex walk g pos next := .onward .here hnode hvisit hturn
        exact ⟨p, hnext.trans hcomes, hends⟩

/-- Whatever a traversal yields, it came to some position and ended there. -/
theorem ends_of_traverse {start : FlowStart} {context : Context} {record : Option Record} {x : Walked}
    (h : (traverse ex walk g start context record).Yields x) :
    ∃ p, Comes ex walk g (Position.start g start context record) p ∧ Ends ex walk g p x := by
  simp only [traverse] at h
  obtain ⟨u, -, h⟩ := Act.yields_bind h
  exact ends_of_loop h

/-! ## What is handed on -/

/-- A traversal's progress keeps the name of its flow. -/
theorem Comes.flow_eq {pos p : Position} (h : Comes ex walk g pos p) : p.progress.flow = pos.progress.flow := by
  induction h with
  | here => rfl
  | onward _ _ _ hturn ih =>
    cases hturn
    exact ih

theorem Comes.isSome_record {pos p : Position} (h : Comes ex walk g pos p) :
    p.record.isSome = pos.record.isSome := by
  induction h with
  | here => rfl
  | onward _ _ _ hturn ih =>
    cases hturn
    rw [isSome_record_onward]
    exact ih

/-- A rule that a traversal follows leads to a node of the graph. -/
theorem Turn.Of.contains (hg : g.Valid) {pos next : Position} {node : Node Graph} (hnode : g.node? pos.node = some node)
    {v : Visit} (h : Turn.Of node pos v (.onward next)) : g.contains next.node = true := by
  cases h with
  | onward target stopping _ hroute =>
    obtain ⟨-, t, ht, haction⟩ := Progress.eq_of_route_goto hroute
    have htarget : t.node? = some target := by rw [Transition.node?, haction]
    exact hg.contains_target hnode (Transition.choose_eq_some ht).1 htarget

theorem Comes.contains (hg : g.Valid) {pos p : Position} (h : Comes ex walk g pos p)
    (hpos : g.contains pos.node = true) : g.contains p.node = true := by
  cases h with
  | here => exact hpos
  | onward _ hnode _ hturn => exact hturn.contains hg hnode

/-- A traversal of a built graph from one of its nodes fails only if its record cannot be
    kept. -/
theorem error_of_traverse (hg : g.Valid) {start : FlowStart} (hstart : g.contains start.node = true)
    {context : Context} {record kept : Option Record} {e : FlowError}
    (h : (traverse ex walk g start context record).Yields (.error e, kept)) :
    record.isSome = true ∧ ∃ c, e = .checkpoint c := by
  obtain ⟨p, hcomes, hends⟩ := ends_of_traverse h
  have hnode : g.contains p.node = true := hcomes.contains hg hstart
  cases hends with
  | unknown hnone => simp [Graph.contains, hnone] at hnode
  | done _ _ hturn =>
    cases hturn with
    | unkept c hrecord => exact ⟨by rwa [hcomes.isSome_record] at hrecord, c, rfl⟩

/-- A property of records that noting a node keeps is one of every record on the way. -/
theorem Comes.record {R : Record → Prop} (hR : ∀ r p o, R r → R (noted r p o)) {pos p : Position}
    (h : Comes ex walk g pos p) (hpos : ∀ r ∈ pos.record, R r) : ∀ r ∈ p.record, R r := by
  induction h with
  | here => exact hpos
  | @onward p next node v _ _ _ hturn ih =>
    cases hturn
    exact p.all_kept hR node v ih

theorem Ends.record {R : Record → Prop} (hR : ∀ r p o, R r → R (noted r p o)) {pos : Position} {x : Walked}
    (h : Ends ex walk g pos x) (hpos : ∀ r ∈ pos.record, R r) : ∀ r ∈ x.2, R r := by
  cases h with
  | unknown => exact hpos
  | full => exact hpos
  | @done node v _ _ _ hturn =>
    have hkept := pos.all_kept hR node v hpos
    cases hturn <;> exact hkept

/-- A property of records that noting a node keeps is one of the record a traversal
    leaves. -/
theorem kept_of_traverse_yields {R : Record → Prop} (hR : ∀ r p o, R r → R (noted r p o)) {start : FlowStart}
    {context : Context} {record : Option Record} {x : Walked} (hrecord : ∀ r ∈ record, R r)
    (h : (traverse ex walk g start context record).Yields x) : ∀ r ∈ x.2, R r := by
  obtain ⟨p, hcomes, hends⟩ := ends_of_traverse h
  exact hends.record hR (hcomes.record hR hrecord)

end Executor

end Switchyard
