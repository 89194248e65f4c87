import Switchyard.Proofs.Engine.Course

/-
  Switchyard.Proofs.Engine.Steady — flows whose units go by nothing that tells one attempt
  from another.

  A `Setting` is what is left of a briefing without the attempt, its identifier and the
  status of the visit before. Where visits are a function of it (`Steady`), so is what
  comes next (`ahead`), and a `Leg` is the way that rules and units lead from one setting
  to another while no stop is asked for.

  - `Course.whole`: a traversal that no one stops goes a leg and ends where that ends.
  - `Course.finishes`: another traversal from the same setting goes the same way, however
    much it differs in everything that units do not see.
  - `Course.cut`: one that is asked to stop on the way goes the first part of it, and the
    rest is a leg from where it is to begin again.
-/

namespace Switchyard

variable {σ : Type}

/-- What a unit goes by: its briefing without what tells one attempt from another. -/
structure Setting where
  flow : String
  node : String
  parameters : Parameters
  context : Context
  last : Option (String × Exit)

def Briefing.setting (b : Briefing) : Setting :=
  { flow := b.flow
    node := b.node
    parameters := b.parameters
    context := b.context
    last := b.last.map fun o => (o.node, o.exit) }

def Setting.progress (c : Setting) : Progress :=
  Progress.start c.flow c.context (c.last.map fun (node, exit) => ⟨node, Status.ofExit exit, exit⟩)

def Setting.onward (c : Setting) (v : Visit) (target : String) : Setting :=
  { c with node := target, context := c.context.merge v.updates, last := some (c.node, v.exit) }

/-! ## Routing by the last visit alone -/

namespace Progress

def finishAs (p : Progress) (o : FlowOutcome) : FlowOutcome := p.finish o.status o.exit o.restartNode o.failure

theorem finishAs_finish (p q : Progress) (status : Status) (exit : Exit) (restart : Option String)
    (failure : Option Failure) :
    p.finishAs (q.finish status exit restart failure) = p.finish status exit restart failure := by
  cases status <;> rfl

/-- Where a visit leads depends on no more of the progress than the last visit. -/
theorem route_congr {p q : Progress} (h : p.last = q.last) (n : Node Graph) (v : Visit) (stopping : Bool) :
    p.route n v stopping = match q.route n v stopping with
      | .goto target => .goto target
      | .finish o => .finish (p.finishAs o) := by
  have hleaf : p.leaf n.id = p.finishAs (q.leaf n.id) := by
    simp only [leaf, h]
    cases q.last with
    | none => exact (finishAs_finish p q _ _ _ _).symm
    | some o =>
      dsimp only
      split
      · exact (finishAs_finish p q _ _ _ _).symm
      · split <;> exact (finishAs_finish p q _ _ _ _).symm
  have hdesc : p.lastDescription = q.lastDescription := by simp only [lastDescription, h]
  have hruled : ∀ t, p.ruled n.id t = p.finishAs (q.ruled n.id t) := by
    intro t
    simp only [ruled, hdesc, finishAs_finish]
  simp only [route]
  split
  · exact congrArg Next.finish (finishAs_finish p q _ _ _ _).symm
  split
  · exact congrArg Next.finish hleaf
  cases Transition.choose v.exit.code n.transitions with
  | none => exact congrArg Next.finish (finishAs_finish p q _ _ _ _).symm
  | some t =>
    dsimp only
    cases t.action with
    | goto target =>
      cases stopping with
      | true => exact congrArg Next.finish (finishAs_finish p q _ _ _ _).symm
      | false => rfl
    | _ => exact congrArg Next.finish (hruled t)

end Progress

namespace Executor

/-! ## The way ahead -/

/-- The visit made in a setting and where it leads, if no stop is asked for. -/
def ahead (f : Setting → Except Halt Visit) (g : Graph) (c : Setting) : Option (Visit × Next) :=
  match g.node? c.node, f c with
  | some node, .ok v =>
    let p := c.progress.apply node.id v
    some (v, match v.failure with
      | some failure => .finish (p.engineFailure node.id failure)
      | none => p.route node v false)
  | _, _ => none

inductive Leg (f : Setting → Except Halt Visit) (g : Graph) : Setting → Visits → Setting → Prop
  | here (c : Setting) : Leg f g c [] c
  | step {c c' : Setting} {v : Visit} {target : String} {vs : Visits} : ahead f g c = some (v, .goto target) →
      Leg f g (c.onward v target) vs c' → Leg f g c ((c.node, v) :: vs) c'

theorem Leg.context {f : Setting → Except Halt Visit} {g : Graph} {a c : Setting} {vs : Visits}
    (h : Leg f g a vs c) : c.context = vs.written a.context := by
  induction h with
  | here => rfl
  | step _ _ ih => exact ih

def Position.setting (ex : Executor σ) (g : Graph) (pos : Position) : Setting :=
  { flow := g.name
    node := pos.node
    parameters := ex.scope.parameters
    context := pos.progress.context
    last := pos.progress.last.map fun o => (o.node, o.exit) }

def Steady (f : Setting → Except Halt Visit) (ex : Executor σ) (g : Graph) (made : List (Stage σ)) : Prop :=
  ∀ s ∈ made, s.came = f (briefing ex g s.node s.pos.progress).setting

/-- Storing one of these records was refused, and nothing was done since. -/
def Refused (R : Record → Prop) (w : World σ) : Prop :=
  ∃ rec w₀ x, R rec ∧ (Checkpoint.node rec).run w₀ = (x, w) ∧ x ≠ .ok (.ok ())

variable {f : Setting → Except Halt Visit} {ex : Executor σ} {g : Graph} {pos : Position}

theorem setting_of_node? {node : Node Graph} (h : g.node? pos.node = some node) :
    (briefing ex g node pos.progress).setting = pos.setting ex g := by
  simp [briefing, Briefing.setting, Position.setting, Graph.id_of_node? h]

theorem Steady.of_head {s : Stage σ} {rest : List (Stage σ)} (h : Steady f ex g (s :: rest))
    (hnode : g.node? s.pos.node = some s.node) : f (s.pos.setting ex g) = s.came := by
  rw [h s List.mem_cons_self, setting_of_node? hnode]

theorem Steady.of_tail {s : Stage σ} {rest : List (Stage σ)} (h : Steady f ex g (s :: rest)) : Steady f ex g rest :=
  fun x hx => h x (List.mem_cons_of_mem _ hx)

theorem visitsOf_cons_setting {s : Stage σ} {rest : List (Stage σ)} {v : Visit} (hcame : s.came = .ok v)
    (hnode : g.node? s.pos.node = some s.node) :
    visitsOf (s :: rest) = ((s.pos.setting ex g).node, v) :: visitsOf rest := by
  rw [visitsOf_cons hcame, Graph.id_of_node? hnode]
  rfl

theorem setting_onward {node : Node Graph} (h : g.node? pos.node = some node) (v : Visit) (target : String) :
    (pos.onward node v target).setting ex g = (pos.setting ex g).onward v target := by
  simp [Position.setting, Setting.onward, Position.onward, Position.folded, Progress.apply, Graph.id_of_node? h]

section OneVisit

variable {node : Node Graph} {v : Visit} {left : World σ} (hnode : g.node? pos.node = some node)
  (hf : f (pos.setting ex g) = .ok v)

include hnode hf

theorem ahead_eq : ahead f g (pos.setting ex g) = some (v, match v.failure with
    | some failure => .finish (((pos.setting ex g).progress.apply node.id v).engineFailure node.id failure)
    | none => ((pos.setting ex g).progress.apply node.id v).route node v false) := by
  rw [ahead, hf, show (pos.setting ex g).node = pos.node from rfl, hnode]

theorem ahead_of_onward {next : Position} (h : Left ex node pos v left (.ok (.onward next))) :
    ∃ target, ahead f g (pos.setting ex g) = some (v, .goto target) ∧ next = pos.onward node v target ∧
      left.cancelled.contains ex.scope.token = false := by
  obtain ⟨hfailure, target, rfl, hroute⟩ := h.eq_onward
  have hstop := (Progress.eq_of_route_goto hroute).1
  refine ⟨target, ?_, rfl, hstop⟩
  have hcongr := Progress.route_congr (p := (pos.setting ex g).progress.apply node.id v) (q := pos.folded node v) rfl
    node v false
  rw [hstop] at hroute
  rw [ahead_eq hnode hf, hfailure, hcongr, hroute]

theorem ahead_of_done {t : Traversal} {kept : Option Record} (h : Left ex node pos v left (.ok (.done (.ok t, kept))))
    (hstop : left.cancelled.contains ex.scope.token = false) :
    ∃ o, ahead f g (pos.setting ex g) = some (v, .finish o) ∧
      t = ending (pos.folded node v) ((pos.folded node v).finishAs o) := by
  rw [ahead_eq hnode hf]
  cases h with
  | failed failure hfailure =>
    rw [hfailure]
    exact ⟨_, rfl, congrArg (ending _) (Progress.finishAs_finish _ _ _ _ _ _).symm⟩
  | finished o hfailure hroute =>
    have hcongr := Progress.route_congr (p := pos.folded node v) (q := (pos.setting ex g).progress.apply node.id v) rfl
      node v false
    rw [hstop, hcongr] at hroute
    rw [hfailure]
    cases hahead : ((pos.setting ex g).progress.apply node.id v).route node v false with
    | goto target =>
      rw [hahead] at hroute
      cases hroute
    | finish o' =>
      rw [hahead] at hroute
      cases hroute
      exact ⟨o', rfl, rfl⟩

/-- A visit that would lead on ends the flow in front of the next node if a stop was asked for. -/
theorem ending_of_stopping {t : Traversal} {kept : Option Record}
    (h : Left ex node pos v left (.ok (.done (.ok t, kept)))) {target : String}
    (hahead : ahead f g (pos.setting ex g) = some (v, .goto target))
    (hstop : left.cancelled.contains ex.scope.token = true) (hstatus : v.status ≠ .stopped)
    (hbranches : v.branches = none) :
    t = ending (pos.folded node v) ((pos.folded node v).stopRequested target) := by
  rw [ahead_eq hnode hf] at hahead
  cases h with
  | failed failure hfailure =>
    rw [hfailure] at hahead
    cases hahead
  | finished o hfailure hroute =>
    rw [hfailure] at hahead
    have hcongr := Progress.route_congr (p := pos.folded node v) (q := (pos.setting ex g).progress.apply node.id v) rfl
      node v false
    have hgoto : ((pos.setting ex g).progress.apply node.id v).route node v false = .goto target := by
      simpa using hahead
    have hstopped : ¬v.Stopped := by simp [Visit.Stopped, hstatus, hbranches]
    rw [hstop, ((pos.folded node v).route_under_stop node v).2 hstopped, hcongr, hgoto] at hroute
    cases hroute
    rfl

end OneVisit

section Kept

variable {node : Node Graph} {v : Visit} {left : World σ} {R : Record → Prop}

theorem Left.refused {e : Halt} (h : Left ex node pos v left (.error e)) (hR : ∀ rec ∈ pos.kept node v, R rec) :
    Refused R left := by
  cases h with
  | halted e w₀ rec hrec hrun => exact ⟨rec, w₀, _, hR rec hrec, hrun, by simp⟩

/-- A traversal that is over is so with an outcome, if the record of its last visit is kept. -/
theorem Left.exists_outcome {walked : Walked} (h : Left ex node pos v left (.ok (.done walked)))
    (hR : ∀ rec ∈ pos.kept node v, R rec) (hkept : ¬Refused R left) : ∃ t kept, walked = (.ok t, kept) := by
  cases h with
  | unkept e w₀ rec hrec hrun => exact absurd ⟨rec, w₀, _, hR rec hrec, hrun, by simp⟩ hkept
  | failed => exact ⟨_, _, rfl⟩
  | finished => exact ⟨_, _, rfl⟩

end Kept

/-! ## Traversals on their way -/

section Ways

variable {room : Nat} {made : List (Stage σ)} {r : Except Halt Walked} {w : World σ} {R : Record → Prop} {vs : Visits}
  {c : Setting} {v : Visit} {o : FlowOutcome}

theorem exists_of_ahead {a : Setting} {x : Visit × Next} (h : ahead f g a = some x) :
    ∃ node, g.node? a.node = some node ∧ f a = .ok x.1 := by
  unfold ahead at h
  split at h
  next node v hnode hf =>
    cases h
    exact ⟨node, hnode, hf⟩
  · cases h

/-- A traversal that no one stops goes a leg and ends where that ends. -/
theorem Course.whole (h : Course ex g room pos made r w) (hsteady : Steady f ex g made)
    (hcalm : ∀ s ∈ made, s.stopping ex.scope.token = false) {t : Traversal} {kept : Option Record}
    (hr : r = .ok (.ok t, kept)) (hlimit : ∀ node limit, t.outcome.failure ≠ some (.visitLimitExceeded node limit)) :
    ∃ vs c v o, Leg f g (pos.setting ex g) vs c ∧ ahead f g c = some (v, .finish o) ∧
      visitsOf made = vs ++ [(c.node, v)] ∧
        t = ending (pos.progress.after (visitsOf made)) ((pos.progress.after (visitsOf made)).finishAs o) := by
  induction h with
  | unknown => cases hr
  | full =>
    cases hr
    exact absurd rfl (hlimit _ _)
  | overflow => cases hr
  | broken => cases hr
  | @done room s v walked hnode hcame hleft =>
    cases hr
    have hf : f (s.pos.setting ex g) = .ok v := (hsteady.of_head hnode).trans hcame
    obtain ⟨o, hahead, ht⟩ := ahead_of_done hnode hf hleft (hcalm s List.mem_cons_self)
    refine ⟨[], _, v, o, .here _, hahead, visitsOf_cons_setting hcame hnode, ?_⟩
    simpa [visitsOf_cons hcame, Position.folded] using ht
  | halted => cases hr
  | @onward room s v next rest r w hnode hcame hleft hrest ih =>
    have hf : f (s.pos.setting ex g) = .ok v := (hsteady.of_head hnode).trans hcame
    obtain ⟨target, hahead, rfl, -⟩ := ahead_of_onward hnode hf hleft
    obtain ⟨vs, c, v', o, hleg, hend, hvisits, ht⟩ := ih hsteady.of_tail
      (fun x hx => hcalm x (List.mem_cons_of_mem _ hx)) hr
    rw [setting_onward hnode] at hleg
    refine ⟨_ :: vs, c, v', o, .step hahead hleg, hend, ?_, ?_⟩
    · rw [visitsOf_cons_setting hcame hnode, hvisits, List.cons_append]
    · rw [visitsOf_cons hcame]
      exact ht

/-- A traversal that is asked to stop on the way ends there, and the rest of the leg leads
    on from where it is to begin again. -/
theorem Course.cut (h : Course ex g room pos made r w) (hsteady : Steady f ex g made)
    (hplain : ∀ s ∈ made, ∀ v, s.came = .ok v → v.branches = none) (hR : ∀ rec p o, R rec → R (noted rec p o))
    (hpos : ∀ rec ∈ pos.record, R rec) (hkept : ¬Refused R w) (hleg : Leg f g (pos.setting ex g) vs c)
    {j : Nat} {last : Stage σ} (hlast : made[j]? = some last) (hcame : last.came = .ok v) (hstatus : v.status ≠ .stopped)
    (hstop : last.stopping ex.scope.token = true) (hj : j < vs.length) :
    ∃ target rest kept, vs = visitsOf made ++ rest ∧ made ≠ [] ∧
      Leg f g (Position.setting ex g ⟨pos.progress.after (visitsOf made), target, none, none⟩) rest c ∧
        r = .ok (.ok (ending (pos.progress.after (visitsOf made))
          ((pos.progress.after (visitsOf made)).stopRequested target)), kept) := by
  induction h generalizing vs j with
  | unknown => cases hlast
  | full => cases hlast
  | overflow => cases hlast
  | broken hnode hcame' =>
    cases j with
    | zero =>
      cases hlast
      cases hcame.symm.trans hcame'
    | succ j => cases hlast
  | @done room s u walked hnode hcame' hleft =>
    cases j with
    | succ j => cases hlast
    | zero =>
      obtain rfl : s = last := Option.some.inj hlast
      obtain rfl : v = u := Except.ok.inj (hcame.symm.trans hcame')
      have hf : f (s.pos.setting ex g) = .ok v := (hsteady.of_head hnode).trans hcame
      obtain ⟨t, kept, rfl⟩ := hleft.exists_outcome (s.pos.all_kept hR s.node v hpos) hkept
      cases hleg with
      | here => cases hj
      | @step _ _ u target rest hahead hleg =>
        obtain ⟨node, -, hu⟩ := exists_of_ahead hahead
        cases hu.symm.trans hf
        have ht := ending_of_stopping hnode hf hleft hahead hstop hstatus (hplain s List.mem_cons_self _ hcame)
        refine ⟨target, rest, kept, ?_, List.cons_ne_nil _ _, ?_, ?_⟩
        · rw [visitsOf_cons_setting hcame hnode]
          rfl
        · rw [← setting_onward hnode] at hleg
          rw [visitsOf_cons hcame]
          exact hleg
        · rw [ht]
          simp [visitsOf_cons hcame, Position.folded]
  | @halted room s u e hnode hcame' hleft =>
    exact absurd (hleft.refused (s.pos.all_kept hR s.node u hpos)) hkept
  | @onward room s u next rest r w hnode hcame' hleft hrest ih =>
    have hf : f (s.pos.setting ex g) = .ok u := (hsteady.of_head hnode).trans hcame'
    obtain ⟨target, hahead, rfl, hcalm⟩ := ahead_of_onward hnode hf hleft
    cases j with
    | zero =>
      -- a stop asked for by then would have ended the traversal at this visit
      cases hlast
      cases hcalm.symm.trans hstop
    | succ j =>
      cases hleg with
      | here => cases hj
      | step hstep hleg =>
        cases hahead.symm.trans hstep
        rw [← setting_onward hnode] at hleg
        obtain ⟨target', rest', kept, hvs, -, hleg', hr⟩ := ih hsteady.of_tail
          (fun x hx => hplain x (List.mem_cons_of_mem _ hx)) (s.pos.all_kept hR s.node u hpos) hkept hleg hlast
          (Nat.lt_of_succ_lt_succ hj)
        refine ⟨target', rest', kept, ?_, List.cons_ne_nil _ _, ?_, ?_⟩
        · rw [visitsOf_cons_setting hcame' hnode, hvs, List.cons_append]
        · rw [visitsOf_cons hcame']
          exact hleg'
        · rw [visitsOf_cons hcame']
          exact hr

end Ways

end Executor

end Switchyard
