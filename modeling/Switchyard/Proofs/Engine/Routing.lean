import Switchyard.Proofs.Engine.Attempt
import Switchyard.Proofs.Engine.Keeping
import Switchyard.Proofs.Flow.Visits
import Switchyard.Proofs.Graph.Built

/-
  Switchyard.Proofs.Engine.Routing — a traversal follows the declared rules, visit by
  visit, and its outcome is the one prescribed for the last node it visits.

  The rules are told of the declaration alone: `LeadsTo` says when a visit leads on,
  `EndsAt` how a flow ends at a visit, by the most specific declared rule that matches
  the exit code. Neither knows of tables, of their order or of the walk.

  - `Course.chain`, `Course.sealed`: what a course of visits may be, by induction on it.
  - `traverse_follows_rules`: both, of every traversal of a graph that passed the checks.
  - `limits_panic`: two limits that no traversal can keep.
-/

namespace Switchyard

variable {σ : Type}

/-! ## The rules -/

/-- A visit to a declared node leads on to a node. -/
structure LeadsTo (units : Units σ) (n : Node Graph) (v : Visit) (target : String) : Prop where
  registered : units.missing? n = none
  rule : ∃ t, Transition.MostSpecific n.transitions v.exit.code t ∧ t.action = .goto target

structure FlowEnd where
  status : Status
  exit : Exit
  failure : Option Failure := none
  /-- Where another attempt would begin. -/
  restart : String

/-- Does a visit count as failed where no rule is there to tell? -/
def Visit.Unsuccessful (v : Visit) : Prop :=
  v.exit.code = "FAILED" ∨ v.status = .failed ∨ v.status = .abandoned ∨ v.status = .unknown

/-- How a flow ends at a visit to a declared node; `full` tells that the limit leaves no
    room for another visit. -/
inductive EndsAt (units : Units σ) (limit : Nat) (full : Prop) (n : Node Graph) (v : Visit) : FlowEnd → Prop
  | unregistered (f : Failure) : units.missing? n = some f →
      EndsAt units limit full n v ⟨.failed, ⟨"FAILED", f.message⟩, some f, n.id⟩
  | leafFailed : units.missing? n = none → n.transitions = [] → v.Unsuccessful →
      EndsAt units limit full n v ⟨.failed, v.exit, none, n.id⟩
  | leafStopped : units.missing? n = none → n.transitions = [] → ¬v.Unsuccessful → v.exit.code = "STOPPED" →
      EndsAt units limit full n v ⟨.stopped, v.exit, none, n.id⟩
  | leafCompleted : units.missing? n = none → n.transitions = [] → ¬v.Unsuccessful → v.exit.code ≠ "STOPPED" →
      EndsAt units limit full n v ⟨.completed, v.exit, none, n.id⟩
  | complete (t : Transition) : units.missing? n = none → Transition.MostSpecific n.transitions v.exit.code t →
      t.action = .complete →
      EndsAt units limit full n v
        ⟨t.status.getD .completed, ⟨t.exitCode.getD "COMPLETED", v.exit.description⟩, none, n.id⟩
  | fail (t : Transition) : units.missing? n = none → Transition.MostSpecific n.transitions v.exit.code t →
      t.action = .fail →
      EndsAt units limit full n v
        ⟨t.status.getD .failed, ⟨t.exitCode.getD "FAILED", v.exit.description⟩, none, n.id⟩
  | stop (t : Transition) (restart : String) : units.missing? n = none →
      Transition.MostSpecific n.transitions v.exit.code t → t.action = .stop restart →
      EndsAt units limit full n v
        ⟨t.status.getD .stopped, ⟨t.exitCode.getD "STOPPED", v.exit.description⟩, none, restart⟩
  | unresolved : units.missing? n = none → n.transitions ≠ [] →
      (∀ t ∈ n.transitions, t.accepts v.exit.code = false) →
      EndsAt units limit full n v
        ⟨.failed, ⟨"FAILED", Transition.noMatch v.exit.code⟩, some (.unresolvedTransition n.id v.exit.code), n.id⟩
  | full (t : Transition) (target : String) : units.missing? n = none →
      Transition.MostSpecific n.transitions v.exit.code t → t.action = .goto target → full →
      EndsAt units limit full n v
        ⟨.failed, ⟨"FAILED", (Failure.visitLimitExceeded target limit).message⟩,
          some (.visitLimitExceeded target limit), target⟩

def FlowEnd.traversal (e : FlowEnd) (flow : String) (context : Context) (vs : Visits) (n : Node Graph) (v : Visit) :
    Traversal :=
  { outcome :=
      { flow
        status := e.status
        exit := e.exit
        completed := vs.completed
        lastNode := some n.id
        lastExit := some v.exit
        restartNode := if e.status = .failed ∨ e.status = .stopped then some e.restart else none
        failure := e.failure
        splits := vs.splits Dict.empty }
    context := vs.written context
    updates := vs.written Dict.empty }

namespace Executor

/-! ## One visit routed -/

theorem unsuccessful_iff (v : Visit) : (v.exit.isFailed || v.status.isUnsuccessful) = true ↔ v.Unsuccessful := by
  rw [Bool.or_eq_true]
  refine or_congr (decide_eq_true_iff (p := v.exit.code = "FAILED")) ?_
  cases v.status <;> decide

variable {d : Graph.Declaration} {g : Graph} {units : Units σ} {n : Node Graph} {p : Progress} {v : Visit}

def Visited (n : Node Graph) (v : Visit) (p : Progress) : Prop := p.last = some ⟨n.id, v.status, v.exit⟩

theorem endsAt_of_leaf (limit : Nat) (full : Prop) (hreg : units.missing? n = none) (hleaf : n.transitions = [])
    (hlast : Visited n v p) :
    ∃ e, EndsAt units limit full n v e ∧ p.leaf n.id = p.finish e.status e.exit (some e.restart) e.failure := by
  unfold Visited at hlast
  by_cases hfailed : v.Unsuccessful
  · refine ⟨_, .leafFailed hreg hleaf hfailed, ?_⟩
    simp only [Progress.leaf, hlast, (unsuccessful_iff v).mpr hfailed, if_true]
  · have hno : ¬(v.exit.isFailed || v.status.isUnsuccessful) = true := fun h => hfailed ((unsuccessful_iff v).mp h)
    by_cases hstopped : v.exit.code = "STOPPED"
    · refine ⟨_, .leafStopped hreg hleaf hfailed hstopped, ?_⟩
      simp only [Progress.leaf, hlast, if_neg hno]
      exact if_pos hstopped
    · refine ⟨_, .leafCompleted hreg hleaf hfailed hstopped, ?_⟩
      simp only [Progress.leaf, hlast, if_neg hno]
      exact if_neg hstopped

theorem endsAt_of_ruled (limit : Nat) (full : Prop) (hreg : units.missing? n = none) {t : Transition}
    (ht : Transition.MostSpecific n.transitions v.exit.code t) (hterm : t.isTerminal = true) (hlast : Visited n v p) :
    ∃ e, EndsAt units limit full n v e ∧ p.ruled n.id t = p.finish e.status e.exit (some e.restart) e.failure := by
  have hdesc : p.lastDescription = v.exit.description := by
    unfold Visited at hlast
    simp [Progress.lastDescription, hlast]
  cases haction : t.action with
  | goto target => simp [Transition.isTerminal, haction] at hterm
  | complete => exact ⟨_, .complete t hreg ht haction, by simp only [Progress.ruled, haction, hdesc, Exit.completed]⟩
  | fail => exact ⟨_, .fail t hreg ht haction, by simp only [Progress.ruled, haction, hdesc, Exit.failed]⟩
  | stop restart =>
    exact ⟨_, .stop t restart hreg ht haction, by simp only [Progress.ruled, haction, hdesc, Exit.stopped]⟩

theorem endsAt_of_finish (hb : Graph.Built d g) (hn : n ∈ d.nodes) (limit : Nat) (full : Prop)
    (hreg : units.missing? n = none) (hlast : Visited n v p) {o : FlowOutcome}
    (h : p.route (Graph.tabled n) v false = .finish o) :
    ∃ e, EndsAt units limit full n v e ∧ o = p.finish e.status e.exit (some e.restart) e.failure := by
  simp only [Progress.route, Bool.false_and, Bool.false_eq_true, if_false] at h
  split at h
  next hleaf =>
    cases h
    refine endsAt_of_leaf limit full hreg ?_ hlast
    exact Transition.table_eq_nil.mp (List.isEmpty_iff.mp hleaf)
  next hleaf =>
    cases hchoose : Transition.choose v.exit.code (Graph.tabled n).transitions with
    | none =>
      rw [hchoose] at h
      cases h
      refine ⟨_, .unresolved hreg (fun hnil => hleaf ?_) (Transition.choose_table_eq_none_iff.mp hchoose), rfl⟩
      exact List.isEmpty_iff.mpr (Transition.table_eq_nil.mpr hnil)
    | some t =>
      have ht := (hb.choose_eq_some_iff hn).mp hchoose
      simp only [hchoose] at h
      split at h
      · cases h
      next hgoto =>
        cases h
        refine endsAt_of_ruled limit full hreg ht ?_ hlast
        cases haction : t.action with
        | goto target => exact absurd haction (hgoto target)
        | _ => simp [Transition.isTerminal, haction]

theorem leadsTo_of_goto (hb : Graph.Built d g) (hn : n ∈ d.nodes) (hreg : units.missing? n = none) {stopping : Bool}
    {target : String} (h : p.route (Graph.tabled n) v stopping = .goto target) : LeadsTo units n v target := by
  obtain ⟨-, t, ht, haction⟩ := Progress.eq_of_route_goto h
  exact ⟨hreg, t, (hb.choose_eq_some_iff hn).mp ht, haction⟩

/-! ## Courses of visits -/

def Leads (units : Units σ) (d : Graph.Declaration) (s s' : Stage σ) : Prop :=
  ∃ n ∈ d.nodes, ∃ v, s.visit? = some (n.id, v) ∧ LeadsTo units n v s'.node.id

/-- The engine ended the flow at this visit exactly if the unit is not registered. -/
def Stage.Sound (units : Units σ) (s : Stage σ) : Prop := ∀ v, s.came = .ok v → v.failure = units.missing? s.node

variable {ex : Executor σ} {room : Nat} {pos : Position} {made : List (Stage σ)} {r : Except Halt Walked}
  {w : World σ}

theorem Course.chain (hb : Graph.Built d g) (h : Course ex g room pos made r w)
    (hsound : ∀ s ∈ made, s.Sound ex.units) : made.IsChain (Leads ex.units d) := by
  induction h with
  | unknown => exact .nil
  | full => exact .nil
  | overflow => exact .nil
  | broken => exact .singleton _
  | done => exact .singleton _
  | halted => exact .singleton _
  | @onward room s v next rest r w hnode hcame hleft hrest ih =>
    obtain ⟨hs, hsound⟩ := List.forall_mem_cons.mp hsound
    cases rest with
    | nil => exact .singleton _
    | cons s' rest =>
      refine List.isChain_cons_cons.mpr ⟨?_, ih hsound⟩
      obtain ⟨hf, target, rfl, hroute⟩ := hleft.eq_onward
      obtain ⟨m, hm, -, htabled⟩ := hb.declared_of_node? hnode
      rw [htabled] at hroute
      have hreg : ex.units.missing? m = none := by
        rw [← hf, hs v hcame, htabled]
        rfl
      have hid : s'.node.id = target := Graph.id_of_node? (hrest.pos_of_head? rfl).2
      refine ⟨m, hm, v, by simp [Stage.visit?, hcame, htabled, Graph.tabled], ?_⟩
      rw [hid]
      exact leadsTo_of_goto hb hm hreg hroute

def sealedBy (p : Progress) (e : FlowEnd) : Traversal := ending p (p.finish e.status e.exit (some e.restart) e.failure)

theorem Left.sealed {left : World σ} {t : Traversal} {kept : Option Record} {m : Node Graph} (hb : Graph.Built d g)
    (hm : m ∈ d.nodes) (hfail : v.failure = units.missing? m)
    (h : Left ex (Graph.tabled m) pos v left (.ok (.done (.ok t, kept))))
    (hstop : left.cancelled.contains ex.scope.token = false) (limit : Nat) (full : Prop) :
    ∃ e, EndsAt units limit full m v e ∧ t = sealedBy (pos.progress.apply m.id v) e := by
  cases h with
  | failed f hf =>
    exact ⟨_, .unregistered f (by rw [← hfail, hf]), rfl⟩
  | finished o hf hroute =>
    rw [hstop] at hroute
    have hlast : Visited m v (pos.folded (Graph.tabled m) v) := rfl
    obtain ⟨e, he, rfl⟩ := endsAt_of_finish hb hm limit full (hfail ▸ hf) hlast hroute
    exact ⟨e, he, rfl⟩

theorem Course.sealed (hb : Graph.Built d g) (h : Course ex g room pos made r w)
    (hsound : ∀ s ∈ made, s.Sound ex.units) (hstop : ∀ s ∈ made, s.stopping ex.scope.token = false)
    {t : Traversal} {kept : Option Record} (hr : r = .ok (.ok t, kept)) (hne : made ≠ []) :
    ∃ n ∈ d.nodes, ∃ v e, made.getLast?.bind Stage.visit? = some (n.id, v) ∧
      EndsAt ex.units ex.config.maxNodeVisits (made.length = room) n v e ∧
      t = sealedBy (pos.progress.after (visitsOf made)) e := by
  induction h with
  | unknown => cases hr
  | full => exact absurd rfl hne
  | overflow => cases hr
  | broken => cases hr
  | @done room s v walked hnode hcame hleft =>
    cases hr
    obtain ⟨m, hm, -, htabled⟩ := hb.declared_of_node? hnode
    have hvisit : s.visit? = some (m.id, v) := by simp [Stage.visit?, hcame, htabled, Graph.tabled]
    have hfail : v.failure = ex.units.missing? m := by
      rw [hsound s List.mem_cons_self v hcame, htabled]
      rfl
    rw [htabled] at hleft
    obtain ⟨e, he, ht⟩ := hleft.sealed hb hm hfail (hstop s List.mem_cons_self) ex.config.maxNodeVisits
      ([s].length = room + 1)
    exact ⟨m, hm, v, e, hvisit, he, by simpa [visitsOf, hvisit] using ht⟩
  | halted => cases hr
  | @onward room s v next rest r w hnode hcame hleft hrest ih =>
    obtain ⟨hs, hsound⟩ := List.forall_mem_cons.mp hsound
    obtain ⟨hf, target, rfl, hroute⟩ := hleft.eq_onward
    obtain ⟨m, hm, -, htabled⟩ := hb.declared_of_node? hnode
    have hvisit : s.visit? = some (m.id, v) := by simp [Stage.visit?, hcame, htabled, Graph.tabled]
    have hvisits : visitsOf (s :: rest) = (m.id, v) :: visitsOf rest := by simp [visitsOf, hvisit]
    have hprogress : (s.pos.onward s.node v target).progress = s.pos.progress.apply m.id v := by
      rw [htabled]
      rfl
    rw [hvisits, Progress.after_cons, ← hprogress]
    by_cases hrest' : rest = []
    · -- the rules lead on, but the limit leaves no room
      subst hrest'
      subst hr
      obtain ⟨rfl, rfl⟩ := hrest.eq_of_nil
      have hreg : ex.units.missing? m = none := by
        rw [← hf, hs v hcame, htabled]
        rfl
      rw [htabled] at hroute
      obtain ⟨-, t, ht, haction⟩ := leadsTo_of_goto hb hm hreg hroute
      exact ⟨m, hm, v, _, hvisit, .full t target hreg ht haction rfl, rfl⟩
    · obtain ⟨n, hn, v', e, hlast, he, ht⟩ :=
        ih hsound (fun s' hs' => hstop s' (List.mem_cons_of_mem _ hs')) hr hrest'
      obtain ⟨last, hlast'⟩ := Option.isSome_iff_exists.mp (List.getLast?_isSome.mpr hrest')
      refine ⟨n, hn, v', e, ?_, ?_, ht⟩
      · rw [List.getLast?_cons, hlast']
        rw [hlast'] at hlast
        exact hlast
      · rwa [List.length_cons, Nat.add_right_cancel_iff]

theorem sound_of_mem_stages {walk : BranchWalk σ} {start : FlowStart} {context : Context} {record : Option Record}
    {w : World σ} : ∀ s ∈ ex.stages walk g start context record w, s.Sound ex.units := by
  intro s hs v hcame
  have hvisit := came_of_mem_trail hs
  rw [hcame] at hvisit
  exact failure_of_visit (.of_run (Prod.ext hvisit rfl))

/-! ## Traversals -/

theorem traversal_sealedBy (e : FlowEnd) (flow : String) (context : Context) (last : Option NodeOutcome) (vs : Visits)
    (hvs : vs.getLast? = some (n.id, v)) :
    sealedBy ((Progress.start flow context last).after vs) e = e.traversal flow context vs n v := by
  have hrestart : (if e.status.isRestartable then some e.restart else none)
      = if e.status = .failed ∨ e.status = .stopped then some e.restart else none := by
    cases e.status <;> rfl
  simp [sealedBy, ending, Progress.finish, Progress.after_eq, FlowEnd.traversal, Progress.start, Visits.last?, hvs,
    hrestart]

theorem getLast?_visitsOf {x : String × Visit} (h : made.getLast?.bind Stage.visit? = some x) :
    (visitsOf made).getLast? = some x := by
  obtain ⟨s, hs, hx⟩ := Option.bind_eq_some_iff.mp h
  obtain ⟨before, rfl⟩ := List.getLast?_eq_some_iff.mp hs
  simp [visitsOf, hx]

structure Follows (ex : Executor σ) (walk : BranchWalk σ) (d : Graph.Declaration) (g : Graph) (start : String)
    (made : List (Stage σ)) : Prop where
  first : made.head?.map (·.node.id) = some start
  chain : made.IsChain (Leads ex.units d)
  /-- Each is what the engine does at the node, from the progress so far. -/
  visited : ∀ s ∈ made, ((ex.visit walk g s.node s.pos.progress s.pos.prior).run s.entered).1 = s.came

/-- A record of the attempt that this one is the first record of. -/
def OfAttempt (first : Option Record) (rec : Record) : Prop := ∃ r ∈ first, rec.Continues r

/-- What breaks a traversal off. -/
inductive Breaks (ex : Executor σ) (d : Graph.Declaration) (record : Option Record) (made : List (Stage σ))
    (x : Act σ Walked) (w : World σ) : Halt → Prop
  /-- The last visit does not end, be it to a unit, to a job or to branches. -/
  | unending {s : Stage σ} {h : Halt} : made.getLast? = some s → s.came = .error h → (∀ p, h ≠ .panic p) →
      Breaks ex d record made x w h
  /-- The last visit is to a split, with a limit of branches that cannot be kept. -/
  | places {s : Stage σ} {branches : List Graph} : made.getLast? = some s → s.came = .error (.panic tooManyPlaces) →
      s.node.kind = .split branches → maxPlaces < ex.config.maxParallelBranches →
      Breaks ex d record made x w (.panic tooManyPlaces)
  /-- A record is refused, and its instance cannot be told of. -/
  | unwritable {p : Payload} : AppendFails x w (OfAttempt record) .unwritable → Breaks ex d record made x w (.panic p)
  /-- The rules lead on and the limit leaves no room, but it is the greatest number there is. -/
  | overflow {n : Node Graph} {v : Visit} {target : String} : n ∈ d.nodes →
      made.getLast?.bind Stage.visit? = some (n.id, v) → LeadsTo ex.units n v target →
      made.length = ex.config.maxNodeVisits → Text.maxU32 ≤ ex.config.maxNodeVisits →
      Breaks ex d record made x w (.panic countOverflow)

/-- What a traversal from a context may come to by its visits: the end prescribed for
    the last one, an error if a record is refused, or what broke it off. -/
def Settles (ex : Executor σ) (d : Graph.Declaration) (context : Context) (record : Option Record)
    (made : List (Stage σ)) (x : Act σ Walked) (w : World σ) : Prop :=
  match (x.run w).1 with
  | .ok (.ok t, _) => ∃ n ∈ d.nodes, ∃ v e, made.getLast?.bind Stage.visit? = some (n.id, v) ∧
      EndsAt ex.units ex.config.maxNodeVisits (made.length = ex.config.maxNodeVisits) n v e ∧
      t = e.traversal d.name context (visitsOf made) n v
  | .ok (.error (.checkpoint e), _) => AppendFails x w (OfAttempt record) (.refused e.cause)
  | .ok (.error (.unknownNode _ _), _) => False
  | .error h => Breaks ex d record made x w h

section Unsettled

variable {walk : BranchWalk σ} {start : FlowStart} {context : Context} {record : Option Record}

/-- A traversal is its walk after the first word of it. -/
theorem run_traverse (ex : Executor σ) (walk : BranchWalk σ) (g : Graph) (start : FlowStart) (context : Context)
    (record : Option Record) (w : World σ) :
    (ex.traverse walk g start context record).run w =
      (loop ex walk g ex.config.maxNodeVisits (Position.start g start context record)).run
        ((setPhase ex record .pending none).run w).2 ∧
    ∀ w', (loop ex walk g ex.config.maxNodeVisits (Position.start g start context record)).Passes
        ((setPhase ex record .pending none).run w).2 w' →
      (ex.traverse walk g start context record).Passes w w' := by
  obtain ⟨live, hphase⟩ := run_setPhase ex record .pending none w
  rw [hphase]
  exact ⟨Act.run_bind_ok hphase, fun w' h => .bind_right hphase h⟩

theorem all_ofAttempt (start : FlowStart) :
    ∀ rec ∈ (Position.start g start context record).record, OfAttempt record rec :=
  fun rec hrec => ⟨rec, hrec, .refl rec⟩

theorem OfAttempt.noted {first : Option Record} {rec : Record} (h : OfAttempt first rec) (p : Progress)
    (o : NodeOutcome) : OfAttempt first (Executor.noted rec p o) := by
  obtain ⟨r, hr, hrec⟩ := h
  exact ⟨r, hr, hrec.noted p o⟩

theorem appendFails_of_traverse {e : CheckpointError} {kept : Option Record}
    (h : ((ex.traverse walk g start context record).run w).1 = .ok (.error (.checkpoint e), kept)) :
    AppendFails (ex.traverse walk g start context record) w (OfAttempt record) (.refused e.cause) := by
  obtain ⟨hrun, hpasses⟩ := run_traverse ex walk g start context record w
  rw [hrun] at h
  have hfails := unkept_of_loop (R := OfAttempt record) (fun _ p o hrec => hrec.noted p o) (all_ofAttempt start)
    (Prod.ext h rfl)
  exact hfails.mono hpasses

theorem breaks_of_traverse (hb : Graph.Built d g) {h : Halt}
    (hcame : ((ex.traverse walk g start context record).run w).1 = .error h) :
    Breaks ex d record (ex.stages walk g start context record w) (ex.traverse walk g start context record) w h := by
  obtain ⟨hrun, hpasses⟩ := run_traverse ex walk g start context record w
  rw [hrun] at hcame
  rcases broken_of_loop (R := OfAttempt record) (fun _ p o hrec => hrec.noted p o) (all_ofAttempt start)
    (Prod.ext hcame rfl) with ⟨s, hlast, hbroken⟩ | ⟨⟨p, rfl⟩, hfails⟩ | ⟨rfl, hcount, hlength, hled⟩
  · by_cases hpanic : ∃ q, h = .panic q
    · obtain ⟨q, rfl⟩ := hpanic
      have hvisit := came_of_mem_trail (List.mem_of_getLast? hlast)
      rw [hbroken] at hvisit
      obtain ⟨rfl, hmany, branches, hkind⟩ := panic_of_visit hvisit
      exact .places hlast hbroken hkind hmany
    · exact .unending hlast hbroken fun p hp => hpanic ⟨p, hp⟩
  · exact .unwritable (hfails.mono hpasses)
  · have hne : ex.stages walk g start context record w ≠ [] := by
      intro hnil
      rw [stages] at hnil
      rw [hnil, List.length_nil] at hlength
      rw [← hlength] at hcount
      exact absurd hcount (by decide)
    obtain ⟨s, hlast⟩ := Option.isSome_iff_exists.mp (List.getLast?_isSome.mpr hne)
    obtain ⟨v, target, hcame, hfailure, hroute⟩ := hled s hlast
    have hmem := List.mem_of_getLast? hlast
    have hnode := (course_of_traverse ex walk g start context record w).node?_of_mem s hmem
    obtain ⟨n, hn, -, htabled⟩ := hb.declared_of_node? hnode
    have hregistered : ex.units.missing? n = none := by
      rw [← hfailure, sound_of_mem_stages s hmem v hcame, htabled]
      rfl
    rw [htabled] at hroute
    refine .overflow hn ?_ (leadsTo_of_goto hb hn hregistered hroute) hlength hcount
    simp [hlast, Stage.visit?, hcame, htabled, Graph.tabled]

end Unsettled

theorem traverse_follows_rules (hb : d.build = .ok g) (ex : Executor σ) (walk : BranchWalk σ) (start : FlowStart)
    (hstart : g.contains start.node = true) (hlimit : 1 ≤ ex.config.maxNodeVisits) (context : Context)
    (record : Option Record) (w : World σ)
    (hstop : ∀ s ∈ ex.stages walk g start context record w, s.stopping ex.scope.token = false) :
    Follows ex walk d g start.node (ex.stages walk g start context record w) ∧
      Settles ex d context record (ex.stages walk g start context record w)
        (ex.traverse walk g start context record) w := by
  have hbuilt := Graph.built hb
  have hcourse := course_of_traverse ex walk g start context record w
  have hne := hcourse.ne_nil hstart hlimit
  have hsound : ∀ s ∈ ex.stages walk g start context record w, s.Sound ex.units := sound_of_mem_stages
  have hstay : ∀ id n, g.node? id = some n → ∀ t ∈ n.transitions, ∀ target, t.node? = some target →
      g.contains target = true := fun _ _ hn _ ht _ => hbuilt.contains_target hn ht
  refine ⟨⟨?_, hcourse.chain hbuilt hsound, fun s hs => came_of_mem_trail hs⟩, ?_⟩
  · obtain ⟨s, hs⟩ := Option.isSome_iff_exists.mp (List.isSome_head?.mpr hne)
    rw [hs, Option.map_some, Graph.id_of_node? (hcourse.pos_of_head? hs).2]
    rfl
  · unfold Settles
    rcases hr : ((ex.traverse walk g start context record).run w).1 with h | ⟨e | t, kept⟩
    · exact breaks_of_traverse hbuilt hr
    · obtain ⟨-, c, rfl⟩ := hcourse.error_eq hr hstart hstay
      exact appendFails_of_traverse hr
    · obtain ⟨n, hn, v, e, hlast, he, rfl⟩ := hcourse.sealed hbuilt hsound hstop hr hne
      refine ⟨n, hn, v, e, hlast, he, ?_⟩
      rw [← hbuilt.name]
      exact traversal_sealedBy e g.name context start.last _ (getLast?_visitsOf hlast)

/-! ### A flow with a cycle -/

def refill : Graph.Declaration :=
  { name := "refill"
    nodes :=
      [⟨"load", .step "load", [.complete "EMPTY", .goto "*" "check"]⟩,
       ⟨"check", .decision "enough", [{ Transition.complete "*" with exitCode := some "FILLED" }, .goto "M?RE" "load"]⟩] }

def refillGraph : Graph :=
  { name := "refill"
    entry := "load"
    nodes :=
      [⟨"load", .step "load", [.complete "EMPTY", .goto "*" "check"]⟩,
       ⟨"check", .decision "enough", [.goto "M?RE" "load", { Transition.complete "*" with exitCode := some "FILLED" }]⟩] }

def refillUnits : Units Nat :=
  { step := fun _ => some fun _ loads => .finish (loads + 1) (.result { status := .completed, exit := Exit.completed })
    decider := fun _ => some fun _ loads => .finish loads (.result ⟨if loads < 2 then "MORE" else "ENOUGH", ""⟩) }

def refillExecutor : Executor Nat :=
  { config := { maxNodeVisits := 5 }
    units := refillUnits
    launch := none
    answer := fun _ => pure .unavailable
    scope :=
      { job := "refill", instanceId := ⟨"tank"⟩, id := ⟨1⟩, attempt := 1, parameters := Dict.empty, depth := 0
        token := 0 } }

def idleWorld : World Nat :=
  { repository := { store := .shelf Shelf.empty }
    bus := Bus.ofCapacity 4
    clock := { origin := Instant.ofSeconds 0 0 }
    memory := 0 }

def refillStages : List (Stage Nat) :=
  refillExecutor.stages (fun _ _ _ => pure .lost) refillGraph { node := "load" } Dict.empty none idleWorld

theorem refill_follows_rules :
    refill.build = .ok refillGraph ∧ refillStages.map (·.node.id) = ["load", "check", "load", "check"] ∧
      Follows refillExecutor (fun _ _ _ => pure .lost) refill refillGraph "load" refillStages ∧
      Settles refillExecutor refill Dict.empty none refillStages
        (refillExecutor.traverse (fun _ _ _ => pure .lost) refillGraph { node := "load" } Dict.empty none)
        idleWorld := by
  have hb : refill.build = .ok refillGraph := by rfl
  have hstop : (refillStages.all fun s => !s.stopping refillExecutor.scope.token) = true := by decide +kernel
  refine ⟨hb, by decide +kernel, ?_⟩
  refine traverse_follows_rules hb refillExecutor _ { node := "load" } (by decide +kernel) (by decide) Dict.empty none
    idleWorld fun s hs => ?_
  simpa using List.all_eq_true.mp hstop s hs

/-! ### Limits that cannot be kept -/

def flood : Graph.Declaration := { name := "flood", nodes := [⟨"load", .step "load", [.goto "*" "load"]⟩] }

def floodNode : Node Graph := ⟨"load", .step "load", [.goto "*" "load"]⟩

def floodGraph : Graph := { name := "flood", entry := "load", nodes := [floodNode] }

def flooding (ex : Executor Nat) : Executor Nat :=
  { ex with config := { maxNodeVisits := Text.maxU32 }, units := refillUnits }

def loaded : Visit := { status := .completed, exit := Exit.completed }

/-- In front of the one node and not asked to stop, with such a record in such a history. -/
def Loading (K : Option Record → Repository → Prop) (pos : Position) (w : World Nat) : Prop :=
  pos.node = "load" ∧ w.cancelled = [] ∧ K pos.record w.repository

/-- A history that takes the record of every node, and is one of its kind again. -/
def Accepting (K : Option Record → Repository → Prop) : Prop :=
  ∀ record p o (w : World Nat), K record w.repository →
    ∃ w₁, (keep record p o).run w = (.ok (.ok (), record.map (noted · p o)), w₁) ∧ w₁.cancelled = w.cancelled ∧
      K (record.map (noted · p o)) w₁.repository

variable {K : Option Record → Repository → Prop}

theorem run_leave_load (hkeep : Accepting K) (ex : Executor Nat) (pos : Position) (started : Nat) (w : World Nat)
    (hcancelled : w.cancelled = []) (hrecord : K pos.record w.repository) :
    ∃ left, (leave (flooding ex) floodGraph floodNode pos started loaded).run w =
      (.ok (.onward (pos.onward floodNode loaded "load")), left) ∧ left.cancelled = [] ∧
        K (pos.kept floodNode loaded) left.repository := by
  have hwaited : (Act.waited : Act Nat Nat).run w = (.ok w.clock.waited, w) := rfl
  obtain ⟨bus, htold⟩ : ∃ bus, (Act.publish (.nodeFinished (flooding ex).scope.id floodGraph.name floodNode.id
    loaded.status loaded.exit (w.clock.waited - started))).run w = (.ok (), { w with bus }) := ⟨_, rfl⟩
  obtain ⟨w₁, hkept, hsame, hK⟩ := hkeep pos.record (pos.folded floodNode loaded)
    ⟨floodNode.id, loaded.status, loaded.exit⟩ { w with bus } hrecord
  obtain ⟨live, hphase⟩ := run_setPhase (flooding ex) (pos.kept floodNode loaded) .awaitingMatch none w₁
  have hstop : w₁.cancelled = [] := hsame.trans hcancelled
  refine ⟨{ w₁ with live }, ?_, hstop, hK⟩
  rw [leave_eq, Act.run_bind_ok hwaited, Act.run_bind_ok htold, Act.run_bind_ok hkept]
  show ((flooding ex).setPhase (pos.kept floodNode loaded) .awaitingMatch none >>= _).run w₁ = _
  rw [Act.run_bind_ok hphase]
  simp only [Act.isCancelled, Act.run_bind, Act.run_find, hstop]
  rfl

/-- Every load leads on to the next one. -/
theorem loading_leads (hkeep : Accepting K) (ex : Executor Nat) (walk : BranchWalk Nat) (pos : Position)
    (w : World Nat) (h : Loading K pos w) :
    ∃ node v next left, LeadsOn (flooding ex) walk floodGraph pos w node v next left ∧ Loading K next left := by
  obtain ⟨hnode, hcancelled, hrecord⟩ := h
  obtain ⟨live, henter⟩ := run_enter (flooding ex) floodGraph floodNode pos.record w
  have hvisit : ∀ w : World Nat, (visit (flooding ex) walk floodGraph floodNode pos.progress pos.prior).run w =
      (.ok loaded, { w with memory := w.memory + 1 }) := fun _ => rfl
  obtain ⟨left, hgone, hleft, hkept⟩ := run_leave_load hkeep ex pos w.clock.waited
    { w with live, bus := w.bus.publish (.nodeStarted ex.scope.id "flood" "load"), memory := w.memory + 1 }
    hcancelled hrecord
  exact ⟨floodNode, loaded, pos.onward floodNode loaded "load", left, ⟨by rw [hnode]; rfl, henter, hvisit _, hgone⟩,
    rfl, hleft, hkept⟩

def fan : Graph.Declaration :=
  { name := "fan"
    nodes := [⟨"loads", .split [{ name := "b", entry := "load", nodes := [⟨"load", .step "load", []⟩] }], []⟩] }

def fanGraph : Graph := { name := "fan", entry := "loads", nodes := fan.nodes }

/-- Neither does the flow that never ends come to its limit, nor the split to its branches. -/
theorem limits_panic :
    flood.build = .ok floodGraph ∧ idleWorld.cancelled = [] ∧
      (((flooding refillExecutor).traverse (fun _ _ _ => pure .lost) floodGraph { node := "load" } Dict.empty none).run
        idleWorld).1 = .error (.panic countOverflow) ∧
      fan.build = .ok fanGraph ∧
      (({ refillExecutor with config := { maxParallelBranches := maxPlaces + 1 } }.traverse (fun _ _ _ => pure .lost)
        fanGraph { node := "loads" } Dict.empty none).run idleWorld).1 = .error (.panic tooManyPlaces) := by
  refine ⟨by rfl, rfl, ?_, by rfl, by rfl⟩
  rw [(run_traverse _ _ _ _ _ _ _).1]
  have hkeep : Accepting (fun record _ => record = none) := by
    rintro _ p o w rfl
    exact ⟨w, rfl, rfl, rfl⟩
  have hstart : Loading (fun record _ => record = none)
      (Position.start floodGraph { node := "load" } Dict.empty none) idleWorld := ⟨rfl, rfl, rfl⟩
  obtain ⟨last, left, hrun, -⟩ := loop_overflows (Nat.le_refl _) (loading_leads hkeep refillExecutor _) hstart
  exact congrArg Prod.fst hrun

end Executor

end Switchyard
