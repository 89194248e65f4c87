import Switchyard.Proofs.Engine.Journey
import Switchyard.Proofs.Engine.Routing
import Switchyard.Proofs.Engine.Stopping

/-
  Switchyard.Proofs.Engine.Cancelled — how a traversal ends that is asked to stop.

  `StopsAt` tells the end of a flow at a visit after which a stop has been asked for, by the
  declared rules alone. A unit that nobody registered fails the flow as ever. A visit that
  stopped, or one of whose branches did, is the place to begin again; else the node that it
  leads on to is. A visit that leads nowhere ends the flow as it would without the stop
  (`EndsAt`).

  A traversal looks at the token once for each node, after it has folded in and kept the
  visit, so nothing of the visit is lost (`Progress.route_under_stop`, `stopped_of_parted`).

  - `Tour.stop_settles_end`: all of this for every traversal, whatever others do between two
    of its steps.
-/

namespace Switchyard

variable {σ : Type}

/-! ## The rules under a stop -/

def FlowEnd.stopRequested (restart : String) : FlowEnd := ⟨.stopped, ⟨"STOPPED", "stop requested"⟩, none, restart⟩

/-- How a flow ends at a visit to a declared node after which it is asked to stop. -/
inductive StopsAt (units : Units σ) (limit : Nat) (n : Node Graph) (v : Visit) : FlowEnd → Prop
  | unregistered {e : FlowEnd} : units.missing? n ≠ none → EndsAt units limit False n v e → StopsAt units limit n v e
  | atNode : units.missing? n = none → v.Stopped → StopsAt units limit n v (.stopRequested n.id)
  | inFront {target : String} : ¬v.Stopped → LeadsTo units n v target → StopsAt units limit n v (.stopRequested target)
  | ended {e : FlowEnd} : units.missing? n = none → ¬v.Stopped → EndsAt units limit False n v e →
      StopsAt units limit n v e

namespace Executor

variable {ex : Executor σ} {walk : BranchWalk σ} {d : Graph.Declaration} {g : Graph} {n : Node Graph} {p : Progress}
  {pos : Position} {v : Visit}

theorem stopsAt_of_route {units : Units σ} (hb : Graph.Built d g) (hn : n ∈ d.nodes) (limit : Nat)
    (hreg : units.missing? n = none) (hlast : Visited n v p) {o : FlowOutcome}
    (h : p.route (Graph.tabled n) v true = .finish o) :
    ∃ e, StopsAt units limit n v e ∧ o = p.finish e.status e.exit (some e.restart) e.failure := by
  obtain ⟨hstopping, hgoing⟩ := p.route_under_stop (Graph.tabled n) v
  by_cases hstopped : v.Stopped
  · rw [hstopping hstopped] at h
    cases h
    exact ⟨_, .atNode hreg hstopped, rfl⟩
  · rw [hgoing hstopped] at h
    cases hroute : p.route (Graph.tabled n) v false with
    | finish o' =>
      rw [hroute] at h
      cases h
      obtain ⟨e, he, ho⟩ := endsAt_of_finish hb hn limit False hreg hlast hroute
      exact ⟨e, .ended hreg hstopped he, ho⟩
    | goto target =>
      rw [hroute] at h
      cases h
      exact ⟨_, .inFront hstopped (leadsTo_of_goto hb hn hreg hroute), rfl⟩

/-! ## Leaving a node under a stop -/

/-- All the while a node is left, the attempt is asked to stop. -/
def Station.Asked (t : Token) (s : Station σ) : Prop := ∀ x ∈ s.leaving, Stopping t x.1

/-- The node is the last one, and unless the record cannot be kept, the flow ends there as the
    rules under a stop say. -/
theorem stopped_of_parted (hb : Graph.Built d g) (hn : n ∈ d.nodes) (hfail : v.failure = ex.units.missing? n)
    {steps : List (World σ × World σ)} {turn : Turn} (h : Parted ex (Graph.tabled n) pos v steps turn)
    (hasked : ∀ x ∈ steps, Stopping ex.scope.token x.1) :
    ∃ walked, turn = .done walked ∧
      ((∃ c, walked.1 = .error (.checkpoint c)) ∧ pos.record.isSome = true ∨
        ∃ e, StopsAt ex.units ex.config.maxNodeVisits n v e ∧
          walked.1 = .ok (sealedBy (pos.progress.apply n.id v) e)) := by
  have hlast : Visited n v (pos.folded (Graph.tabled n) v) := rfl
  have hlooked : ∀ w, (w, w) ∈ steps → w.cancelled.contains ex.scope.token = true := fun w hw => by
    simpa [Stopping] using hasked _ hw
  cases h with
  | unkept c hrecord => exact ⟨_, rfl, Or.inl ⟨⟨c, rfl⟩, hrecord⟩⟩
  | failed f hf =>
    have hmissing : ex.units.missing? n = some f := by rw [← hfail, hf]
    exact ⟨_, rfl, Or.inr ⟨_, .unregistered (by simp [hmissing]) (.unregistered f hmissing), rfl⟩⟩
  | finished o w hf hw hroute =>
    rw [hlooked w hw] at hroute
    obtain ⟨e, he, rfl⟩ := stopsAt_of_route hb hn ex.config.maxNodeVisits (hfail ▸ hf) hlast hroute
    exact ⟨_, rfl, Or.inr ⟨e, he, rfl⟩⟩
  | onward target w before hf hsteps hroute =>
    rw [hlooked w (by simp [hsteps])] at hroute
    cases (Progress.eq_of_route_goto hroute).1

structure Station.EndsStopped (ex : Executor σ) (d : Graph.Declaration) (s : Station σ) (v : Visit) (y : Act σ Walked) :
    Prop where
  came : ∀ walked, y = pure walked →
    (∃ c, walked.1 = .error (.checkpoint c)) ∧ s.pos.record.isSome = true ∨
      ∃ n ∈ d.nodes, s.node = Graph.tabled n ∧ ∃ e, StopsAt ex.units ex.config.maxNodeVisits n v e ∧
        walked.1 = .ok (sealedBy (s.pos.progress.apply s.node.id v) e)
  unbroken : ∀ h, y = .broken h → s.pos.record.isSome = true

theorem Journey.ends_of_asked (hb : Graph.Built d g) {room : Nat} {made before after : List (Station σ)}
    {closing : List (World σ × World σ)} {y : Act σ Walked} (h : Journey ex walk g room pos made closing y)
    {s : Station σ} (hmade : made = before ++ s :: after) (hs : s.visit? = some v)
    (hasked : s.Asked ex.scope.token) : after = [] ∧ s.EndsStopped ex d v y := by
  have hmem : s ∈ made := hmade ▸ List.mem_append_right _ List.mem_cons_self
  obtain ⟨hnode, x, hvisit, hx⟩ := h.of_mem hmem
  obtain ⟨n, hn, -, htabled⟩ := hb.declared_of_node? hnode
  have hfail : v.failure = ex.units.missing? n := by
    rw [failure_of_visit ((hx v hs) ▸ hvisit).yields, htabled]
    rfl
  obtain ⟨started, x, hleave, ⟨hopen, rfl, room, rfl⟩ | ⟨walked, rfl, rfl, rfl⟩ | ⟨next, rfl⟩⟩ := h.after_visit hmade hs
  · refine ⟨rfl, fun walked hy => absurd hy (hopen.bind _ _), fun e hy => ?_⟩
    cases hrecord : s.pos.record with
    | some r => rfl
    | none =>
      have hsure := (sure_leave hrecord g s.node started v).goes hleave
      rw [hopen.eq_broken hy] at hsure
      exact hsure.elim
  · have hparted := parted_of_leave hleave
    rw [htabled] at hparted
    obtain ⟨walked', heq, hcame⟩ := stopped_of_parted hb hn hfail hparted hasked
    cases heq
    refine ⟨rfl, fun walked' hy => ?_, nofun⟩
    cases hy
    exact hcame.imp id fun hends => ⟨n, hn, htabled, by rw [htabled]; exact hends⟩
  · have hparted := parted_of_leave hleave
    rw [htabled] at hparted
    obtain ⟨walked, heq, -⟩ := stopped_of_parted hb hn hfail hparted hasked
    cases heq

end Executor

/-! ## Whole traversals -/

namespace Tour

open Executor (Station)

variable {u : Tour σ} {steps : List (World σ × World σ)} {made before after : List (Station σ)} {s : Station σ}
  {y : Act σ Executor.Walked}

/-- How a traversal ends that is asked to stop after a visit, the last one it makes. -/
structure EndsStopped (u : Tour σ) (d : Graph.Declaration) (made : List (Station σ)) (s : Station σ) (v : Visit)
    (y : Act σ Executor.Walked) : Prop where
  /-- Its end is the one that the rules prescribe, with all that its visits left. -/
  came : ∀ t kept, y = pure (.ok t, kept) → ∃ n ∈ d.nodes, s.node = Graph.tabled n ∧
    ∃ e, StopsAt u.ex.units u.ex.config.maxNodeVisits n v e ∧
      t = e.traversal d.name u.context (Station.visits made) n v
  /-- What the visit wrote is kept, and so is what became of its branches. -/
  written : ∀ t kept, y = pure (.ok t, kept) →
    t.context = s.pos.progress.context.merge v.updates ∧ t.updates = s.pos.progress.updates.merge v.updates
  branches : ∀ t kept, y = pure (.ok t, kept) → ∀ outcomes, v.branches = some outcomes →
    t.outcome.splits.get? s.node.id = some outcomes
  /-- There is no end only if the record could not be kept. -/
  unkept : ∀ e kept, y = pure (.error e, kept) → u.record.isSome = true ∧ ∃ c, e = .checkpoint c
  unbroken : ∀ h, y = .broken h → u.record.isSome = true

theorem endsStopped_of_asked {d : Graph.Declaration} (hb : d.build = .ok u.graph) (h : u.Travels steps made y)
    (hmade : made = before ++ s :: after) {v : Visit} (hs : s.visit? = some v) (hasked : s.Asked u.ex.scope.token) :
    after = [] ∧ u.EndsStopped d made s v y := by
  cases h with
  | opening => simp at hmade
  | underway _ hjourney =>
    have hbuilt := Graph.built hb
    obtain ⟨rfl, hends⟩ := hjourney.ends_of_asked hbuilt hmade hs hasked
    have hmem : s ∈ made := hmade ▸ List.mem_append_right _ List.mem_cons_self
    have hrecord : s.pos.record.isSome = u.record.isSome := hjourney.isSome_record hmem
    have hvisits : Station.visits made = Station.visits before ++ [(s.node.id, v)] := by
      rw [hmade, Station.visits_append, Station.visits_cons hs, Station.visits_nil]
    have hprogress : s.pos.progress.apply s.node.id v =
        (Progress.start u.graph.name u.context u.start.last).after (Station.visits made) := by
      rw [hvisits, Progress.after_concat, hjourney.progress_eq hmade]
      rfl
    have hcame : ∀ t kept, y = pure (.ok t, kept) → ∃ n ∈ d.nodes, s.node = Graph.tabled n ∧
        ∃ e, StopsAt u.ex.units u.ex.config.maxNodeVisits n v e ∧
          t = Executor.sealedBy (s.pos.progress.apply s.node.id v) e := by
      intro t kept hy
      obtain ⟨⟨c, hc⟩, -⟩ | ⟨n, hn, htabled, e, he, ht⟩ := hends.came _ hy
      · cases hc
      · exact ⟨n, hn, htabled, e, he, Except.ok.inj ht⟩
    refine ⟨rfl, fun t kept hy => ?_, fun t kept hy => ?_, fun t kept hy outcomes hout => ?_, fun e kept hy => ?_,
      fun e hy => hrecord ▸ hends.unbroken e hy⟩
    · obtain ⟨n, hn, htabled, e, he, rfl⟩ := hcame t kept hy
      refine ⟨n, hn, htabled, e, he, ?_⟩
      rw [hprogress, hbuilt.name]
      exact Executor.traversal_sealedBy e d.name u.context u.start.last _ (by rw [hvisits, htabled]; simp [Graph.tabled])
    · obtain ⟨n, hn, htabled, e, he, rfl⟩ := hcame t kept hy
      exact ⟨rfl, rfl⟩
    · obtain ⟨n, hn, htabled, e, he, rfl⟩ := hcame t kept hy
      show (s.pos.progress.apply s.node.id v).splits.get? s.node.id = some outcomes
      simp only [Progress.apply, hout, Dict.get?_insert_self]
    · obtain ⟨⟨c, hc⟩, hsome⟩ | ⟨n, hn, htabled, e, he, ht⟩ := hends.came _ hy
      · exact ⟨hrecord ▸ hsome, c, Except.error.inj hc⟩
      · cases ht

/-- A stop that is in force by the end of a visit is so all the while the node is left. -/
theorem asked_of_visiting (hex : u.ex.Closed (lasting u.ex.scope.token)) (h : u.Travels steps made y)
    (hothers : Undisturbed u.ex.scope.token steps) (hs : s ∈ made)
    (hstop : ∃ x ∈ s.entering ++ s.visiting, Stopping u.ex.scope.token x.2) : s.Asked u.ex.scope.token := by
  have hgoes : u.act.Goes steps y := goes_iff_travels.mpr ⟨made, h⟩
  have hpairs := pairwise_stopped hothers (Act.Preserves.goes (lasting_act hex) hgoes)
  cases h with
  | opening => cases hs
  | underway =>
    have hsub : s.steps.Sublist (made.flatMap Station.steps) :=
      List.sublist_flatten_of_mem (List.mem_map_of_mem hs)
    have hown := (List.pairwise_append.mp (List.pairwise_append.mp hpairs).1).2.1.sublist hsub
    obtain ⟨x, hx, hstopped⟩ := hstop
    exact fun l hl => (List.pairwise_append.mp hown).2.2 x hx l hl hstopped

/-- What it means for a traversal of a declared graph to be asked to stop. -/
structure SettledByStop (u : Tour σ) (d : Graph.Declaration) : Prop where
  /-- Whatever others do between two steps, it goes from node to node. -/
  divides : ∀ steps y, u.act.Goes steps y ↔ ∃ made, u.Travels steps made y
  /-- A visit after which it is asked to stop is the last one, and settles the end. -/
  settled : ∀ steps made y, u.Travels steps made y → ∀ before s after v, made = before ++ s :: after →
    s.visit? = some v → s.Asked u.ex.scope.token → after = [] ∧ u.EndsStopped d made s v y
  /-- So does one that a stop was in force at the end of, if nobody takes that back. -/
  lasts : u.ex.Closed (lasting u.ex.scope.token) → ∀ steps made y, u.Travels steps made y →
    Undisturbed u.ex.scope.token steps → ∀ s ∈ made,
      (∃ x ∈ s.entering ++ s.visiting, Stopping u.ex.scope.token x.2) → s.Asked u.ex.scope.token

/-- A traversal of a built graph, a job's own or a branch, makes no visit after one by which
    it is asked to stop. It begins again at that node if the node stopped, or one of its
    branches did, and at the node it would have gone on to if there is one; otherwise it ends
    as it would have. Nothing of the visit is lost. -/
theorem stop_settles_end {u : Tour σ} {d : Graph.Declaration} (hb : d.build = .ok u.graph) : u.SettledByStop d where
  divides _ _ := goes_iff_travels
  settled _ _ _ h _ _ _ _ hmade hs hasked := endsStopped_of_asked hb h hmade hs hasked
  lasts hex _ _ _ h hothers _ hs hstop := asked_of_visiting hex h hothers hs hstop

end Tour

/-! ### A day that is called off -/

namespace Stall

def shift : Graph := ⟨"shift", "serve", [⟨"serve", .step "serve", []⟩]⟩

def day : Graph.Declaration :=
  { name := "day"
    nodes := [⟨"open", .split [shift], [.goto "*" "count"]⟩, ⟨"count", .step "count", []⟩] }

def opening : Node Graph := ⟨"open", .split [shift], [.goto "*" "count"]⟩

def dayGraph : Graph := ⟨"day", "open", [opening, ⟨"count", .step "count", []⟩]⟩

def units : Units Unit :=
  { step := fun name => some fun _ m =>
      if name = "serve" then
        .ask m .cancel fun _ m => .finish m (.result
          { status := .stopped, exit := Exit.stopped, updates := Dict.empty.insert "taken" (.int 3) })
      else .finish m (.result { status := .completed, exit := Exit.completed })
    decider := fun _ => none }

def executor : Executor Unit :=
  { config := {}
    units
    launch := none
    answer := fun _ => pure .unavailable
    scope := ⟨"day", ⟨"day"⟩, ExecutionId.numbered 0 0, 1, Dict.empty, 0, 0⟩ }

def square : World Unit :=
  { repository := { store := .shelf Shelf.empty }
    bus := Bus.ofCapacity 4
    clock := { origin := Instant.ofSeconds 0 0 }
    memory := () }

def tour : Tour Unit :=
  { ex := executor, levels := 1, graph := dayGraph, start := FlowStart.entry dayGraph, context := Dict.empty
    world := square }

open Executor (Position Station)

def entry : Position := Position.start dayGraph (FlowStart.entry dayGraph) Dict.empty none

def entered : World Unit := ((executor.enter dayGraph opening none).run square).2

def visited : World Unit :=
  ((executor.visit (executor.walkBranch 1) dayGraph opening entry.progress entry.prior).run entered).2

def served : FlowOutcome :=
  { flow := "shift"
    status := .stopped
    exit := ⟨"STOPPED", "stop requested"⟩
    completed := ["serve"]
    lastNode := some "serve"
    lastExit := some Exit.stopped
    restartNode := some "serve" }

def joined : Visit :=
  { status := .completed
    exit := Exit.completed
    updates := Dict.empty.insert "taken" (.int 3)
    branches := some [served] }

def closed : Traversal :=
  { outcome :=
      { flow := "day"
        status := .stopped
        exit := ⟨"STOPPED", "stop requested"⟩
        completed := ["open"]
        lastNode := some "open"
        lastExit := some Exit.completed
        restartNode := some "open"
        splits := Dict.empty.insert "open" [served] }
    context := Dict.empty.insert "taken" (.int 3)
    updates := Dict.empty.insert "taken" (.int 3) }

def station : Station Unit :=
  { pos := entry
    node := opening
    entering := (executor.enter dayGraph opening none).path square
    visiting := (executor.visit (executor.walkBranch 1) dayGraph opening entry.progress entry.prior).path entered
    visit? := some joined
    leaving := (executor.leave dayGraph opening entry 0 joined).path visited }

theorem travels : tour.Travels station.steps [station] (pure (.ok closed, none)) := by
  have henter : (executor.enter dayGraph opening none).run square = (.ok 0, entered) := by rfl
  have hvisit : (executor.visit (executor.walkBranch 1) dayGraph opening entry.progress entry.prior).run entered =
      (.ok joined, visited) := by rfl
  have hleave : ((executor.leave dayGraph opening entry 0 joined).run visited).1 = .ok (.done (.ok closed, none)) := by
    rfl
  have hmade : tour.Travels ([] ++ [station].flatMap Station.steps ++ []) [station] (pure (.ok closed, none)) :=
    .underway (.here _) (.done (by rfl) (Act.goes_path henter) (Act.goes_path hvisit)
      (Act.goes_path (Prod.ext hleave rfl)))
  simpa using hmade

theorem day_stops_at_opening : day.build = .ok tour.graph ∧ tour.Travels station.steps [station] (pure (.ok closed, none)) ∧
    station.Asked executor.scope.token ∧
    tour.EndsStopped day [station] station joined (pure (.ok closed, none)) := by
  have hb : day.build = .ok tour.graph := by rfl
  have hasked : ∀ x ∈ station.leaving, executor.scope.token ∈ x.1.cancelled := by decide +kernel
  exact ⟨hb, travels, hasked, ((Tour.stop_settles_end hb).settled _ _ _ travels [] station [] joined rfl rfl hasked).2⟩

end Stall

end Switchyard
