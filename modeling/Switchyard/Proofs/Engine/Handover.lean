import Mathlib.Data.List.Induction
import Switchyard.Proofs.Engine.Errands
import Switchyard.Proofs.Engine.Restart
import Switchyard.Proofs.Store.Persistence

/-
  Switchyard.Proofs.Engine.Handover — what the first node of a flow that is taken up is told
  of the visit before it.

  A record keeps the node and the exit of a flow's last visit, and so does the outcome of
  a branch; the status is made up anew from the exit's code (`NodeOutcome.recorded`). So a
  flow that is taken up hands over the outcome of the last visit as it was if the code
  said the status. That is always so of a decision and of a split
  (`Executor.status_of_visit`); a step may report any status with any code, and so may a
  job that was launched.

  `HandsOver` says this of a flow and of the one that takes it up. An attempt takes up its
  job's own flow; where it begins at a split, it takes up the branches that had not
  completed, down through the splits in these (`GoesOn`). Nothing else is taken up: every
  other branch begins at its entry and is told of no visit.

  - `Definition.told_on_restart`: all of this, for every attempt after one that failed or
    stopped.
-/

namespace Switchyard

variable {σ : Type}

/-! ## What is kept of a visit -/

namespace NodeOutcome

/-- As it is told once it was recorded: the status is the one the exit's code stands for. -/
def recorded (o : NodeOutcome) : NodeOutcome := { o with status := Status.ofExit o.exit }

theorem recorded_eq_iff {o : NodeOutcome} : o.recorded = o ↔ o.status = Status.ofExit o.exit := by
  cases o
  simp [recorded, eq_comm]

end NodeOutcome

/-- The end of a flow keeps the node and the exit of what it was told last. -/
theorem lastOutcome?_eq (last : Option NodeOutcome) :
    lastOutcome? (last.map (·.node)) (last.map (·.exit)) = last.map NodeOutcome.recorded := by
  cases last <;> rfl

theorem Exit.reads_compact (e : Exit) :
    Json.Form.compact.read? (Json.Form.compact.write e.toJson) >>= Exit.ofJson? = some e := by
  have hdepth : e.toJson.depth ≤ Json.maxDepth := by
    rw [e.toJson_eq, Exit.slots]
    by_cases h : e.description = "" <;> simp [h, Json.depth, Json.depthMembers, Json.maxDepth]
  exact (Json.Form.compact_reads e.plain_toJson hdepth).bind e.ofJson?_toJson

/-- What is told of the last visit is read from a store as it was put there. -/
theorem Store.last_of_readBack {s : Store} {r r' : Record} (h : s.readBack r = .ok r') :
    r'.lastNode = r.lastNode ∧ r'.lastExit = r.lastExit := by
  cases s with
  | shelf l =>
    cases h
    exact ⟨rfl, rfl⟩
  | table t =>
    obtain ⟨-, -, -, -, hnode, hexit, -⟩ := Row.toRecord_eq_ok h
    have hread : Row.structured? .compact "last_exit" Exit.ofJson? (Row.ofRecord r).lastExit = .ok r.lastExit :=
      Row.structured?_eq_ok _ fun e _ => e.reads_compact
    exact ⟨hnode.symm, Except.ok.inj (hexit.symm.trans hread)⟩

/-! ## Visits whose status is the exit's -/

/-- Does the exit of a visit to the node say its status? -/
def Node.goesByExit (n : Node Graph) : Bool :=
  match n.kind with
  | .decision _ => true
  | .split _ => true
  | _ => false

@[simp] theorem Status.ofExit_failed (description : String) :
    Status.ofExit (Exit.failed.withDescription description) = .failed := rfl

theorem Split.status_of_join (branches : List Graph) (plans : List Plan) (context : Context)
    (ends : List (Nat × BranchEnd)) :
    (join branches plans context ends).status = Status.ofExit (join branches plans context ends).exit := by
  simp only [join, aggregate]
  split <;> rfl

namespace Executor

variable {ex : Executor σ} {walk : BranchWalk σ} {g : Graph} {node : Node Graph} {p : Progress}
  {prior : Option (List FlowOutcome)} {v : Visit}

theorem status_of_visitDecision {name : String} (h : (visitDecision ex g node p name).Yields v) :
    v.status = Status.ofExit v.exit := by
  simp only [visitDecision] at h
  cases hunit : ex.units.decider name with
  | none =>
    rw [hunit] at h
    cases h
    rfl
  | some unit =>
    simp only [hunit] at h
    obtain ⟨m, -, h⟩ := Act.yields_bind h
    obtain ⟨r, -, h⟩ := Act.yields_bind h
    cases r <;> cases h <;> rfl

/-- A decision has the status of its exit, and so has a split. -/
theorem status_of_visit (h : (visit ex walk g node p prior).Yields v) (hnode : node.goesByExit = true) :
    v.status = Status.ofExit v.exit := by
  unfold Node.goesByExit at hnode
  simp only [visit] at h
  split at h
  next hkind => simp [hkind] at hnode
  next => exact status_of_visitDecision h
  next =>
    obtain ⟨ends, -, rfl⟩ := of_visitSplit h
    exact Split.status_of_join _ _ _ _
  next hkind => simp [hkind] at hnode

def Stage.brought (s : Stage σ) (v : Visit) : NodeOutcome := ⟨s.node.id, v.status, v.exit⟩

end Executor

/-! ## Taking up a flow -/

namespace Tour

open Executor (Stage visitsOf)

variable {t t' u own own' : Tour σ} {s s' : Stage σ} {v : Visit} {o : FlowOutcome}

/-- A flow that ended, by its last visit, and one that takes it up, by its first. -/
structure HandsOver (t t' : Tour σ) (s s' : Stage σ) (v : Visit) : Prop where
  last : t.visits.getLast? = some s
  came : s.came = .ok v
  first : t'.visits.head? = some s'
  /-- It is told of the node that was visited last, with its exit and the status that the
      exit's code stands for. -/
  told : (Executor.briefing t'.ex t'.graph s'.node s'.pos.progress).last = some (s.brought v).recorded
  /-- That is what it would have been told had the flow gone on there, exactly if the code
      says the status. -/
  same : (Executor.briefing t'.ex t'.graph s'.node s'.pos.progress).last =
    (Executor.briefing t.ex t.graph s'.node (s.pos.onward s.node v s'.node.id).progress).last ↔
      v.status = Status.ofExit v.exit
  decided : s.node.goesByExit = true → v.status = Status.ofExit v.exit

theorem handsOver_of_start (hne : t.visits ≠ []) (ho : t.outcome? = some o)
    (hlast : t'.start.last = lastOutcome? o.lastNode o.lastExit) (hne' : t'.visits ≠ []) :
    ∃ s s' v, t.HandsOver t' s s' v := by
  obtain ⟨s, hs⟩ : ∃ s, t.visits.getLast? = some s := ⟨_, List.getLast?_eq_some_getLast hne⟩
  obtain ⟨s', hs'⟩ := Option.isSome_iff_exists.mp (List.isSome_head?.mpr hne')
  obtain ⟨hcame, hnode, hexit, -⟩ := made_of_outcome ho
  obtain ⟨v, hv⟩ := hcame s (List.mem_of_getLast? hs)
  have hmade : (visitsOf t.visits).getLast? = some (s.node.id, v) :=
    Executor.getLast?_visitsOf (by simp [hs, Stage.visit?, hv])
  have htold : s'.pos.progress.last = some (s.brought v).recorded := by
    rw [(t'.course.pos_of_head? hs').1]
    show t'.start.last = _
    rw [hlast, hnode, hexit, lastOutcome?_eq, Visits.last?, hmade]
    rfl
  refine ⟨s, s', v, hs, hv, hs', htold, ?_, fun hkind => ?_⟩
  · show s'.pos.progress.last = some (s.brought v) ↔ _
    rw [htold, Option.some_inj]
    exact NodeOutcome.recorded_eq_iff
  · have hvisit := Executor.came_of_mem_trail (List.mem_of_getLast? hs)
    rw [hv] at hvisit
    exact Executor.status_of_visit (.of_run (Prod.ext hvisit rfl)) hkind

/-! ## Taking up the branches of a split -/

/-- What is told of a split is what its last visit left. -/
theorem exists_lastVisit {made : List (Stage σ)} {split : String} {outcomes : List FlowOutcome}
    (hcame : ∀ s ∈ made, ∃ v, s.came = .ok v)
    (hleft : ∀ s ∈ made, s.node.id = split → ∀ v, s.came = .ok v → v.branches.isSome = true)
    (h : (visitsOf made).branchesOf split = some outcomes) :
    ∃ s v, (made.filter (·.node.id = split)).getLast? = some s ∧ s.came = .ok v ∧ v.branches = some outcomes := by
  induction made using List.reverseRecOn with
  | nil => cases h
  | append_singleton before s ih =>
    have hs : s ∈ before ++ [s] := by simp
    obtain ⟨v, hv⟩ := hcame s hs
    have hvisits : visitsOf (before ++ [s]) = visitsOf before ++ [(s.node.id, v)] := by
      simp [visitsOf, Stage.visit?, hv]
    rw [hvisits] at h
    by_cases hid : s.node.id = split
    · obtain ⟨os, hos⟩ := Option.isSome_iff_exists.mp (hleft s hs hid v hv)
      have hlast : (visitsOf before ++ [(s.node.id, v)]).getLast? = some (split, v) := by simp [hid]
      rw [Visits.branchesOf_of_getLast? hlast hos] at h
      refine ⟨s, v, ?_, hv, hos.trans h⟩
      simp [hid]
    · rw [Visits.branchesOf_concat_of_ne _ hid] at h
      obtain ⟨l, w, hl, hw⟩ := ih (fun x hx => hcame x (List.mem_append_left _ hx))
        (fun x hx => hleft x (List.mem_append_left _ hx)) h
      refine ⟨l, w, ?_, hw⟩
      simpa [hid] using hl

theorem node?_of_visit (hs : s ∈ t.visits) : t.graph.node? s.node.id = some s.node := by
  have hnode := t.course.node?_of_mem s hs
  rwa [Graph.id_of_node? hnode]

/-- Only the first visit goes by earlier outcomes, those that the flow began with. -/
theorem first_of_earlier (hs : s ∈ t.visits) {branch : String} (h : s.earlier branch = some o) :
    s.pos.prior = t.start.prior ∧ s.node.id = t.start.node := by
  cases hvisits : t.visits with
  | nil => simp [hvisits] at hs
  | cons first rest =>
    rw [hvisits] at hs
    rcases List.mem_cons.mp hs with rfl | hs
    · obtain ⟨hpos, hnode⟩ := t.course.pos_of_head? (by rw [hvisits]; rfl : t.visits.head? = some s)
      refine ⟨by rw [hpos]; rfl, ?_⟩
      exact Graph.id_of_node? hnode
    · have hnone : s.pos.prior = none := t.course.prior_of_tail s (by rw [hvisits]; exact hs)
      rw [Stage.earlier, hnone] at h
      cases h

theorem of_into? {split branch : String} (h : t.into? split branch = some u) :
    ∃ s ∈ t.visits, s.node.id = split ∧ ∃ x ∈ t.branches s, x.2 = u ∧ u.graph.name = branch := by
  obtain ⟨s, hs, h⟩ := Option.bind_eq_some_iff.mp h
  obtain ⟨x, hx, rfl⟩ := Option.map_eq_some_iff.mp h
  obtain ⟨hmem, hid⟩ := List.mem_filter.mp (List.mem_of_getLast? hs)
  exact ⟨s, hmem, of_decide_eq_true hid, x, List.mem_of_find?_eq_some hx, rfl, by simpa using List.find?_some hx⟩

/-- Begins with what another flow of the same graph left: its last visit, and the branches
    of the split at which this one begins. -/
structure TakenUp (t t' : Tour σ) : Prop where
  before : t.Sound
  after : t'.Sound
  graph : t'.graph = t.graph
  start : ∃ o, t.outcome? = some o ∧ t'.start.last = lastOutcome? o.lastNode o.lastExit ∧
    t'.start.prior = o.splits.get? t'.start.node

/-- Flows of one attempt and of the next, paired: the job's own, and a branch as it was
    walked in the last visit to its split with the branch that is taken up from what it
    came to. -/
inductive GoesOn (own own' : Tour σ) : Tour σ → Tour σ → Prop
  | own : GoesOn own own' own own'
  | branch {t t' u : Tour σ} {s' : Stage σ} {x : Nat × Tour σ} {o : FlowOutcome} : GoesOn own own' t t' →
      s' ∈ t'.visits → x ∈ t'.branches s' → t.into? s'.node.id x.2.graph.name = some u → u.outcome? = some o →
      x.2.start = FlowStart.resume x.2.graph o → GoesOn own own' u x.2

namespace TakenUp

theorem node_eq (h : t.TakenUp t') (hs : s ∈ t.visits) (hs' : s' ∈ t'.visits) (hid : s.node.id = s'.node.id) :
    s.node = s'.node := by
  have hnode := node?_of_visit hs
  have hnode' := node?_of_visit hs'
  rw [h.graph, ← hid, hnode] at hnode'
  exact Option.some.inj hnode'

theorem handsOver (h : t.TakenUp t') : ∃ s s' v, t.HandsOver t' s s' v := by
  obtain ⟨o, ho, hlast, -⟩ := h.start
  exact handsOver_of_start (visits_ne_nil h.before) ho hlast (visits_ne_nil h.after)

/-- A branch that is taken up begins with what it left itself. -/
theorem branch (h : t.TakenUp t') (hs' : s' ∈ t'.visits) {x : Nat × Tour σ} (hx : x ∈ t'.branches s')
    (hinto : t.into? s'.node.id x.2.graph.name = some u) (ho : u.outcome? = some o)
    (hstart : x.2.start = FlowStart.resume x.2.graph o) : u.TakenUp x.2 := by
  obtain ⟨branches, hkind⟩ := split_of_mem_branches hx
  have hnames := h.after.valid.branchNames (node?_of_visit hs') hkind
  obtain ⟨s, hs, hid, y, hy, rfl, hname⟩ := of_into? hinto
  have hsplit : s.node.kind = .split branches := by rw [h.node_eq hs hs' hid, hkind]
  obtain ⟨hmem, -⟩ := begun_of_mem_branches hkind hnames hx
  obtain ⟨hmem', -⟩ := begun_of_mem_branches hsplit hnames hy
  refine ⟨h.before.branch hs hsplit hy, h.after.branch hs' hkind hx, ?_, o, ho, ?_, ?_⟩
  · exact List.inj_on_of_nodup_map hnames hmem hmem' hname.symm
  · rw [hstart]
    rfl
  · rw [hstart]
    rfl

/-- An earlier outcome of a branch is what the last visit to the split left of it. -/
theorem left (h : t.TakenUp t') (hs' : s' ∈ t'.visits) {branches : List Graph} (hkind : s'.node.kind = .split branches)
    {b : Graph} (hb : b ∈ branches) (hearlier : s'.earlier b.name = some o) :
    ∃ s v, (t.visits.filter (·.node.id = s'.node.id)).getLast? = some s ∧ s ∈ t.visits ∧ s.node = s'.node ∧
      s.came = .ok v ∧ v.told? b.name = some o := by
  have hnames := h.after.valid.branchNames (node?_of_visit hs') hkind
  have hsplit : ∀ s ∈ t.visits, s.node.id = s'.node.id → s.node.kind = .split branches := by
    intro s hs hid
    rw [h.node_eq hs hs' hid, hkind]
  have hlevels : ∀ s ∈ t.visits, s.node.id = s'.node.id → 0 < t.levels := fun s hs hid =>
    levels_pos h.before (node?_of_visit hs) (hsplit s hs hid)
  obtain ⟨hprior, hfirst⟩ := first_of_earlier hs' hearlier
  obtain ⟨o', ho, -, hgiven⟩ := h.start
  obtain ⟨hcame, -, -, hsplits⟩ := made_of_outcome ho
  rw [hgiven, ← hfirst, hsplits] at hprior
  cases hknown : s'.pos.prior with
  | none =>
    rw [Stage.earlier, hknown] at hearlier
    cases hearlier
  | some outcomes =>
    have hleft : ∀ s ∈ t.visits, s.node.id = s'.node.id → ∀ v, s.came = .ok v → v.branches.isSome = true := by
      intro s hs hid v hv
      rw [branches_of_came hs (hsplit s hs hid) (hlevels s hs hid) hv hnames]
      rfl
    obtain ⟨s, v, hlast, hv, hbranches⟩ := exists_lastVisit hcame hleft (hprior.symm.trans hknown)
    obtain ⟨hs, hid⟩ := List.mem_filter.mp (List.mem_of_getLast? hlast)
    have hid : s.node.id = s'.node.id := of_decide_eq_true hid
    refine ⟨s, v, hlast, hs, h.node_eq hs hs' hid, hv, ?_⟩
    obtain ⟨i, hi⟩ := List.mem_iff_getElem?.mp hb
    have htold := told?_of_place hs (hsplit s hs hid) (hlevels s hs hid) hv hnames
      (List.mk_mem_zipIdx_iff_getElem?.mpr hi)
    have hflows := flows_of_came hs (hsplit s hs hid) (hlevels s hs hid) hv hnames
    rw [Visit.told?, hbranches, Option.getD_some] at htold ⊢
    rw [hbranches, Option.getD_some] at hflows
    rw [Stage.earlier, hknown, Option.getD_some, Split.get?_byFlow (hflows ▸ hnames) htold] at hearlier
    rw [htold, hearlier]

/-- Every other branch begins at its entry and is told of nothing. -/
theorem begun (h : t.TakenUp t') (hs' : s' ∈ t'.visits) {x : Nat × Tour σ} (hx : x ∈ t'.branches s') :
    x.2.start = FlowStart.entry x.2.graph ∨
      ∃ u o, t.into? s'.node.id x.2.graph.name = some u ∧ u.outcome? = some o ∧
        x.2.start = FlowStart.resume x.2.graph o := by
  obtain ⟨branches, hkind⟩ := split_of_mem_branches hx
  have hnames := h.after.valid.branchNames (node?_of_visit hs') hkind
  obtain ⟨hgraph, hbegun⟩ := begun_of_mem_branches hkind hnames hx
  cases hearlier : s'.earlier x.2.graph.name with
  | none =>
    rw [hearlier] at hbegun
    exact Or.inl (Option.some.inj hbegun).symm
  | some ob =>
    have hopen : ob.status ≠ .completed := by
      intro hdone
      rw [hearlier, Split.begun?, if_pos hdone] at hbegun
      cases hbegun
    rw [hearlier, Split.begun?_of_open hopen] at hbegun
    have hresume : x.2.start = FlowStart.resume x.2.graph ob := (Option.some.inj hbegun).symm
    obtain ⟨s, v, hlast, hs, hnode, hv, htold⟩ := h.left hs' hkind hgraph hearlier
    have hsplit : s.node.kind = .split branches := by rw [hnode, hkind]
    have hlevels := levels_pos h.before (node?_of_visit hs) hsplit
    obtain ⟨y, hy, hsame, hsettle⟩ := walked_of_told hs hsplit hlevels hv hnames hgraph htold hopen
    cases hout : y.2.outcome? with
    | none =>
      -- A branch that was lost left nothing that its next tour could be told of.
      obtain ⟨reason, hfailed⟩ := failed_of_settle hout
      rw [hfailed] at hsettle
      left
      rw [hresume, ← hsettle]
      rfl
    | some oy =>
      rw [← hsame] at hsettle
      obtain rfl : oy = ob := (outcome_of_settle hout).symm.trans hsettle
      refine Or.inr ⟨y.2, oy, ?_, hout, hresume⟩
      have hfind := Split.find?_of_nodup (nodup_branches hs hsplit hlevels hv hnames) hy
      rw [hsame] at hfind
      rw [into?, hlast, Option.bind_some, hfind]
      rfl

end TakenUp

theorem GoesOn.takenUp (h : own.TakenUp own') (hgoes : own.GoesOn own' t t') : t.TakenUp t' := by
  induction hgoes with
  | own => exact h
  | branch _ hs' hx hinto ho hstart ih => exact ih.branch hs' hx hinto ho hstart

theorem Sound.makes (h : t.Sound) (hu : t.Makes u) : u.Sound := by
  induction hu with
  | self => exact h
  | branch _ hs hx ih =>
    obtain ⟨branches, hkind⟩ := split_of_mem_branches hx
    exact ih.branch hs hkind hx

/-- A flow that knows of no earlier outcomes has its branches begin at their entries. -/
theorem entry_of_mem_branches (h : t.Sound) (hprior : t.start.prior = none) (hs : s ∈ t.visits) {x : Nat × Tour σ}
    (hx : x ∈ t.branches s) : x.2.start = FlowStart.entry x.2.graph := by
  obtain ⟨branches, hkind⟩ := split_of_mem_branches hx
  obtain ⟨-, hbegun⟩ := begun_of_mem_branches hkind (h.valid.branchNames (node?_of_visit hs) hkind) hx
  cases hearlier : s.earlier x.2.graph.name with
  | none =>
    rw [hearlier] at hbegun
    exact (Option.some.inj hbegun).symm
  | some o =>
    rw [Stage.earlier, (first_of_earlier hs hearlier).1, hprior] at hearlier
    cases hearlier

/-- Of all flows walked, those that do not begin at their entries go on with one that was
    walked before. -/
theorem TakenUp.makes (h : own.TakenUp own') (hu : own'.Makes u) :
    u.start = FlowStart.entry u.graph ∨ ∃ t, own.GoesOn own' t u := by
  induction hu with
  | self => exact Or.inr ⟨own, .own⟩
  | branch hmakes hs hx ih =>
    rcases ih with hentry | ⟨t, hgoes⟩
    · refine Or.inl (entry_of_mem_branches (h.after.makes hmakes) ?_ hs hx)
      rw [hentry]
      rfl
    · rcases (hgoes.takenUp h).begun hs hx with hentry | ⟨u, o, hinto, ho, hstart⟩
      · exact Or.inl hentry
      · exact Or.inr ⟨u, hgoes.branch hs hx hinto ho hstart⟩

end Tour

/-! ## Attempts -/

namespace Attempt

variable {a : Attempt σ} {d : Definition} {parameters : Parameters} {latest : Record} {w : World σ} {o : Opened σ}

/-- An attempt, and the next one of an instance as it is opened in a world. -/
structure Precedes (a : Attempt σ) (d : Definition) (parameters : Parameters) (latest : Record) (w : World σ)
    (o : Opened σ) : Prop where
  /-- The attempt was one of this job, under parameters of which some may differ. -/
  ran : ∃ given, a.Of d given
  /-- The latest record of the history, which is what the attempt sealed as the store gives
      it back. -/
  found : w.repository.store.latest? (InstanceId.derive d.name parameters) = .ok (some latest)
  kept : w.repository.store.readBack a.record = .ok latest
  opened : Runner.opened? d parameters w = some o

/-- The next attempt begins where this one recorded, told of what this one recorded last. -/
theorem Precedes.start (h : a.Precedes d parameters latest w o) :
    o.start.last = lastOutcome? a.record.lastNode a.record.lastExit ∧
      o.start.prior = latest.branches.get? o.start.node := by
  obtain ⟨found, point, -, -, hfound, hpoint, hstart, -⟩ := Runner.start_of_opened h.opened
  obtain rfl : found = some latest := Except.ok.inj (hfound.symm.trans h.found)
  obtain ⟨-, -, -, -, rfl⟩ := StartPoint.resolve_eq_ok_iff.mp hpoint
  obtain ⟨hnode, hexit⟩ := Store.last_of_readBack h.kept
  rw [hstart]
  refine ⟨?_, rfl⟩
  rw [← hnode, ← hexit]
  rfl

theorem Precedes.handsOver (h : a.Precedes d parameters latest w o) (hd : d.graph.Valid)
    (hvisited : (a.tour d).visits ≠ []) (r : Runner σ) (hroom : 1 ≤ r.config.maxNodeVisits) (inner : Runner.Run σ)
    (depth : Nat) : ∃ s s' v, (a.tour d).HandsOver (r.tourOf inner depth d o) s s' v := by
  obtain ⟨given, hof⟩ := h.ran
  obtain ⟨t, now, ht, hrecord⟩ := hof.closed
  obtain ⟨hlast, -⟩ := h.start
  have houtcome : (a.tour d).outcome? = some t.outcome := by rw [Tour.outcome?, ht]; rfl
  refine Tour.handsOver_of_start hvisited houtcome ?_ ?_
  · show o.start.last = _
    rw [hlast, hrecord]
    rfl
  · exact (r.tourOf inner depth d o).course.ne_nil (Runner.contains_of_opened hd h.opened) hroom

theorem Precedes.takenUp (h : a.Precedes d parameters latest w o) (hd : d.graph.Valid)
    (hvisited : (a.tour d).visits ≠ []) (hbranches : latest.branches = a.record.branches) (r : Runner σ)
    (hroom : 1 ≤ r.config.maxNodeVisits) (inner : Runner.Run σ) (depth : Nat) :
    (a.tour d).TakenUp (r.tourOf inner depth d o) := by
  obtain ⟨given, hof⟩ := h.ran
  obtain ⟨t, now, ht, hrecord⟩ := hof.closed
  obtain ⟨hlast, hprior⟩ := h.start
  have hroom' : 1 ≤ a.runner.config.maxNodeVisits :=
    Nat.le_trans (List.length_pos_iff.mpr hvisited) (a.tour d).course.length_le
  refine ⟨hof.sound hd hroom', ⟨hd, Nat.le_refl _, Runner.contains_of_opened hd h.opened, hroom⟩, rfl,
    t.outcome, by rw [Tour.outcome?, ht]; rfl, ?_, ?_⟩
  · show o.start.last = _
    rw [hlast, hrecord]
    rfl
  · show o.start.prior = _
    rw [hprior, hbranches, hrecord]
    rfl

end Attempt

/-- The first node of an attempt that takes up another one is told of the node and the exit
    of that one's last visit, and of the status that the exit's code stands for; so it is
    told what it would have been told had that one gone on there exactly if the code says
    the status. Where the branches come back from the store as they were put there, the
    same holds of every branch that is taken up, and every other branch begins at its entry
    and is told of nothing. -/
theorem Definition.told_on_restart (d : Definition) (hd : d.graph.Valid) {parameters : Parameters} {a : Attempt σ}
    {latest : Record} {w : World σ} {o : Opened σ} (h : a.Precedes d parameters latest w o)
    (hvisited : (a.tour d).visits ≠ []) (r : Runner σ) (hroom : 1 ≤ r.config.maxNodeVisits) (inner : Runner.Run σ)
    (depth : Nat) :
    (∃ s s' v, (a.tour d).HandsOver (r.tourOf inner depth d o) s s' v) ∧
      (latest.branches = a.record.branches →
        (∀ u u', (a.tour d).GoesOn (r.tourOf inner depth d o) u u' → ∃ s s' v, u.HandsOver u' s s' v) ∧
        ∀ u', (r.tourOf inner depth d o).Makes u' →
          u'.start = FlowStart.entry u'.graph ∨ ∃ u, (a.tour d).GoesOn (r.tourOf inner depth d o) u u') := by
  refine ⟨h.handsOver hd hvisited r hroom inner depth, fun hbranches => ?_⟩
  have htaken := h.takenUp hd hvisited hbranches r hroom inner depth
  exact ⟨fun u u' hgoes => (hgoes.takenUp htaken).handsOver, fun u' hmakes => htaken.makes hmakes⟩

/-! ### A harvest that is stopped -/

namespace Harvest

def units : Units Unit :=
  { step := fun name => some fun b m =>
      if name = "probe" then
        .ask m (.stop b.instanceId) fun _ m => .finish m (.result { status := .failed, exit := ⟨"SKIPPED", ""⟩ })
      else .finish m (.result { status := .completed, exit := Exit.completed })
    decider := fun _ => none }

def nodes : List (Node Graph) := [⟨"probe", .step "probe", [.goto "*" "load"]⟩, ⟨"load", .step "load", []⟩]

def harvest (g : Graph) : Task Unit :=
  { runner := { config := {}, units }
    job := g.name
    definition := { graph := g }
    parameters := Dict.empty }

def season (g : Graph) (store : Store) (issued : Nat) : World Unit :=
  { repository := { store }
    jobs := Dict.empty.insert g.name (harvest g).definition
    bus := Bus.ofCapacity 4
    clock := { origin := Instant.ofSeconds 0 0, issued }
    memory := () }

def first (g : Graph) : World Unit := season g (.shelf Shelf.empty) 0

def second (g : Graph) : World Unit :=
  season g ((harvest g).after (first g)).repository.store ((harvest g).after (first g)).clock.issued

def plot : Graph := ⟨"plot", "probe", nodes⟩

def field : Graph := ⟨"field", "plots", [⟨"plots", .split [plot], []⟩]⟩

def begun (t : Tour Unit) : List (String × Option NodeOutcome) :=
  t.visits.flatMap fun s => (t.branches s).map fun x => (x.2.graph.name, x.2.start.last)

/-- The load is told that the probe completed; it would have been told that it failed. -/
theorem load_misled :
    ((harvest plot).record? (first plot)).map (fun rec => (rec.finalStatus, rec.restartNode)) =
        some (some .stopped, some "load") ∧
      (Executor.visitsOf ((harvest plot).visits (first plot))).last? = some ⟨"probe", .failed, ⟨"SKIPPED", ""⟩⟩ ∧
      ((harvest plot).visits (second plot)).head?.map (fun s => (s.node.id, s.pos.progress.last)) =
        some ("load", some ⟨"probe", .completed, ⟨"SKIPPED", ""⟩⟩) := by
  decide +kernel

theorem valid_field : field.Valid := by
  have hbuild : (⟨"field", none, field.nodes⟩ : Graph.Declaration).build = .ok field := by rfl
  refine .mk hbuild fun n hn branches hsplit b hb => ?_
  obtain rfl := List.mem_singleton.mp hn
  cases hsplit
  obtain rfl := List.mem_singleton.mp hb
  exact Nightly.valid_of_steps (by rfl : (⟨"plot", none, plot.nodes⟩ : Graph.Declaration).build = .ok plot) (by decide)

def fields : Task Unit := harvest field

def tourOf (o : Opened Unit) : Tour Unit := fields.runner.tourOf fields.inner 0 fields.definition o

def findings (a : Attempt Unit) : Option Status × List String :=
  (a.record.finalStatus, (a.tour fields.definition).visits.map (·.node.id))

theorem field_stops : (fields.attempt? (first field)).map findings = some (some .stopped, ["plots"]) ∧
    (fields.after (first field)).clock.issued ≤ ExecutionId.room ∧
    (fields.opened? (second field)).map (fun o => begun (tourOf o)) =
      some [("plot", some ⟨"probe", .completed, ⟨"SKIPPED", ""⟩⟩)] := by
  decide +kernel

/-- The plot that was stopped is taken up, told that its probe completed. -/
theorem field_hands_over : ∃ (a : Attempt Unit) (latest : Record) (o : Opened Unit),
    a.Precedes fields.definition Dict.empty latest (second field) o ∧ (a.tour fields.definition).visits ≠ [] ∧
      latest.branches = a.record.branches ∧
      (∃ s s' v, (a.tour fields.definition).HandsOver (tourOf o) s s' v) ∧
      ∃ u u' : Tour Unit, (a.tour fields.definition).GoesOn (tourOf o) u u' ∧
        u'.start.last = some ⟨"probe", .completed, ⟨"SKIPPED", ""⟩⟩ ∧ ∃ s s' v, u.HandsOver u' s s' v := by
  obtain ⟨hfindings, hids, hbegun⟩ := field_stops
  obtain ⟨a, ha, hfound⟩ := Option.map_eq_some_iff.mp hfindings
  obtain ⟨o, ho, hbegun⟩ := Option.map_eq_some_iff.mp hbegun
  have hready : fields.Ready (first field) :=
    ⟨Dict.get?_insert_self _ _ _, rfl, rfl, .empty (Or.inl rfl), by decide, hids⟩
  obtain ⟨hof, -, -, hopened, hrecord⟩ := Task.of_attempt? hready.registered ha
  have hback : (second field).repository.store.readBack a.record = .ok a.record :=
    Store.readBack_of_shelf (by decide +kernel) a.record
  have hlatest : (second field).repository.store.latest? fields.id = .ok (some a.record) := by
    refine (Task.latest_after hready hopened hrecord).trans ?_
    exact congrArg (Except.map some) hback
  have hprecedes : a.Precedes fields.definition Dict.empty a.record (second field) o :=
    ⟨⟨_, hof⟩, hlatest, hback, ho⟩
  have hvisited : (a.tour fields.definition).visits ≠ [] := by
    intro hnil
    have hids := congrArg Prod.snd hfound
    simp [findings, hnil] at hids
  obtain ⟨hown, hbranches⟩ := fields.definition.told_on_restart valid_field hprecedes hvisited
    fields.runner (by decide) fields.inner 0
  obtain ⟨hgoes, hmakes⟩ := hbranches rfl
  refine ⟨a, a.record, o, hprecedes, hvisited, rfl, hown, ?_⟩
  have hmem : ("plot", some ⟨"probe", .completed, ⟨"SKIPPED", ""⟩⟩) ∈
      begun (tourOf o) := by
    rw [hbegun]
    exact List.mem_singleton_self _
  obtain ⟨s, hs, hmem⟩ := List.mem_flatMap.mp hmem
  obtain ⟨x, hx, heq⟩ := List.mem_map.mp hmem
  have hlast : x.2.start.last = some ⟨"probe", .completed, ⟨"SKIPPED", ""⟩⟩ := congrArg Prod.snd heq
  rcases hmakes x.2 (.branch .self hs hx) with hentry | ⟨u, hu⟩
  · rw [hentry] at hlast
    cases hlast
  · exact ⟨u, x.2, hu, hlast, hgoes u x.2 hu⟩

end Harvest

end Switchyard
