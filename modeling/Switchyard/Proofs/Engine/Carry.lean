import Switchyard.Proofs.Engine.Tour

/-
  Switchyard.Proofs.Engine.Carry — a flow that is taken up again at a split.

  `t.EndsAt split` says that a tour ends failed or stopped with the split as the last
  node it visited and the node to begin again at; `t'.TakesUp t split`, that another
  tour of the same graph begins there, with what the first one left of the branches.

  - `carried_of_takesUp`: a tour that takes up another and visits the split once leaves
    every completed branch alone, with its outcome unchanged, and takes up every other
    branch where that one's outcome stands.
  - `takesUp_owner`: if all flows that enclose a split end and go on in that way, so
    does the flow that owns it, however deep it is.
-/

namespace Switchyard

variable {σ : Type}

/-- What the outcomes of splits tell of a branch of a split that is reached through a
    branch of each of these splits. -/
def told? (splits : Dict (List FlowOutcome)) : List (String × String) → String → String → Option FlowOutcome
  | [], split, branch => ((splits.get? split).getD []).find? (·.flow = branch)
  | (outer, through) :: path, split, branch =>
    (((splits.get? outer).getD []).find? (·.flow = through)).bind fun o => told? o.splits path split branch

namespace Split

theorem get?_byFlow {os : List FlowOutcome} (h : (os.map (·.flow)).Nodup) {name : String} {o : FlowOutcome}
    (ho : os.find? (·.flow = name) = some o) : (byFlow os).get? name = some o := by
  have hname : o.flow = name := by simpa using List.find?_some ho
  refine Dict.get?_ofList ?_ (List.mem_map.mpr ⟨o, List.mem_of_find?_eq_some ho, by rw [hname]⟩)
  rw [List.map_map]
  exact h

theorem begun?_of_open {b : Graph} {o : FlowOutcome} (h : o.status ≠ .completed) :
    begun? b (some o) = some (FlowStart.resume b o) := by
  rw [begun?, if_neg h]

end Split

namespace Tour

variable {t t' u : Tour σ} {s : Executor.Stage σ} {split : String} {branches : List Graph} {v : Visit}

structure EndsAt (t : Tour σ) (split : String) : Prop where
  last : t.visits.getLast?.map (·.node.id) = some split
  restart : ∃ o, t.outcome? = some o ∧ (o.status = .failed ∨ o.status = .stopped) ∧ o.restartNode = some split

def Once (t : Tour σ) (split : String) : Prop := (t.visits.filter (·.node.id = split)).length = 1

structure Sound (t : Tour σ) : Prop where
  valid : t.graph.Valid
  deep : t.graph.nesting ≤ t.levels
  begun : t.graph.contains t.start.node = true
  room : 1 ≤ t.ex.config.maxNodeVisits

/-- Begins again at a split where another tour ended, with what that one left of it. -/
def TakesUp (t' t : Tour σ) (split : String) : Prop :=
  t'.graph = t.graph ∧ ∃ o, t.outcome? = some o ∧ t'.start.node = split ∧ t'.start.prior = o.splits.get? split

/-! ## The last visit of a tour -/

theorem visits_ne_nil (h : t.Sound) : t.visits ≠ [] := t.course.ne_nil h.begun h.room

/-- What a tour came to, by its visits. -/
theorem made_of_outcome {o : FlowOutcome} (ho : t.outcome? = some o) :
    (∀ s ∈ t.visits, ∃ v, s.came = .ok v) ∧ o.lastNode = ((Executor.visitsOf t.visits).last?.or t.start.last).map (·.node) ∧
      o.lastExit = ((Executor.visitsOf t.visits).last?.or t.start.last).map (·.exit) ∧
      ∀ split, o.splits.get? split = (Executor.visitsOf t.visits).branchesOf split := by
  obtain ⟨x, hx, rfl⟩ := Option.map_eq_some_iff.mp ho
  obtain ⟨kept, hcame⟩ := traversal?_eq_some hx
  obtain ⟨status, exit, restart, failure, rfl⟩ := t.course.finished hcame
  refine ⟨t.course.came_of_mem hcame, ?_⟩
  rw [Progress.after_eq]
  refine ⟨rfl, rfl, fun split => ?_⟩
  exact (Visits.get?_splits _ _ split).trans (Option.or_none)

/-- The visit that a tour ends with, the outcomes that it leaves, and those recorded. -/
theorem EndsAt.lastVisit (h : t.EndsAt split) :
    ∃ s v o, t.visits.getLast? = some s ∧ s.node.id = split ∧ t.graph.node? split = some s.node ∧ s.came = .ok v ∧
      t.outcome? = some o ∧ (o.status = .failed ∨ o.status = .stopped) ∧ o.restartNode = some split ∧
      (v.branches.isSome → o.splits.get? split = v.branches) := by
  obtain ⟨s, hs, hid⟩ := Option.map_eq_some_iff.mp h.last
  obtain ⟨o, ho, hstatus, hrestart⟩ := h.restart
  obtain ⟨hcame, -, -, hsplits⟩ := made_of_outcome ho
  have hmem : s ∈ t.visits := List.mem_of_getLast? hs
  obtain ⟨v, hv⟩ := hcame s hmem
  have hnode := t.course.node?_of_mem s hmem
  have hpos : s.pos.node = split := by rw [← Graph.id_of_node? hnode, hid]
  refine ⟨s, v, o, hs, hid, hpos ▸ hnode, hv, ho, hstatus, hrestart, fun hsome => ?_⟩
  obtain ⟨outcomes, hout⟩ := Option.isSome_iff_exists.mp hsome
  have hlast : (Executor.visitsOf t.visits).getLast? = some (split, v) := by
    obtain ⟨before, hbefore⟩ := List.getLast?_eq_some_iff.mp hs
    simp [Executor.visitsOf, hbefore, Executor.Stage.visit?, hv, hid]
  rw [hsplits, Visits.branchesOf_of_getLast? hlast hout, hout]

/-- A tour that begins and ends at a split and visits it once makes no other visit. -/
theorem eq_singleton (hsound : t.Sound) (hstart : t.start.node = split) (hend : t.EndsAt split) (honce : t.Once split) :
    ∃ s, t.visits = [s] ∧ s.node.id = split ∧ s.pos.prior = t.start.prior := by
  have hne := visits_ne_nil hsound
  have hlast := hend.last
  unfold Once at honce
  cases hvisits : t.visits with
  | nil => exact absurd hvisits hne
  | cons s rest =>
    obtain ⟨hpos, hnode⟩ := t.course.pos_of_head? (by rw [hvisits]; rfl : t.visits.head? = some s)
    have hid : s.node.id = split := (Graph.id_of_node? hnode).trans hstart
    rw [hvisits, List.filter_cons_of_pos (by simpa using hid), List.length_cons] at honce
    have hrest : rest.filter (·.node.id = split) = [] := List.length_eq_zero_iff.mp (by omega)
    cases rest with
    | nil => exact ⟨s, rfl, hid, by rw [hpos]; rfl⟩
    | cons r others =>
      -- The last visit would be a second one to the split.
      rw [hvisits, List.getLast?_cons_cons] at hlast
      obtain ⟨l, hl, hlid⟩ := Option.map_eq_some_iff.mp hlast
      have hmem : l ∈ (r :: others).filter (·.node.id = split) :=
        List.mem_filter.mpr ⟨List.mem_of_getLast? hl, by simpa using hlid⟩
      rw [hrest] at hmem
      cases hmem

/-! ## Branches -/

theorem levels_pos (h : t.Sound) (hnode : t.graph.node? split = some s.node) (hsplit : s.node.kind = .split branches) :
    0 < t.levels := by
  have hlt := Graph.nestingOfBranches_lt hnode hsplit
  have hdeep := h.deep
  omega

/-- The tours of the branches are sound. -/
theorem Sound.branch (h : t.Sound) (hs : s ∈ t.visits) (hsplit : s.node.kind = .split branches)
    {x : Nat × Tour σ} (hx : x ∈ t.branches s) : x.2.Sound := by
  have hnode := t.course.node?_of_mem s hs
  have hnames := h.valid.branchNames hnode hsplit
  obtain ⟨hgraph, hbegun⟩ := begun_of_mem_branches hsplit hnames hx
  obtain ⟨hex, hlevels, -⟩ := of_mem_branches hx
  have hvalid : x.2.graph.Valid := h.valid.branch hnode hsplit hgraph
  refine ⟨hvalid, ?_, ?_, hex ▸ h.room⟩
  · have hlt := Graph.nestingOfBranches_lt hnode hsplit
    have hle := Graph.nesting_le_nestingOfBranches hgraph
    have hdeep := h.deep
    omega
  · unfold Split.begun? at hbegun
    split at hbegun
    · rw [← Option.some.inj hbegun]
      exact hvalid.contains_entry
    · split at hbegun
      · cases hbegun
      · next o _ _ =>
        have hstart : x.2.start.node = FlowStart.resumeNode x.2.graph o := by
          rw [← Option.some.inj hbegun]
          rfl
        rw [hstart, FlowStart.resumeNode]
        split
        · split
          next hcontains => exact hcontains
          · exact hvalid.contains_entry
        · exact hvalid.contains_entry

/-- The node that an outcome begins again at is in the graph. -/
theorem contains_restart (h : t.Sound) {o : FlowOutcome} (ho : t.outcome? = some o) {m : String}
    (hm : o.restartNode = some m) : t.graph.contains m = true := by
  obtain ⟨x, hx, rfl⟩ := Option.map_eq_some_iff.mp ho
  obtain ⟨kept, hcame⟩ := traversal?_eq_some hx
  exact t.course.contains_restart hcame
    (fun id n hn rule hrule target htarget => h.valid.contains_target hn hrule htarget) hm

/-- A branch that is taken up begins at the node its outcome names, or at its entry. -/
theorem resume_node {b : Graph} {o : FlowOutcome} (h : ∀ m, o.restartNode = some m → b.contains m = true) :
    (FlowStart.resume b o).node = o.restartNode.getD b.entry := by
  simp only [FlowStart.resume, FlowStart.resumeNode]
  cases hrestart : o.restartNode with
  | none => rfl
  | some m => simp [h m hrestart]

/-- No branch is walked twice in a visit. -/
theorem nodup_branches (hs : s ∈ t.visits) (hsplit : s.node.kind = .split branches) (hlevels : 0 < t.levels)
    (hcame : s.came = .ok v) (hnames : (branches.map (·.name)).Nodup) :
    ((t.branches s).map (·.2.graph.name)).Nodup := by
  obtain ⟨hwalks, -⟩ := joined_of_came hs hsplit hlevels hcame
  have hmap : (t.branches s).map (·.2.graph.name) = s.walks.map (·.2.1.name) := by
    rw [← hwalks, List.map_map]
    rfl
  rw [hmap, Executor.Stage.walks_eq hsplit hnames]
  exact Split.nodup_takenUp hnames _

/-- What a visit leaves of a branch it walked. -/
theorem told?_of_mem (hsound : t.Sound) (hs : s ∈ t.visits) (hsplit : s.node.kind = .split branches)
    (hcame : s.came = .ok v) {x : Nat × Tour σ} (hx : x ∈ t.branches s) :
    v.told? x.2.graph.name = some (Split.settle x.2.graph s.pos.progress.context x.2.ending).outcome := by
  have hnode := t.course.node?_of_mem s hs
  have hnames := hsound.valid.branchNames hnode hsplit
  have hlevels := levels_pos hsound hnode hsplit
  obtain ⟨hgraph, hbegun⟩ := begun_of_mem_branches hsplit hnames hx
  have hopen : ∀ o, s.earlier x.2.graph.name = some o → o.status ≠ .completed := by
    intro o ho hdone
    rw [ho, Split.begun?, if_pos hdone] at hbegun
    cases hbegun
  obtain ⟨y, hy, hsame, -, htold⟩ := walked_of_earlier hs hsplit hlevels hcame hnames hgraph hopen
  -- Two tours of one branch are one: each stands at the branch's place.
  have hxy : y = x :=
    List.inj_on_of_nodup_map (nodup_branches hs hsplit hlevels hcame hnames) hy hx (congrArg Graph.name hsame)
  rw [htold, hxy]

theorem head_of_sound (h : t.Sound) : t.visits.head?.map (·.node.id) = some t.start.node := by
  obtain ⟨s, hs⟩ := Option.isSome_iff_exists.mp (List.isSome_head?.mpr (visits_ne_nil h))
  obtain ⟨-, hnode⟩ := t.course.pos_of_head? hs
  rw [hs, Option.map_some, Graph.id_of_node? hnode]
  rfl

/-! ## Resting at a split -/

structure Rests (t : Tour σ) (split : String) (branches : List Graph) (s : Executor.Stage σ) (v : Visit)
    (o : FlowOutcome) : Prop where
  last : t.visits.getLast? = some s
  at_ : s.node.id = split
  kind : s.node.kind = .split branches
  came : s.came = .ok v
  outcome : t.outcome? = some o
  status : o.status = .failed ∨ o.status = .stopped
  restart : o.restartNode = some split
  splits : o.splits.get? split = v.branches
  names : (branches.map (·.name)).Nodup
  levels : 0 < t.levels

variable {o : FlowOutcome}

theorem EndsAt.rests (h : t.EndsAt split) (hsound : t.Sound) (hsplit : t.graph.splitAt? split = some branches) :
    ∃ s v o, t.Rests split branches s v o := by
  obtain ⟨s, v, o, hlast, hid, hnode, hcame, ho, hstatus, hrestart, hsplits⟩ := h.lastVisit
  obtain ⟨n, hn, hkind⟩ := Graph.splitAt?_eq_some hsplit
  obtain rfl : n = s.node := Option.some.inj (hn.symm.trans hnode)
  have hnames := hsound.valid.branchNames hnode hkind
  have hlevels := levels_pos hsound hnode hkind
  have hbranches := branches_of_came (List.mem_of_getLast? hlast) hkind hlevels hcame hnames
  exact ⟨s, v, o, hlast, hid, hkind, hcame, ho, hstatus, hrestart, hsplits (by rw [hbranches]; rfl), hnames, hlevels⟩

namespace Rests

theorem mem (h : t.Rests split branches s v o) : s ∈ t.visits := List.mem_of_getLast? h.last

theorem told? (h : t.Rests split branches s v o) (branch : String) :
    Switchyard.told? o.splits [] split branch = v.told? branch := by
  rw [Switchyard.told?, h.splits, Visit.told?]

/-- Every branch of the split has an outcome. -/
theorem exists_told (h : t.Rests split branches s v o) {b : Graph} (hb : b ∈ branches) :
    ∃ ob, v.told? b.name = some ob := by
  obtain ⟨i, hi⟩ := List.mem_iff_getElem?.mp hb
  exact ⟨_, told?_of_place h.mem h.kind h.levels h.came h.names (List.mk_mem_zipIdx_iff_getElem?.mpr hi)⟩

/-- A branch that did not complete begins again, if anywhere else than at its entry, at a
    node it has. -/
theorem contains_told (h : t.Rests split branches s v o) (hsound : t.Sound) {b : Graph} (hb : b ∈ branches)
    {ob : FlowOutcome} (htold : v.told? b.name = some ob) (hopen : ob.status ≠ .completed) {m : String}
    (hm : ob.restartNode = some m) : b.contains m = true := by
  obtain ⟨x, hx, rfl, rfl⟩ := walked_of_told h.mem h.kind h.levels h.came h.names hb htold hopen
  cases hout : x.2.outcome? with
  | none =>
    obtain ⟨reason, hfailed⟩ := failed_of_settle hout
    rw [hfailed] at hm
    cases hm
  | some ox =>
    rw [outcome_of_settle hout] at hm
    exact contains_restart (hsound.branch h.mem h.kind hx) hout hm

/-- Whoever takes the tour up knows what it left of each branch. -/
theorem earlier (h : t.Rests split branches s v o) (hup : t'.TakesUp t split) {s' : Executor.Stage σ}
    (hprior : s'.pos.prior = t'.start.prior) {branch : String} {ob : FlowOutcome} (htold : v.told? branch = some ob) :
    s'.earlier branch = some ob := by
  obtain ⟨-, o', ho', -, hstart⟩ := hup
  obtain rfl : o' = o := Option.some.inj (ho'.symm.trans h.outcome)
  have hflows := flows_of_came h.mem h.kind h.levels h.came h.names
  rw [Executor.Stage.earlier, hprior, hstart, h.splits]
  refine Split.get?_byFlow ?_ htold
  rw [hflows]
  exact h.names

end Rests

/-! ## Going on -/

/-- What a tour does of a branch that another tour left an outcome of: nothing, if it
    completed, and otherwise the branch begins where the outcome says. -/
structure CarriesOn (t' : Tour σ) (split : String) (b : Graph) (ob : FlowOutcome) : Prop where
  done : ob.status = .completed → (∀ s ∈ t'.visits, ∀ x ∈ t'.branches s, x.2.graph.name ≠ b.name) ∧
    ∃ o', t'.outcome? = some o' ∧ Switchyard.told? o'.splits [] split b.name = some ob
  open_ : ob.status ≠ .completed → ∃ s ∈ t'.visits, ∃ x ∈ t'.branches s, x.2.graph = b ∧
    x.2.start = FlowStart.resume b ob ∧ x.2.visits.head?.map (·.node.id) = some (ob.restartNode.getD b.entry)

/-- A tour that takes up another, and makes no other visit to the split, goes on with
    each branch where that one left it. -/
theorem carried_of_takesUp (hsound : t.Sound) (hsound' : t'.Sound) (hr : t.Rests split branches s v o)
    (hup : t'.TakesUp t split) (hsplit : t'.graph.splitAt? split = some branches) (hend : t'.EndsAt split)
    (honce : t'.Once split) {b : Graph} (hb : b ∈ branches) {ob : FlowOutcome} (htold : v.told? b.name = some ob) :
    t'.CarriesOn split b ob := by
  obtain ⟨-, -, -, hstart, -⟩ := id hup
  obtain ⟨s', hvisits, -, hprior⟩ := eq_singleton hsound' hstart hend honce
  obtain ⟨l, v', o', hr'⟩ := hend.rests hsound' hsplit
  obtain rfl : l = s' := by
    have hlast := hr'.last
    rw [hvisits] at hlast
    exact (Option.some.inj hlast).symm
  have hearlier := hr.earlier hup hprior htold
  constructor
  · intro hdone
    obtain ⟨hreused, hnone⟩ := reused_of_earlier hr'.mem hr'.kind hr'.levels hr'.came hr'.names hb hearlier hdone
    refine ⟨fun x hx => ?_, o', hr'.outcome, (hr'.told? b.name).trans hreused⟩
    rw [hvisits] at hx
    rw [List.mem_singleton.mp hx]
    exact hnone
  · intro hopen
    obtain ⟨x, hx, rfl, hbegun, -⟩ := walked_of_earlier hr'.mem hr'.kind hr'.levels hr'.came hr'.names hb
      (fun e he => by rw [hearlier] at he; cases he; exact hopen)
    rw [hearlier, Split.begun?_of_open hopen] at hbegun
    have hresume : x.2.start = FlowStart.resume x.2.graph ob := (Option.some.inj hbegun).symm
    refine ⟨l, hr'.mem, x, hx, rfl, hresume, ?_⟩
    rw [head_of_sound (hsound'.branch hr'.mem hr'.kind hx), hresume,
      resume_node fun m hm => hr.contains_told hsound hb htold hopen hm]

/-! ## Flows within flows -/

def into? (t : Tour σ) (split branch : String) : Option (Tour σ) :=
  (t.visits.filter (·.node.id = split)).getLast?.bind fun s =>
    ((t.branches s).find? (·.2.graph.name = branch)).map (·.2)

/-- The flow that is reached through these branches, by the last visit of each split. -/
def owner? : Tour σ → List (String × String) → Option (Tour σ)
  | t, [] => some t
  | t, (outer, branch) :: path => (t.into? outer branch).bind fun u => u.owner? path

/-- The flow that owns the split, and every flow that encloses it, ends at its split on
    the way to it; if `once`, with no other visit to that. -/
def Halts (once : Prop) : Tour σ → List (String × String) → String → Prop
  | t, [], split => t.EndsAt split ∧ (once → t.Once split)
  | t, (outer, branch) :: path, split =>
    t.EndsAt outer ∧ (once → t.Once outer) ∧ ∃ u, t.into? outer branch = some u ∧ Halts once u path split

def decidableSome {α : Type u} (x : Option α) (P : α → Prop) [DecidablePred P] : Decidable (∃ a, x = some a ∧ P a) :=
  match x with
  | none => isFalse fun ⟨_, h, _⟩ => Option.some_ne_none _ h.symm
  | some a => decidable_of_iff (P a) ⟨fun h => ⟨a, rfl, h⟩, fun ⟨_, ha, h⟩ => Option.some.inj ha ▸ h⟩

instance (t : Tour σ) (split : String) : Decidable (t.EndsAt split) :=
  have := decidableSome t.outcome? fun o => (o.status = .failed ∨ o.status = .stopped) ∧ o.restartNode = some split
  decidable_of_iff (t.visits.getLast?.map (·.node.id) = some split ∧ ∃ o, t.outcome? = some o ∧
    (o.status = .failed ∨ o.status = .stopped) ∧ o.restartNode = some split)
    ⟨fun h => ⟨h.1, h.2⟩, fun h => ⟨h.last, h.restart⟩⟩

instance (t : Tour σ) (split : String) : Decidable (t.Once split) :=
  inferInstanceAs (Decidable ((t.visits.filter (·.node.id = split)).length = 1))

def decidableHalts (once : Prop) [Decidable once] (split : String) :
    (path : List (String × String)) → (t : Tour σ) → Decidable (t.Halts once path split)
  | [], t => inferInstanceAs (Decidable (t.EndsAt split ∧ (once → t.Once split)))
  | (outer, branch) :: path, t =>
    have := decidableHalts once split path
    have := decidableSome (t.into? outer branch) fun u => u.Halts once path split
    inferInstanceAs (Decidable (t.EndsAt outer ∧ (once → t.Once outer) ∧
      ∃ u, t.into? outer branch = some u ∧ Halts once u path split))

instance (once : Prop) [Decidable once] (t : Tour σ) (path : List (String × String)) (split : String) :
    Decidable (t.Halts once path split) := decidableHalts once split path t

def top (path : List (String × String)) (split : String) : String := (path.head?.map (·.1)).getD split

theorem Halts.at_top {once : Prop} {path : List (String × String)} (h : t.Halts once path split) :
    t.EndsAt (top path split) ∧ (once → t.Once (top path split)) := by
  cases path with
  | nil => exact h
  | cons x rest => exact ⟨h.1, h.2.1⟩

theorem Rests.eq_last (h : t.Rests split branches s v o) : (t.visits.filter (·.node.id = split)).getLast? = some s := by
  obtain ⟨before, hbefore⟩ := List.getLast?_eq_some_iff.mp h.last
  simp [hbefore, h.at_]

/-- The branch that leads on from a split where a tour rests. -/
theorem Rests.into (h : t.Rests split branches s v o) (hsound : t.Sound) {branch : String}
    (hinto : t.into? split branch = some u) {b : Graph} (hb : branches.find? (·.name = branch) = some b) :
    u.Sound ∧ u.graph = b ∧ u.graph ∈ branches ∧ (∃ x ∈ t.branches s, x.2 = u) ∧
      ∀ ou, u.outcome? = some ou → v.told? branch = some ou := by
  rw [into?, h.eq_last, Option.bind_some] at hinto
  obtain ⟨x, hfind, rfl⟩ := Option.map_eq_some_iff.mp hinto
  have hx : x ∈ t.branches s := List.mem_of_find?_eq_some hfind
  have hname : x.2.graph.name = branch := by simpa using List.find?_some hfind
  obtain ⟨hmem, -⟩ := begun_of_mem_branches h.kind h.names hx
  have hbname : b.name = branch := by simpa using List.find?_some hb
  refine ⟨hsound.branch h.mem h.kind hx, ?_, hmem, ⟨x, hx, rfl⟩, fun ou hou => ?_⟩
  · exact List.inj_on_of_nodup_map h.names hmem (List.mem_of_find?_eq_some hb) (hname.trans hbname.symm)
  · rw [← hname, told?_of_mem hsound h.mem h.kind h.came hx, outcome_of_settle hou]

theorem branchesAt?_cons {g : Graph} {outer branch : String} {path : List (String × String)}
    (h : g.branchesAt? ((outer, branch) :: path) split = some branches) :
    ∃ bs b, g.splitAt? outer = some bs ∧ bs.find? (·.name = branch) = some b ∧ b.branchesAt? path split = some branches := by
  obtain ⟨bs, hbs, h⟩ := Option.bind_eq_some_iff.mp h
  obtain ⟨b, hb, h⟩ := Option.bind_eq_some_iff.mp h
  exact ⟨bs, b, hbs, hb, h⟩

/-- The flow that owns a split ends there, and what it left of the branches is found in
    the outcome of the outermost flow. -/
theorem Halts.owner {once : Prop} {path : List (String × String)} (h : t.Halts once path split) (hsound : t.Sound)
    (hbranches : t.graph.branchesAt? path split = some branches) :
    ∃ u, t.owner? path = some u ∧ u.Sound ∧ u.graph.splitAt? split = some branches ∧ u.EndsAt split ∧
      (once → u.Once split) ∧ ∀ o ou, t.outcome? = some o → u.outcome? = some ou → ∀ branch,
        told? o.splits path split branch = told? ou.splits [] split branch := by
  induction path generalizing t with
  | nil =>
    refine ⟨t, rfl, hsound, hbranches, h.1, h.2, fun o ou ho hou branch => ?_⟩
    rw [Option.some.inj (ho.symm.trans hou)]
  | cons x rest ih =>
    obtain ⟨outer, branch⟩ := x
    obtain ⟨hend, -, u, hinto, hrest⟩ := h
    obtain ⟨bs, b, hbs, hb, hat⟩ := branchesAt?_cons hbranches
    obtain ⟨s, v, o, hr⟩ := hend.rests hsound hbs
    obtain ⟨husound, rfl, -, -, htold⟩ := hr.into hsound hinto hb
    obtain ⟨w, howner, hwsound, hsplit, hwend, honce, hpath⟩ := ih hrest husound hat
    refine ⟨w, by rw [owner?, hinto]; exact howner, hwsound, hsplit, hwend, honce, fun o' ow ho' how name => ?_⟩
    obtain rfl := Option.some.inj (ho'.symm.trans hr.outcome)
    obtain ⟨ou, hou, -⟩ := hrest.at_top.1.restart
    have hcons : told? o'.splits ((outer, branch) :: rest) split name =
        (v.told? branch).bind fun ob => told? ob.splits rest split name := by
      simp only [told?, hr.splits, Visit.told?]
    rw [hcons, htold ou hou, Option.bind_some, hpath ou ow hou how]

/-- Where every flow on the way takes up the one before, so does the flow that owns the
    split. -/
theorem takesUp_owner {once : Prop} {path : List (String × String)} (h : t.Halts once path split)
    (h' : t'.Halts True path split) (hsound : t.Sound) (hsound' : t'.Sound) (hup : t'.TakesUp t (top path split))
    (hbranches : t.graph.branchesAt? path split = some branches) {u u' : Tour σ} (hu : t.owner? path = some u)
    (hu' : t'.owner? path = some u') : u'.TakesUp u split := by
  induction path generalizing t t' with
  | nil =>
    cases hu
    cases hu'
    exact hup
  | cons x rest ih =>
    obtain ⟨outer, branch⟩ := x
    obtain ⟨hend, -, m, hinto, hrest⟩ := h
    obtain ⟨hend', honce', m', hinto', hrest'⟩ := h'
    obtain ⟨bs, b, hbs, hb, hat⟩ := branchesAt?_cons hbranches
    obtain ⟨s, v, o, hr⟩ := hend.rests hsound hbs
    obtain ⟨hmsound, hgraph, -, -, htold⟩ := hr.into hsound hinto hb
    obtain ⟨hsame, -, -, hstart, -⟩ := id hup
    obtain ⟨s', v', o', hr'⟩ := hend'.rests hsound' (hsame ▸ hbs)
    obtain ⟨hmsound', hgraph', hmem', ⟨x, hx, rfl⟩, -⟩ := hr'.into hsound' hinto' hb
    obtain ⟨first, hvisits, -, hprior⟩ := eq_singleton hsound' hstart hend' (honce' trivial)
    obtain rfl : s' = first := by
      have hlast := hr'.last
      rw [hvisits] at hlast
      exact (Option.some.inj hlast).symm
    have hname : x.2.graph.name = branch := by
      rw [hgraph']
      simpa using List.find?_some hb
    -- The flow inside ended at its split, so its outcome is taken up there.
    obtain ⟨l, w, om, hlast, hid, hnode, -, hom, hstatus, hrestart, -⟩ := hrest.at_top.1.lastVisit
    have hearlier := hr.earlier hup hprior (htold om hom)
    obtain ⟨-, hbegun⟩ := begun_of_mem_branches hr'.kind hr'.names hx
    have hopen : om.status ≠ .completed := by
      rcases hstatus with hstatus | hstatus <;> simp [hstatus]
    rw [hname, hearlier, Split.begun?_of_open hopen] at hbegun
    have hresume : x.2.start = FlowStart.resume x.2.graph om := (Option.some.inj hbegun).symm
    have hcontains : x.2.graph.contains (top rest split) = true := by
      rw [hgraph', ← hgraph, Graph.contains, hnode]
      rfl
    have hfirst : (FlowStart.resume x.2.graph om).node = top rest split := by
      simp [FlowStart.resume, FlowStart.resumeNode, hrestart, hcontains]
    refine ih hrest hrest' hmsound hmsound' ⟨hgraph'.trans hgraph.symm, om, hom, ?_, ?_⟩ (hgraph ▸ hat) ?_ ?_
    · rw [hresume, hfirst]
    · rw [hresume, ← hfirst]
      rfl
    · rw [owner?, hinto] at hu
      exact hu
    · rw [owner?, hinto'] at hu'
      exact hu'

end Tour

end Switchyard
