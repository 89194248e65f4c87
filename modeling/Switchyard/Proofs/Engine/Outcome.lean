import Switchyard.Proofs.Engine.Series

/-
  Switchyard.Proofs.Engine.Outcome — what a flow came to fits the graph it went through,
  down through the branches of its splits.

  `FlowOutcome.WellFormed` is what a later attempt relies on: a place to begin again
  exactly if the flow may be restarted, no node named that the graph does not have, and
  of each split one outcome for each branch, well formed for that branch in its turn.
  Only a branch whose task panicked or was lost comes to less (`Fallen`).

  The branches of a split act while others do, so a traversal is told by what it may
  yield (`Comes`). Its invariant is `Position.Sound`, which one visit hands on to the
  next; the outcomes of a split are well formed by induction on how deep it is nested.

  - `outcome_wellFormed`: every traversal of a built graph from a start in it comes to a
    well-formed outcome, unless its record cannot be kept.
-/

namespace Switchyard

variable {σ : Type}

/-! ## Well-formed outcomes -/

namespace FlowOutcome

/-- What is left of a branch whose task panicked or was lost. -/
def Fallen (branch : Graph) (o : FlowOutcome) : Prop :=
  ∃ reason, (reason = "branch panicked" ∨ reason = "branch task lost") ∧
    o = { flow := branch.name, status := .failed, exit := Exit.failed.withDescription reason }

/-- The nodes that an outcome names are nodes of the graph, and it begins again where
    it failed or stopped. -/
structure Within (g : Graph) (o : FlowOutcome) : Prop where
  restart : o.restartNode.isSome = true ↔ o.status = .failed ∨ o.status = .stopped
  restart_mem : ∀ node, o.restartNode = some node → g.contains node = true
  failure : ∀ f, o.failure = some f →
    o.status = .failed ∧ o.exit.code = Exit.failed.code ∧ o.restartNode = some f.node
  completed : ∀ node ∈ o.completed, g.contains node = true

/-- One outcome for each branch of every split visited, named after it and well formed
    for it. -/
inductive WellFormed : Graph → FlowOutcome → Prop
  | mk {g : Graph} {o : FlowOutcome} : o.Within g →
      (∀ id os, (id, os) ∈ o.splits.entries →
        ∃ branches, g.splitAt? id = some branches ∧ os.map (·.flow) = branches.map (·.name)) →
      (∀ id os branches, (id, os) ∈ o.splits.entries → g.splitAt? id = some branches →
        ∀ b x, (b, x) ∈ branches.zip os → ¬ Fallen b x → WellFormed b x) →
      WellFormed g o

def Fits (branch : Graph) (o : FlowOutcome) : Prop := o.Fallen branch ∨ o.WellFormed branch

end FlowOutcome

def Graph.Joined (g : Graph) (split : String) (os : List FlowOutcome) : Prop :=
  ∃ branches, g.splitAt? split = some branches ∧ os.map (·.flow) = branches.map (·.name) ∧
    ∀ b x, (b, x) ∈ branches.zip os → x.Fits b

theorem FlowOutcome.wellFormed_iff {g : Graph} {o : FlowOutcome} :
    o.WellFormed g ↔ o.Within g ∧ ∀ id os, (id, os) ∈ o.splits.entries → g.Joined id os := by
  constructor
  · rintro ⟨hwithin, hsplits, hbranches⟩
    refine ⟨hwithin, fun id os hmem => ?_⟩
    obtain ⟨branches, hsplit, hnames⟩ := hsplits id os hmem
    refine ⟨branches, hsplit, hnames, fun b x hx => ?_⟩
    by_cases hfallen : x.Fallen b
    · exact Or.inl hfallen
    · exact Or.inr (hbranches id os branches hmem hsplit b x hx hfallen)
  · rintro ⟨hwithin, hjoined⟩
    refine ⟨hwithin, fun id os hmem => ?_, fun id os branches hmem hsplit b x hx hnot => ?_⟩
    · obtain ⟨branches, hsplit, hnames, -⟩ := hjoined id os hmem
      exact ⟨branches, hsplit, hnames⟩
    · obtain ⟨branches', hsplit', -, hfits⟩ := hjoined id os hmem
      obtain rfl := Option.some.inj (hsplit.symm.trans hsplit')
      exact (hfits b x hx).resolve_left hnot

/-- Of one of the graph's splits, an outcome is found with the branch it is named after. -/
theorem Graph.Joined.fits {g : Graph} {split : String} {os : List FlowOutcome} (h : g.Joined split os)
    {branches : List Graph} (hsplit : g.splitAt? split = some branches) (hnames : (branches.map (·.name)).Nodup)
    {o : FlowOutcome} (ho : o ∈ os) {b : Graph} (hb : b ∈ branches) (hname : b.name = o.flow) : o.Fits b := by
  obtain ⟨branches', hsplit', hflows, hfits⟩ := h
  obtain rfl := Option.some.inj (hsplit.symm.trans hsplit')
  obtain ⟨i, hi⟩ := List.mem_iff_getElem?.mp ho
  have hflow : (branches.map (·.name))[i]? = some o.flow := by simp [← hflows, hi]
  obtain ⟨c, hc, hcname⟩ : ∃ c, branches[i]? = some c ∧ c.name = o.flow := by simpa using hflow
  have hcb : c = b := List.inj_on_of_nodup_map hnames (List.mem_of_getElem? hc) hb (hcname.trans hname.symm)
  subst hcb
  exact hfits c o (List.mem_iff_getElem?.mpr ⟨i, by simp [List.getElem?_zip_eq_some, hc, hi]⟩)

/-! ## Starts -/

/-- The outcomes from before are those of the branches of the split at this node, if
    there is one. -/
def Graph.Earlier (g : Graph) (node : String) (prior : Option (List FlowOutcome)) : Prop :=
  ∀ branches, g.splitAt? node = some branches → ∀ o ∈ prior.getD [], ∀ b ∈ branches, b.name = o.flow → o.Fits b

/-- A start in the graph, with well-formed outcomes from before. -/
structure FlowStart.Sound (g : Graph) (start : FlowStart) : Prop where
  node : g.contains start.node = true
  prior : g.Earlier start.node start.prior

theorem Graph.earlier_none (g : Graph) (node : String) : g.Earlier node none := by
  intro branches _ o ho
  cases ho

theorem Graph.Valid.names {g : Graph} (h : g.Valid) {split : String} {branches : List Graph}
    (hsplit : g.splitAt? split = some branches) : (branches.map (·.name)).Nodup := by
  obtain ⟨n, hn, hkind⟩ := splitAt?_eq_some hsplit
  exact h.branchNames hn hkind

namespace FlowStart

theorem sound_entry {b : Graph} (hb : b.Valid) : (FlowStart.entry b).Sound b :=
  ⟨hb.contains_entry, b.earlier_none _⟩

/-- A branch is taken up in its graph, whatever its outcome says. -/
theorem contains_resume {b : Graph} (hb : b.Valid) (o : FlowOutcome) :
    b.contains (FlowStart.resume b o).node = true := by
  simp only [resume, resumeNode]
  split
  · split
    next hcontains => exact hcontains
    next => exact hb.contains_entry
  · exact hb.contains_entry

theorem sound_resume {b : Graph} (hb : b.Valid) {o : FlowOutcome} (ho : o.Fits b) : (FlowStart.resume b o).Sound b := by
  refine ⟨contains_resume hb o, ?_⟩
  intro branches hsplit x hx c hc hname
  simp only [resume] at hx hsplit
  cases hget : o.splits.get? (resumeNode b o) with
  | none => simp [hget] at hx
  | some os =>
    rw [hget, Option.getD_some] at hx
    rcases ho with ⟨reason, -, rfl⟩ | ho
    · cases hget
    · have hjoined := (FlowOutcome.wellFormed_iff.mp ho).2 _ os (Dict.mem_of_get? hget)
      exact hjoined.fits hsplit (hb.names hsplit) hx hc hname

end FlowStart

/-! ## Joining the branches of a split -/

namespace Split

variable {branches : List Graph} {prior : Option (List FlowOutcome)} {context : Context} {ends : List (Nat × BranchEnd)}

theorem mem_of_endAt {i : Nat} {e : BranchEnd} (h : endAt ends i = e) : (i, e) ∈ ends ∨ e = .lost := by
  unfold endAt at h
  cases hfind : ends.reverse.find? (·.1 = i) with
  | none =>
    simp only [hfind, Option.map_none, Option.getD_none] at h
    exact Or.inr h.symm
  | some x =>
    have hplace : x.1 = i := by simpa using List.find?_some hfind
    simp only [hfind, Option.map_some, Option.getD_some] at h
    refine Or.inl ?_
    rw [← hplace, ← h]
    exact List.mem_reverse.mp (List.mem_of_find?_eq_some hfind)

/-- An earlier outcome that a branch is told of is one from before, and of its name. -/
theorem of_get?_byFlow {os : List FlowOutcome} {name : String} {o : FlowOutcome} (h : (byFlow os).get? name = some o) :
    o ∈ os ∧ o.flow = name := by
  have hmem := Dict.mem_of_get? h
  obtain ⟨x, hx, heq⟩ := List.mem_map.mp (Dict.mem_of_mem_ofList hmem)
  cases heq
  exact ⟨hx, rfl⟩

/-- A branch that is walked begins at its entry, or where an earlier outcome of its name
    stands. -/
theorem start_of_mem_toRun (hnames : (branches.map (·.name)).Nodup) {i : Nat} {b : Graph} {start : FlowStart}
    (h : (i, b, start) ∈ toRun branches (plan prior branches)) :
    b ∈ branches ∧ (start = FlowStart.entry b ∨
      ∃ o ∈ prior.getD [], b.name = o.flow ∧ start = FlowStart.resume b o) := by
  rw [toRun_plan hnames] at h
  obtain ⟨⟨c, j⟩, hplace, hbegun⟩ := List.mem_filterMap.mp h
  obtain ⟨s, hs, heq⟩ := Option.map_eq_some_iff.mp hbegun
  cases heq
  refine ⟨List.fst_mem_of_mem_zipIdx hplace, ?_⟩
  cases hprev : (byFlow (prior.getD [])).get? b.name with
  | none =>
    simp only [hprev, begun?] at hs
    cases hs
    exact Or.inl rfl
  | some o =>
    obtain ⟨ho, hflow⟩ := of_get?_byFlow hprev
    simp only [hprev, begun?] at hs
    split at hs
    · cases hs
    · cases hs
      exact Or.inr ⟨o, ho, hflow.symm, rfl⟩

/-- What a branch of a split contributes, told by what it was before and how it ended. -/
theorem outcomes_of_join (hnames : (branches.map (·.name)).Nodup) {os : List FlowOutcome}
    (h : (join branches (plan prior branches) context ends).branches = some os) {P : Graph → FlowOutcome → Prop}
    (hreused : ∀ b ∈ branches, ∀ o ∈ prior.getD [], o.flow = b.name → o.status = .completed → P b o)
    (hwalked : ∀ i b start, (i, b, start) ∈ toRun branches (plan prior branches) →
      P b (settle b context (endAt ends i)).outcome) :
    os.length = branches.length ∧ ∀ b x, (b, x) ∈ branches.zip os → P b x := by
  have hos : os = (contributions branches (plan prior branches) context ends).map (·.outcome) :=
    (Option.some.inj h).symm
  rw [plan, planFrom_eq hnames, contributions_map, List.map_map] at hos
  subst hos
  refine ⟨by simp, fun b x hx => ?_⟩
  obtain ⟨i, hi⟩ := List.mem_iff_getElem?.mp hx
  obtain ⟨hb, hx⟩ := List.getElem?_zip_eq_some.mp hi
  have hplace : (b, i) ∈ branches.zipIdx := List.mk_mem_zipIdx_iff_getElem?.mpr hb
  have hmem : b ∈ branches := List.mem_of_getElem? hb
  obtain rfl : (contribution context ends b i (planOne b ((byFlow (prior.getD [])).get? b.name))).outcome = x := by
    simpa [hb] using hx
  have hrun : ∀ start, planOne b ((byFlow (prior.getD [])).get? b.name) = .run start →
      P b (settle b context (endAt ends i)).outcome := by
    intro start hplan
    refine hwalked i b start ?_
    rw [plan, planFrom_eq hnames, toRun_map]
    exact List.mem_filterMap.mpr ⟨(b, i), hplace, by simp [hplan]⟩
  cases hprev : (byFlow (prior.getD [])).get? b.name with
  | none => exact hrun _ (by rw [hprev, planOne])
  | some o =>
    by_cases hdone : o.status = .completed
    · obtain ⟨ho, hflow⟩ := of_get?_byFlow hprev
      rw [planOne, if_pos hdone]
      exact hreused b hmem o ho hflow hdone
    · have hplan : planOne b (some o) = .run (FlowStart.resume b o) := by rw [planOne, if_neg hdone]
      rw [hplan]
      exact hrun _ (by rw [hprev, hplan])

end Split

namespace Executor

variable {ex : Executor σ} {walk : BranchWalk σ} {g : Graph}

/-! ## Walks -/

/-- What a branch comes to when its task ends while others act. It may panic or be lost;
    `Walks` is this for splits that are nested so deep. -/
def Walks (ex : Executor σ) : Nat → BranchWalk σ → Prop
  | 0, _ => True
  | levels + 1, walk => ∃ inner, Walks ex levels inner ∧ ∀ b start context e, (walk b start context).Yields e →
      e = .panicked ∨ e = .lost ∨
        (∃ t kept, e = .finished t ∧ (traverse ex inner b start context none).Yields (.ok t, kept)) ∨
        ∃ error kept, e = .aborted error.message ∧
          (traverse ex inner b start context none).Yields (.error error, kept)

theorem walks_walkBranch (ex : Executor σ) (levels : Nat) : Walks ex levels (ex.walkBranch levels) := by
  induction levels with
  | zero => trivial
  | succ levels ih =>
    refine ⟨ex.walkBranch levels, ih, fun b start context e he => ?_⟩
    obtain ⟨⟨x, kept⟩, hwalked, he⟩ := Act.yields_bind he
    cases x with
    | error error =>
      cases Act.yields_pure he
      exact Or.inr (Or.inr (Or.inr ⟨error, kept, rfl, hwalked⟩))
    | ok t =>
      cases Act.yields_pure he
      exact Or.inr (Or.inr (Or.inl ⟨t, kept, rfl, hwalked⟩))

theorem not_yields_allBegun {halted : List Halt} {ends : List (Nat × BranchEnd)}
    (h : (allBegun halted : Act σ _).Yields ends) : ends = [] := by
  unfold allBegun at h
  split at h
  · cases Act.not_yields_broken h
  · exact Act.yields_pure h

/-- An end that comes in is one its branch's walk yields, or a panic. -/
theorem end_of_walkBranches {context : Context} {halted : List Halt} {starts : List (Nat × Graph × FlowStart)}
    {ends : List (Nat × BranchEnd)} (h : (walkBranches ex walk context halted starts).Yields ends) :
    ∀ x ∈ ends, x.2 = .panicked ∨ ∃ b start, (x.1, b, start) ∈ starts ∧ (walk b start context).Yields x.2 := by
  induction starts generalizing halted ends with
  | nil =>
    obtain rfl := not_yields_allBegun h
    exact fun x hx => absurd hx List.not_mem_nil
  | cons s rest ih =>
    obtain ⟨i, b, start⟩ := s
    have hlater : ∀ {x : Nat × BranchEnd}, (x.2 = .panicked ∨ ∃ c s, (x.1, c, s) ∈ rest ∧
        (walk c s context).Yields x.2) → x.2 = .panicked ∨ ∃ c s, (x.1, c, s) ∈ (i, b, start) :: rest ∧
        (walk c s context).Yields x.2 :=
      fun hx => hx.imp_right fun ⟨c, s, hmem, hyields⟩ => ⟨c, s, List.mem_cons_of_mem _ hmem, hyields⟩
    simp only [walkBranches] at h
    split at h
    · obtain rfl := not_yields_allBegun h
      exact fun x hx => absurd hx List.not_mem_nil
    · obtain ⟨r, hwalk, h⟩ := Act.yields_bind h
      split at h
      next e =>
        obtain ⟨others, hrest, h⟩ := Act.yields_bind h
        obtain rfl := Act.yields_pure h
        refine List.forall_mem_cons.mpr ⟨?_, fun x hx => hlater (ih hrest x hx)⟩
        exact Or.inr ⟨b, start, List.mem_cons_self, Act.yields_attempt hwalk⟩
      next =>
        obtain ⟨others, hrest, h⟩ := Act.yields_bind h
        obtain rfl := Act.yields_pure h
        exact List.forall_mem_cons.mpr ⟨Or.inl rfl, fun x hx => hlater (ih hrest x hx)⟩
      next => exact fun x hx => hlater (ih h x hx)

/-! ## Visits -/

structure Position.Sound (g : Graph) (pos : Position) : Prop where
  node : g.contains pos.node = true
  completed : ∀ id ∈ pos.progress.completed, g.contains id = true
  splits : ∀ id os, (id, os) ∈ pos.progress.splits.entries → g.Joined id os
  prior : g.Earlier pos.node pos.prior

theorem Position.Sound.start {start : FlowStart} (h : start.Sound g) (context : Context) (record : Option Record) :
    (Position.start g start context record).Sound g where
  node := h.node
  completed _ hid := by cases hid
  splits _ _ hmem := by cases hmem
  prior := h.prior

structure VisitFits (g : Graph) (node : Node Graph) (v : Visit) : Prop where
  joined : ∀ os, v.branches = some os → g.Joined node.id os
  failure : ∀ f, v.failure = some f → f.node = node.id

theorem contains_id {id : String} {n : Node Graph} (hn : g.node? id = some n) : g.contains n.id = true := by
  rw [Graph.id_of_node? hn, Graph.contains, hn]
  rfl

/-- The progress with a visit in it still names only nodes of the graph. -/
theorem Position.Sound.folded {pos : Position} (h : pos.Sound g) {node : Node Graph} (hn : g.node? pos.node = some node)
    {v : Visit} (hv : VisitFits g node v) :
    (∀ id ∈ (pos.folded node v).completed, g.contains id = true) ∧
      ∀ id os, (id, os) ∈ (pos.folded node v).splits.entries → g.Joined id os := by
  constructor
  · intro id hid
    simp only [Position.folded, Progress.apply] at hid
    split at hid
    · exact h.completed id hid
    · rcases List.mem_append.mp hid with hid | hid
      · exact h.completed id hid
      · rw [List.mem_singleton.mp hid]
        exact contains_id hn
  · intro id os hmem
    simp only [Position.folded, Progress.apply] at hmem
    cases hbranches : v.branches with
    | none =>
      rw [hbranches] at hmem
      exact h.splits id os hmem
    | some branches =>
      rw [hbranches] at hmem
      rcases Dict.mem_insert hmem with heq | hmem
      · cases heq
        exact hv.joined os hbranches
      · exact h.splits id os hmem

/-- Where every rule stays in the graph, the next position is in it too. -/
theorem Position.Sound.onward (hg : g.Valid) {pos next : Position} (h : pos.Sound g) {node : Node Graph}
    (hn : g.node? pos.node = some node) {v : Visit} (hv : VisitFits g node v)
    (hturn : Turn.Of node pos v (.onward next)) : next.Sound g := by
  obtain ⟨hcompleted, hsplits⟩ := h.folded hn hv
  have hnode := hturn.contains hg hn
  cases hturn with
  | onward => exact ⟨hnode, hcompleted, hsplits, g.earlier_none _⟩

/-! ## Ends -/

/-- An end at a node of the graph is well formed if the progress names nothing else. -/
theorem wellFormed_finish {p : Progress} {status : Status} {exit : Exit} {restart : String} {failure : Option Failure}
    (hcompleted : ∀ id ∈ p.completed, g.contains id = true)
    (hsplits : ∀ id os, (id, os) ∈ p.splits.entries → g.Joined id os) (hrestart : g.contains restart = true)
    (hfailure : ∀ f, failure = some f → status = .failed ∧ exit.code = Exit.failed.code ∧ f.node = restart) :
    (p.finish status exit (some restart) failure).WellFormed g := by
  refine FlowOutcome.wellFormed_iff.mpr ⟨⟨?_, ?_, ?_, hcompleted⟩, hsplits⟩
  · cases status <;> simp [Progress.finish, Status.isRestartable]
  · intro node hnode
    rw [← Progress.restart_of_finish hnode]
    exact hrestart
  · intro f hf
    obtain ⟨rfl, hcode, rfl⟩ := hfailure f hf
    exact ⟨rfl, hcode, rfl⟩

theorem Position.Sound.ends (hg : g.Valid) {pos : Position} (h : pos.Sound g)
    (hvisit : ∀ node v, g.node? pos.node = some node → (visit ex walk g node pos.progress pos.prior).Yields v →
      VisitFits g node v) {t : Traversal} {kept : Option Record} (hends : Ends ex walk g pos (.ok t, kept)) :
    t.outcome.WellFormed g := by
  cases hends with
  | full hn => exact wellFormed_finish h.completed h.splits (contains_id hn) (by rintro f ⟨⟩; exact ⟨rfl, rfl, rfl⟩)
  | @done node v _ hn hyields hturn =>
    have hv := hvisit node v hn hyields
    obtain ⟨hcompleted, hsplits⟩ := h.folded hn hv
    cases hturn with
    | failed f hf =>
      refine wellFormed_finish hcompleted hsplits (contains_id hn) ?_
      rintro _ ⟨⟩
      exact ⟨rfl, rfl, hv.failure f hf⟩
    | finished o stopping hf hroute =>
      obtain ⟨status, exit, restart, failure, rfl, hrestart, hfailure⟩ := Progress.eq_of_route_finish hroute
      refine wellFormed_finish hcompleted hsplits ?_ hfailure
      rcases hrestart with rfl | ⟨t, ht, htarget⟩
      · exact contains_id hn
      · exact hg.contains_target hn ht htarget

/-! ## Traversals -/

/-- Every branch of the graph's splits, walked from a start in it, comes to an outcome
    of its name that fits it. -/
def WalkFits (walk : BranchWalk σ) (g : Graph) : Prop :=
  ∀ split branches, g.splitAt? split = some branches → ∀ b ∈ branches, ∀ start, start.Sound b →
    ∀ context e, (walk b start context).Yields e → ∀ c, (Split.settle b c e).outcome.flow = b.name ∧
      (Split.settle b c e).outcome.Fits b

theorem fits_panicked (b : Graph) (c : Context) : (Split.settle b c .panicked).outcome.Fits b :=
  Or.inl ⟨_, Or.inl rfl, rfl⟩

theorem fits_lost (b : Graph) (c : Context) : (Split.settle b c .lost).outcome.Fits b :=
  Or.inl ⟨_, Or.inr rfl, rfl⟩

/-- The start of a branch that is walked is in its graph, for its earlier outcome is. -/
theorem sound_of_mem_toRun {branches : List Graph} (hnames : (branches.map (·.name)).Nodup)
    (hvalid : ∀ b ∈ branches, b.Valid) {prior : Option (List FlowOutcome)}
    (hprior : ∀ o ∈ prior.getD [], ∀ b ∈ branches, b.name = o.flow → o.Fits b) {i : Nat} {b : Graph}
    {start : FlowStart} (h : (i, b, start) ∈ Split.toRun branches (Split.plan prior branches)) :
    b ∈ branches ∧ start.Sound b := by
  obtain ⟨hb, rfl | ⟨o, ho, hname, rfl⟩⟩ := Split.start_of_mem_toRun hnames h
  · exact ⟨hb, FlowStart.sound_entry (hvalid b hb)⟩
  · exact ⟨hb, FlowStart.sound_resume (hvalid b hb) (hprior o ho b hb hname)⟩

/-- What is settled for a branch that is walked has its name and fits it. -/
theorem settled_fits (hg : g.Valid) (hwalk : WalkFits walk g) {split : String} {branches : List Graph}
    (hsplit : g.splitAt? split = some branches) {prior : Option (List FlowOutcome)} (hprior : g.Earlier split prior)
    {context c : Context} {ends : List (Nat × BranchEnd)}
    (hends : (walkBranches ex walk context [] (Split.toRun branches (Split.plan prior branches))).Yields ends) {i : Nat}
    {b : Graph} {start : FlowStart} (hrun : (i, b, start) ∈ Split.toRun branches (Split.plan prior branches)) :
    (Split.settle b c (Split.endAt ends i)).outcome.flow = b.name ∧
      (Split.settle b c (Split.endAt ends i)).outcome.Fits b := by
  obtain ⟨n, hn, hkind⟩ := Graph.splitAt?_eq_some hsplit
  have hvalid : ∀ b ∈ branches, b.Valid := fun b hb => hg.branch hn hkind hb
  obtain ⟨hb, hsound⟩ := sound_of_mem_toRun (hg.names hsplit) hvalid (hprior branches hsplit) hrun
  generalize hend : Split.endAt ends i = e
  rcases Split.mem_of_endAt hend with hmem | rfl
  · rcases end_of_walkBranches hends _ hmem with rfl | ⟨b', start', hwalked, hyields⟩
    · exact ⟨rfl, fits_panicked b c⟩
    · have hsame : (i, b', start') = (i, b, start) :=
        List.inj_on_of_nodup_map (Split.nodup_toRun branches (Split.plan prior branches)) hwalked hrun rfl
      cases hsame
      exact hwalk split branches hsplit b hb start hsound context e hyields c
  · exact ⟨rfl, fits_lost b c⟩

theorem map_flow_eq {branches : List Graph} {os : List FlowOutcome} (hlength : os.length = branches.length)
    (h : ∀ b x, (b, x) ∈ branches.zip os → x.flow = b.name) : os.map (·.flow) = branches.map (·.name) := by
  calc os.map (·.flow) = ((branches.zip os).map Prod.snd).map (·.flow) := by rw [List.map_snd_zip (by omega)]
    _ = (branches.zip os).map (·.1.name) := by
        rw [List.map_map]
        exact List.map_congr_left fun x hx => h x.1 x.2 hx
    _ = ((branches.zip os).map Prod.fst).map (·.name) := by rw [List.map_map]; rfl
    _ = branches.map (·.name) := by rw [List.map_fst_zip (by omega)]

/-- A visit to a split joins outcomes of all its branches. -/
theorem visitFits (hg : g.Valid) (hwalk : WalkFits walk g) {pos : Position} (hpos : pos.Sound g) {node : Node Graph}
    (hn : g.node? pos.node = some node) {v : Visit}
    (h : (visit ex walk g node pos.progress pos.prior).Yields v) : VisitFits g node v := by
  constructor
  · intro os hos
    rcases branches_of_visit h with hnone | ⟨branches, ends, hkind, hends, rfl⟩
    · rw [hnone] at hos
      cases hos
    have hsplit : g.splitAt? pos.node = some branches := by
      obtain ⟨id, kind, rules⟩ := node
      obtain rfl : kind = .split branches := hkind
      rw [Graph.splitAt?, hn]
    have hearlier := hpos.prior branches hsplit
    obtain ⟨hlength, hfits⟩ := Split.outcomes_of_join (P := fun b o => o.flow = b.name ∧ o.Fits b)
      (hg.names hsplit) hos (fun b hb o ho hflow _ => ⟨hflow, hearlier o ho b hb hflow.symm⟩)
      (fun i b start hrun => settled_fits hg hwalk hsplit hpos.prior hends hrun)
    rw [Graph.id_of_node? hn]
    exact ⟨branches, hsplit, map_flow_eq hlength fun b x hx => (hfits b x hx).1, fun b x hx => (hfits b x hx).2⟩
  · intro f hf
    rw [failure_of_visit h] at hf
    unfold Units.missing? at hf
    split at hf
    · split at hf <;> cases hf
      rfl
    · split at hf <;> cases hf
      rfl
    · cases hf

/-- Wherever a traversal comes, it is in the graph. -/
theorem Comes.sound (hg : g.Valid) (hwalk : WalkFits walk g) {pos p : Position} (h : Comes ex walk g pos p)
    (hpos : pos.Sound g) : p.Sound g := by
  induction h with
  | here => exact hpos
  | onward _ hn hvisit hturn ih => exact ih.onward hg hn (visitFits hg hwalk ih hn hvisit) hturn

theorem wellFormed_of_traverse (hg : g.Valid) (hwalk : WalkFits walk g) {start : FlowStart} (hstart : start.Sound g)
    {context : Context} {record kept : Option Record} {t : Traversal}
    (h : (traverse ex walk g start context record).Yields (.ok t, kept)) : t.outcome.WellFormed g := by
  obtain ⟨p, hcomes, hends⟩ := ends_of_traverse h
  have hsound := hcomes.sound hg hwalk (.start hstart context record)
  exact hsound.ends hg (fun node v hn hv => visitFits hg hwalk hsound hn hv) hends

/-- By induction on how deep the splits are nested. -/
theorem walkFits_of_walks {levels : Nat} (hwalk : Walks ex levels walk) (hg : g.Valid) (hlevels : g.nesting ≤ levels) :
    WalkFits walk g := by
  induction levels generalizing walk g with
  | zero =>
    intro split branches hsplit
    obtain ⟨n, hn, hkind⟩ := Graph.splitAt?_eq_some hsplit
    have := Graph.nestingOfBranches_lt hn hkind
    omega
  | succ levels ih =>
    intro split branches hsplit b hb start hstart context e he c
    obtain ⟨n, hn, hkind⟩ := Graph.splitAt?_eq_some hsplit
    have hnesting : b.nesting ≤ levels := by
      have := Graph.nestingOfBranches_lt hn hkind
      have := Graph.nesting_le_nestingOfBranches hb
      omega
    have hvalid : b.Valid := hg.branch hn hkind hb
    obtain ⟨inner, hinner, hends⟩ := hwalk
    have hfits := ih hinner hvalid hnesting
    rcases hends b start context e he with rfl | rfl | ⟨t, kept, rfl, hyields⟩ | ⟨error, kept, -, hyields⟩
    · exact ⟨rfl, fits_panicked b c⟩
    · exact ⟨rfl, fits_lost b c⟩
    · exact ⟨(of_traverse_yields hyields).1, Or.inr (wellFormed_of_traverse hvalid hfits hstart hyields)⟩
    · cases (error_of_traverse hvalid hstart.node hyields).1

/-- A traversal of a built graph, from a start in it whose outcomes from before are well
    formed, comes to a well-formed outcome: whatever the units and launched jobs do,
    whenever a stop is asked for, and whatever happens to the tasks of its branches. -/
theorem outcome_wellFormed (ex : Executor σ) {g : Graph} (hg : g.Valid) {levels : Nat} (hlevels : g.nesting ≤ levels)
    {walk : BranchWalk σ} (hwalk : Walks ex levels walk) {start : FlowStart} (hstart : start.Sound g)
    (context : Context) (record : Option Record) {t : Traversal} {kept : Option Record}
    (h : (traverse ex walk g start context record).Yields (.ok t, kept)) : t.outcome.WellFormed g :=
  wellFormed_of_traverse hg (walkFits_of_walks hwalk hg hlevels) hstart h

end Executor

/-! ## The checks, taken up -/

namespace Nightly

def checks (start : FlowStart) : Tour (List String) :=
  { ex :=
      { config := {}
        units
        launch := none
        answer := fun _ => pure .unavailable
        scope := ⟨"nightly", ⟨"nightly"⟩, ExecutionId.numbered 0 0, 1, Dict.empty, 0, 0⟩ }
    levels := 2
    graph := nightly.definition.graph
    start
    context := Dict.empty
    world := night nightly (.shelf Shelf.empty) 0 [] }

def evening : FlowOutcome := ((checks (FlowStart.entry nightly.definition.graph)).outcome?).getD default

theorem checks_end : ((checks (FlowStart.entry nightly.definition.graph)).traversal?).isSome = true ∧
    ((checks (FlowStart.resume nightly.definition.graph evening)).outcome?).map (·.restartNode)
      = some (some "checks") := by
  decide +kernel

theorem checks_wellFormed :
    evening.WellFormed nightly.definition.graph ∧
      ∃ u, (checks (FlowStart.resume nightly.definition.graph evening)).traversal? = some u ∧
        u.outcome.restartNode = some "checks" ∧ u.outcome.WellFormed nightly.definition.graph := by
  obtain ⟨hfirst, hsecond⟩ := checks_end
  have hnesting : nightly.definition.graph.nesting ≤ 2 := by decide
  have hwalk := fun start => Executor.walks_walkBranch (checks start).ex 2
  obtain ⟨t, ht⟩ := Option.isSome_iff_exists.mp hfirst
  have hevening : evening = t.outcome := by rw [evening, Tour.outcome?, ht]; rfl
  obtain ⟨kept, hcame⟩ := Tour.traversal?_eq_some ht
  have hone : evening.WellFormed nightly.definition.graph := by
    rw [hevening]
    exact Executor.outcome_wellFormed _ valid_nightly hnesting (hwalk _) (FlowStart.sound_entry valid_nightly) _ _
      (.of_run (Prod.ext hcame rfl))
  refine ⟨hone, ?_⟩
  obtain ⟨o, ho, hrestart⟩ := Option.map_eq_some_iff.mp hsecond
  obtain ⟨u, hu, rfl⟩ := Option.map_eq_some_iff.mp ho
  obtain ⟨kept, hcame⟩ := Tour.traversal?_eq_some hu
  exact ⟨u, hu, hrestart, Executor.outcome_wellFormed _ valid_nightly hnesting (hwalk _)
    (FlowStart.sound_resume valid_nightly (Or.inr hone)) _ _ (.of_run (Prod.ext hcame rfl))⟩

end Nightly

end Switchyard
