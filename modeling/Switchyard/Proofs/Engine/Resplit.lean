import Switchyard.Proofs.Engine.Task
import Switchyard.Proofs.Engine.Visit
import Switchyard.Proofs.Flow.Split

/-
  Switchyard.Proofs.Engine.Resplit — attempts that begin at a split.

  The record of an attempt has, for each split, what the last visit to it left of its
  branches, whether or not the attempt went on from there. The next attempt takes that
  up if it begins at the split, also where the one before had only been about to enter
  it once more.

  - `branches_of_sealed`: what a sealed record says of a split.
  - `walks_after_first`: every visit but the first walks all branches anew.
  - `walks_of_restart`: what an attempt walks of the split that it begins at, and when
    that is every branch from its entry.
-/

namespace Switchyard

variable {σ : Type}

/-- What the last visit to a split left of one of its branches. -/
def Visits.branch? (vs : Visits) (split branch : String) : Option FlowOutcome :=
  (Split.byFlow ((vs.branchesOf split).getD [])).get? branch

namespace Executor

def Stage.walks (s : Stage σ) : List (Nat × Graph × FlowStart) :=
  match s.node.kind with
  | .split branches => Split.toRun branches (Split.plan s.pos.prior branches)
  | _ => []

variable {ex : Executor σ} {walk : BranchWalk σ} {g : Graph} {room : Nat} {pos : Position} {made : List (Stage σ)}
  {r : Except Halt Walked} {w : World σ} {s : Stage σ} {branches : List Graph}

theorem Stage.walks_eq (hsplit : s.node.kind = .split branches) (hnames : (branches.map (·.name)).Nodup) :
    s.walks = Split.takenUp (Split.byFlow (s.pos.prior.getD [])).get? branches := by
  simp only [walks, hsplit, Split.toRun_plan hnames]

/-- What comes of a visit to a split is what comes of walking these branches. -/
theorem came_of_walks (hplaces : ex.config.maxParallelBranches ≤ maxPlaces) (hs : s ∈ trail ex walk g room pos w)
    (hsplit : s.node.kind = .split branches) :
    s.came = ((do
      let ends ← ex.walkBranches walk s.pos.progress.context [] s.walks
      return Split.join branches (Split.plan s.pos.prior branches) s.pos.progress.context ends : Act σ Visit).run
        s.entered).1 := by
  rw [← came_of_mem_trail hs, visit_split hsplit hplaces]
  simp only [Stage.walks, hsplit]

theorem Course.prior_of_tail (h : Course ex g room pos made r w) : ∀ s ∈ made.tail, s.pos.prior = none := by
  induction h with
  | unknown => simp
  | full => simp
  | overflow => simp
  | broken => simp
  | done => simp
  | halted => simp
  | @onward room s v next rest r w hn hcame hleft hrest ih =>
    obtain ⟨-, target, rfl, -⟩ := hleft.eq_onward
    cases rest with
    | nil => simp
    | cons first others =>
      refine List.forall_mem_cons.mpr ⟨?_, ih⟩
      rw [(hrest.pos_of_head? rfl).1]
      rfl

end Executor

namespace Runner

variable {r : Runner σ} {inner : Run σ} {depth : Nat} {d : Definition} {parameters : Parameters} {w : World σ}
  {o : Opened σ} {rec : Record} {node : Node Graph} {branches : List Graph}

theorem branches_of_sealed (ho : opened? d parameters w = some o) (h : r.sealed? inner depth d o = some rec)
    (split : String) :
    rec.branches.get? split = (Executor.visitsOf (r.visits inner depth d o)).branchesOf split := by
  obtain ⟨t, kept, w₁, now, htraverse, rfl⟩ := closed_of_sealed ho h
  obtain ⟨status, exit, restart, failure, rfl⟩ :=
    (course_of_visits r inner depth d o).finished (congrArg Prod.fst htraverse)
  show (Progress.after _ _).splits.get? split = _
  rw [Progress.after_eq]
  exact (Visits.get?_splits _ _ split).trans (Option.or_none)

/-- Only the first visit of an attempt goes by earlier outcomes; every other visit to a
    split walks all branches anew. -/
theorem walks_after_first {decl : Graph.Declaration} (hbuild : decl.build = .ok d.graph) {s : Executor.Stage σ}
    (hs : s ∈ (r.visits inner depth d o).tail) (hsplit : s.node.kind = .split branches) :
    s.walks = Split.anew branches := by
  have hcourse := course_of_visits r inner depth d o
  have hnode := hcourse.node?_of_mem s (List.mem_of_mem_tail hs)
  rw [Executor.Stage.walks_eq hsplit ((Graph.built hbuild).branchNames hnode hsplit), hcourse.prior_of_tail s hs,
    Split.takenUp_eq_anew_iff]
  rintro b - previous ⟨⟩

/-- An attempt whose latest record names a split goes by what the attempt before left of
    that split's branches, even if it had gone on from there. So it walks all branches
    from their entries exactly if none of them is known to have completed or to have
    come further than its entry. -/
theorem walks_of_restart {decl : Graph.Declaration} (hbuild : decl.build = .ok d.graph) (r : Runner σ)
    (hroom : 1 ≤ r.config.maxNodeVisits) (inner : Run σ) (depth : Nat) (ho : opened? d parameters w = some o)
    (hsealed : r.sealed? inner depth d o = some rec) (hnode : d.graph.node? node.id = some node)
    (hsplit : node.kind = .split branches) (hrestart : rec.restartNode = some node.id) {w' : World σ}
    (hlatest : w'.repository.store.latest? (InstanceId.derive d.name parameters) = .ok (some rec)) {next : Opened σ}
    (hnext : opened? d parameters w' = some next) (inner' : Run σ) (depth' : Nat) :
    ∃ s, (r.visits inner' depth' d next).head? = some s ∧ s.node = node ∧
      s.walks = Split.takenUp ((Executor.visitsOf (r.visits inner depth d o)).branch? node.id) branches ∧
      (s.walks = Split.anew branches ↔ ∀ b ∈ branches, ∀ previous,
        (Executor.visitsOf (r.visits inner depth d o)).branch? node.id b.name = some previous →
        previous.status ≠ .completed ∧ FlowStart.resume b previous = FlowStart.entry b) := by
  obtain ⟨latest, point, fresh, now, hlatest', hpoint, hstart, -⟩ := start_of_opened hnext
  obtain rfl : latest = some rec := Except.ok.inj (hlatest'.symm.trans hlatest)
  obtain ⟨-, -, hcontains, -, rfl⟩ := StartPoint.resolve_eq_ok_iff.mp hpoint
  have hbegin : next.start.node = node.id := by
    rw [hstart]
    simp [StartPoint.resumed, StartPoint.restartNode, hrestart]
  have hprior : next.start.prior = (Executor.visitsOf (r.visits inner depth d o)).branchesOf node.id := by
    rw [← branches_of_sealed ho hsealed, ← hbegin, hstart]
    rfl
  have hcourse := course_of_visits r inner' depth' d next
  have hne : r.visits inner' depth' d next ≠ [] := by
    refine hcourse.ne_nil ?_ hroom
    show d.graph.contains next.start.node = true
    rw [hstart]
    exact hcontains
  obtain ⟨s, hs⟩ := Option.isSome_iff_exists.mp (List.isSome_head?.mpr hne)
  obtain ⟨hpos, hfound⟩ := hcourse.pos_of_head? hs
  have hat : s.node = node := by
    refine Option.some.inj (hfound.symm.trans ?_)
    rw [← hnode, ← hbegin]
    rfl
  have hwalks : s.walks = Split.takenUp ((Executor.visitsOf (r.visits inner depth d o)).branch? node.id) branches := by
    rw [Executor.Stage.walks_eq (hat ▸ hsplit) ((Graph.built hbuild).branchNames hnode hsplit), hpos]
    simp only [Executor.Position.start, hprior]
    rfl
  refine ⟨s, hs, hat, hwalks, ?_⟩
  rw [hwalks]
  exact Split.takenUp_eq_anew_iff

end Runner

/-! ## A split in a cycle -/

namespace Task

def workGraph : Graph := ⟨"b", "work", [⟨"work", .step "work", []⟩]⟩

def fanNode : Node Graph := ⟨"fan", .split [workGraph], [.goto "*" "check"]⟩

def poll : Graph.Declaration :=
  { name := "poll"
    nodes := [fanNode, ⟨"check", .step "check", [.complete "*", .goto "AGAIN" "fan"]⟩] }

def pollGraph : Graph :=
  ⟨"poll", "fan", [fanNode, ⟨"check", .step "check", [.goto "AGAIN" "fan", .complete "*"]⟩]⟩

def pollUnits : Units Unit :=
  { step := fun name => some fun _ m => .finish m (.result
      { status := .completed, exit := if name = "check" then ⟨"AGAIN", ""⟩ else Exit.completed })
    decider := fun _ => none }

def polling : Task Unit :=
  { runner := { config := { maxNodeVisits := 2 }, units := pollUnits }
    job := "poll"
    definition := { graph := pollGraph }
    parameters := Dict.empty }

def pollWorld (store : Store) (issued : Nat) : World Unit :=
  { repository := { store }
    jobs := Dict.empty.insert "poll" polling.definition
    bus := Bus.ofCapacity 4
    clock := { origin := Instant.ofSeconds 0 0, issued }
    memory := () }

def polledOnce : World Unit := pollWorld (.shelf Shelf.empty) 0

def polledAgain : World Unit :=
  pollWorld (polling.after polledOnce).repository.store (polling.after polledOnce).clock.issued

theorem poll_goes_by_last_visit :
    ∃ o rec next, polling.opened? polledOnce = some o ∧ polling.record? polledOnce = some rec ∧
      rec.restartNode = some "fan" ∧ polling.opened? polledAgain = some next ∧
      ∃ s, (polling.visits polledAgain).head? = some s ∧ s.node = fanNode ∧
        s.walks = Split.takenUp ((Executor.visitsOf (polling.visits polledOnce)).branch? "fan") [workGraph] ∧
        (s.walks = Split.anew [workGraph] ↔ ∀ b ∈ [workGraph], ∀ previous,
          (Executor.visitsOf (polling.visits polledOnce)).branch? "fan" b.name = some previous →
          previous.status ≠ .completed ∧ FlowStart.resume b previous = FlowStart.entry b) := by
  have hready : polling.Ready polledOnce :=
    ⟨Dict.get?_insert_self _ _ _, rfl, rfl, .empty (Or.inl rfl), by decide, by decide +kernel⟩
  obtain ⟨o, hbegun⟩ := begun_of_ready hready rfl rfl
  have hrestart : ((polling.record? polledOnce).bind (·.restartNode)) = some "fan" := by decide +kernel
  obtain ⟨rec, hrec, hrestart⟩ := Option.bind_eq_some_iff.mp hrestart
  obtain ⟨t, kept, ht⟩ := hbegun.walked rec hrec
  obtain ⟨now, hclosed, hread⟩ := hbegun.sealed t kept ht
  obtain rfl : rec = o.record.closed t now := Option.some.inj (hrec.symm.trans hclosed)
  have hlatest : polledAgain.repository.store.latest? polling.id = .ok (some (o.record.closed t now)) := by
    show (polling.after polledOnce).repository.store.latest? polling.id = _
    rw [hread, Store.readBack_of_shelf (by decide +kernel)]
    rfl
  have hopened : (polling.opened? polledAgain).isSome = true := by decide +kernel
  obtain ⟨next, hnext⟩ := Option.isSome_iff_exists.mp hopened
  have hsealed : polling.runner.sealed? polling.inner 0 polling.definition o = some (o.record.closed t now) := by
    rw [← record?_eq_sealed? hready.registered hbegun.opened]
    exact hrec
  refine ⟨o, _, next, hbegun.opened, hrec, hrestart, hnext, ?_⟩
  rw [visits_eq hbegun.opened, visits_eq hnext]
  have hbuild : poll.build = .ok polling.definition.graph := by rfl
  have hnode : polling.definition.graph.node? fanNode.id = some fanNode := by rfl
  exact Runner.walks_of_restart hbuild polling.runner (by decide) polling.inner 0 hbegun.opened hsealed hnode rfl
    hrestart hlatest hnext polling.inner 0

/-- The second run begins at the split that the first one was about to enter again, and
    walks none of its branches. -/
theorem poll_skips_work :
    poll.build = .ok pollGraph ∧
      (polling.record? polledOnce).map (fun rec => (rec.finalStatus, rec.lastNode, rec.restartNode)) =
        some (some .failed, some "check", some "fan") ∧
      (polling.visits polledAgain).head?.map (fun s => (s.node.id, s.walks.isEmpty)) = some ("fan", true) ∧
      (Split.anew [workGraph]).isEmpty = false := by
  refine ⟨by rfl, by decide +kernel, by decide +kernel, by decide +kernel⟩

end Task

end Switchyard
