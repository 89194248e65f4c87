import Switchyard.Proofs.Engine.Carry

/-
  Switchyard.Proofs.Engine.Series — attempts of an instance, one after the other, at one
  split.

  A `Series` is a number of sealed attempts of an instance, each of which found the one
  before as the latest. If in all of them the flow that owns a split and the flows that
  enclose it end at their splits on the way, and from the second one on visit these
  once, then a branch that completed is done with: `completed_branches_stay_done`.

  The flows that enclose the owner have to go on as well. Where one of them begins
  elsewhere and enters its split anew, the branches in it begin anew, and work that was
  completed is done again (`Nightly.suites_run_again`).
-/

namespace Switchyard

variable {σ : Type}

structure Attempt (σ : Type) where
  runner : Runner σ
  inner : Runner.Run σ
  depth : Nat
  /-- The world that it was opened in. -/
  before : World σ
  opened : Opened σ
  record : Record

namespace Attempt

variable {a a' : Attempt σ} {d : Definition} {parameters : Parameters} {split : String}

structure Of (a : Attempt σ) (d : Definition) (parameters : Parameters) : Prop where
  opened : Runner.opened? d parameters a.before = some a.opened
  sealed : a.runner.sealed? a.inner a.depth d a.opened = some a.record

def tour (a : Attempt σ) (d : Definition) : Tour σ :=
  { ex := a.runner.executorOf a.inner a.depth a.opened
    levels := d.graph.nesting
    graph := d.graph
    start := a.opened.start
    context := a.opened.record.context
    record := some a.opened.record
    world := a.opened.world }

/-- What the record tells of a branch of a split, at any depth. -/
def told? (a : Attempt σ) (path : List (String × String)) (split branch : String) : Option FlowOutcome :=
  Switchyard.told? a.record.branches path split branch

/-- The record is sealed with what the flow came to. -/
theorem Of.closed (h : a.Of d parameters) :
    ∃ t now, (a.tour d).traversal? = some t ∧ a.record = a.opened.record.closed t now := by
  obtain ⟨t, kept, w₁, now, htraverse, hrec⟩ := Runner.closed_of_sealed h.opened h.sealed
  have hcame : (a.tour d).came.1 = .ok (.ok t, kept) := congrArg Prod.fst htraverse
  exact ⟨t, now, by simp only [Tour.traversal?, hcame], hrec⟩

theorem Of.outcome (h : a.Of d parameters) :
    ∃ o, (a.tour d).outcome? = some o ∧ a.record.branches = o.splits ∧ a.record.restartNode = o.restartNode := by
  obtain ⟨t, now, ht, hrec⟩ := h.closed
  exact ⟨t.outcome, by rw [Tour.outcome?, ht]; rfl, by rw [hrec]; rfl, by rw [hrec]; rfl⟩

theorem Of.sound (h : a.Of d parameters) (hvalid : d.graph.Valid) (hroom : 1 ≤ a.runner.config.maxNodeVisits) :
    (a.tour d).Sound :=
  ⟨hvalid, Nat.le_refl _, Runner.contains_of_opened hvalid h.opened, hroom⟩

/-- An attempt takes up the one it finds as the latest, where that one ended. -/
theorem Of.takesUp (h : a.Of d parameters) (h' : a'.Of d parameters)
    (hlatest : a'.before.repository.store.latest? (InstanceId.derive d.name parameters) = .ok (some a.record))
    (hend : (a.tour d).EndsAt split) : (a'.tour d).TakesUp (a.tour d) split := by
  obtain ⟨o, ho, hbranches, hrestart⟩ := h.outcome
  obtain ⟨o', ho', -, hsplit⟩ := hend.restart
  obtain rfl : o' = o := Option.some.inj (ho'.symm.trans ho)
  rw [hsplit] at hrestart
  obtain ⟨latest, point, -, -, hfound, hpoint, hstart, -⟩ := Runner.start_of_opened h'.opened
  obtain rfl : latest = some a.record := Except.ok.inj (hfound.symm.trans hlatest)
  obtain ⟨-, -, -, -, rfl⟩ := StartPoint.resolve_eq_ok_iff.mp hpoint
  have hnode : StartPoint.restartNode d.graph a.record = split := by
    rw [StartPoint.restartNode, hrestart]
    rfl
  refine ⟨rfl, o', ho, ?_, ?_⟩
  · show a'.opened.start.node = split
    rw [hstart]
    exact hnode
  · show a'.opened.start.prior = o'.splits.get? split
    rw [hstart, ← hbranches, ← hnode]
    rfl

end Attempt

/-- Attempts of an instance, numbered from zero, each of which finds the one before as
    the latest. -/
structure Series (d : Definition) (parameters : Parameters) (n : Nat) (a : Nat → Attempt σ) : Prop where
  of : ∀ i ≤ n, (a i).Of d parameters
  next : ∀ i < n, (a (i + 1)).before.repository.store.latest? (InstanceId.derive d.name parameters) =
    .ok (some (a i).record)
  room : ∀ i ≤ n, 1 ≤ (a i).runner.config.maxNodeVisits

namespace Series

variable {d : Definition} {parameters : Parameters} {n : Nat} {a : Nat → Attempt σ} {path : List (String × String)}
  {split : String} {branches : List Graph}

theorem sound (h : Series d parameters n a) (hvalid : d.graph.Valid) {i : Nat} (hi : i ≤ n) :
    ((a i).tour d).Sound := (h.of i hi).sound hvalid (h.room i hi)

/-- The flow that owns the split in an attempt, and what the record tells of it. -/
theorem exists_owner (h : Series d parameters n a) (hvalid : d.graph.Valid)
    (hsplit : d.graph.branchesAt? path split = some branches)
    (hhalts : ∀ i ≤ n, ((a i).tour d).Halts (0 < i) path split) {i : Nat} (hi : i ≤ n) :
    ∃ t, ((a i).tour d).owner? path = some t ∧ t.Sound ∧ t.graph.splitAt? split = some branches ∧ t.EndsAt split ∧
      (0 < i → t.Once split) ∧ ∀ o, t.outcome? = some o → ∀ branch,
        (a i).told? path split branch = told? o.splits [] split branch := by
  obtain ⟨t, howner, hsound, hat, hend, honce, htold⟩ := (hhalts i hi).owner (h.sound hvalid hi) hsplit
  obtain ⟨o, ho, hbranches, -⟩ := (h.of i hi).outcome
  refine ⟨t, howner, hsound, hat, hend, honce, fun ot hot branch => ?_⟩
  rw [Attempt.told?, hbranches]
  exact htold o ot ho hot branch

/-- From one attempt to the next, the flow that owns the split is taken up there. -/
theorem takesUp (h : Series d parameters n a) (hvalid : d.graph.Valid)
    (hsplit : d.graph.branchesAt? path split = some branches)
    (hhalts : ∀ i ≤ n, ((a i).tour d).Halts (0 < i) path split) {i : Nat} (hi : i < n) {t t' : Tour σ}
    (ht : ((a i).tour d).owner? path = some t) (ht' : ((a (i + 1)).tour d).owner? path = some t') :
    t'.TakesUp t split := by
  have hhere := hhalts i (Nat.le_of_lt hi)
  have hthere : ((a (i + 1)).tour d).Halts True path split := by
    have hnext := hhalts (i + 1) hi
    simpa using hnext
  refine Tour.takesUp_owner hhere hthere (h.sound hvalid (Nat.le_of_lt hi)) (h.sound hvalid hi) ?_ hsplit ht ht'
  exact (h.of i (Nat.le_of_lt hi)).takesUp (h.of (i + 1) hi) (h.next i hi) hhere.at_top.1

/-- What one attempt tells of a branch, the next one goes by. -/
theorem carriesOn (h : Series d parameters n a) (hvalid : d.graph.Valid)
    (hsplit : d.graph.branchesAt? path split = some branches)
    (hhalts : ∀ i ≤ n, ((a i).tour d).Halts (0 < i) path split) {i : Nat} (hi : i < n) {t : Tour σ}
    (ht : ((a (i + 1)).tour d).owner? path = some t) {b : Graph} (hb : b ∈ branches) {o : FlowOutcome}
    (ho : (a i).told? path split b.name = some o) :
    t.CarriesOn split b o ∧ (o.status = .completed → (a (i + 1)).told? path split b.name = some o) := by
  obtain ⟨u, hu, husound, huat, huend, -, hutold⟩ := h.exists_owner hvalid hsplit hhalts (Nat.le_of_lt hi)
  obtain ⟨t', ht', htsound, htat, htend, htonce, httold⟩ := h.exists_owner hvalid hsplit hhalts hi
  obtain rfl : t' = t := Option.some.inj (ht'.symm.trans ht)
  obtain ⟨s, v, ou, hrests⟩ := huend.rests husound huat
  have htold : v.told? b.name = some o := by
    rw [← hrests.told?, ← hutold ou hrests.outcome]
    exact ho
  have hcarries := Tour.carried_of_takesUp husound htsound hrests (h.takesUp hvalid hsplit hhalts hi hu ht) htat htend
    (htonce (Nat.succ_pos i)) hb htold
  refine ⟨hcarries, fun hdone => ?_⟩
  obtain ⟨-, o', ho', hleft⟩ := hcarries.done hdone
  rw [httold o' ho']
  exact hleft

/-- A branch that completed is done with: no later attempt walks it, every later record
    tells of it what the first one did, and it writes nothing. Every other branch begins
    where its last outcome says. -/
theorem completed_branches_stay_done (h : Series d parameters n a) (hvalid : d.graph.Valid)
    (hsplit : d.graph.branchesAt? path split = some branches)
    (hhalts : ∀ i ≤ n, ((a i).tour d).Halts (0 < i) path split) :
    ∃ owner : Nat → Tour σ, (∀ i ≤ n, ((a i).tour d).owner? path = some (owner i)) ∧
      (∀ i ≤ n, ∀ b ∈ branches, ∃ o, (a i).told? path split b.name = some o ∧
        (∀ u, (owner i).into? split b.name = some u → ∀ ou, u.outcome? = some ou → ou = o) ∧
        (o.status = .completed → ∀ j, i < j → j ≤ n → (a j).told? path split b.name = some o ∧
          ∀ s ∈ (owner j).visits, ∀ x ∈ (owner j).branches s, x.2.graph.name ≠ b.name) ∧
        (o.status ≠ .completed → i < n → ∃ s ∈ (owner (i + 1)).visits, ∃ x ∈ (owner (i + 1)).branches s,
          x.2.graph = b ∧ x.2.visits.head?.map (·.node.id) = some (o.restartNode.getD b.entry))) ∧
      ∀ i ≤ n, ∀ s ∈ (owner i).visits, s.node.id = split → ∃ v, s.came = .ok v ∧
        v.updates = ((owner i).branches s).foldl (fun acc x => acc.merge x.2.updates) Dict.empty := by
  have hexists : ∃ owner : Nat → Tour σ, ∀ i ≤ n, ((a i).tour d).owner? path = some (owner i) := by
    refine ⟨fun i => (((a i).tour d).owner? path).getD ((a i).tour d), fun i hi => ?_⟩
    obtain ⟨t, ht, -⟩ := h.exists_owner hvalid hsplit hhalts hi
    simp only [ht, Option.getD_some]
  obtain ⟨owner, howner⟩ := hexists
  refine ⟨owner, howner, fun i hi b hb => ?_, fun i hi s hs hid => ?_⟩
  · obtain ⟨t, ht, hsound, hat, hend, -, htold⟩ := h.exists_owner hvalid hsplit hhalts hi
    obtain rfl : t = owner i := Option.some.inj (ht.symm.trans (howner i hi))
    obtain ⟨s, v, o, hrests⟩ := hend.rests hsound hat
    obtain ⟨ob, hob⟩ := hrests.exists_told hb
    have htells : (a i).told? path split b.name = some ob := by
      rw [htold o hrests.outcome, hrests.told?]
      exact hob
    refine ⟨ob, htells, fun u hu ou hou => ?_, fun hdone j hij hj => ?_, fun hopen hin => ?_⟩
    · obtain ⟨-, -, -, -, hleft⟩ := hrests.into hsound hu (Split.find?_of_nodup hrests.names hb)
      exact Option.some.inj ((hleft ou hou).symm.trans hob)
    · -- From each attempt to the next, beginning with the one that told of the branch.
      have hcarried : ∀ k, i + k + 1 ≤ n → (a (i + k + 1)).told? path split b.name = some ob ∧
          ∀ s ∈ (owner (i + k + 1)).visits, ∀ x ∈ (owner (i + k + 1)).branches s, x.2.graph.name ≠ b.name := by
        intro k
        induction k with
        | zero =>
          intro hk
          obtain ⟨hgoes, htells'⟩ := h.carriesOn hvalid hsplit hhalts hk (howner _ hk) hb htells
          exact ⟨htells' hdone, (hgoes.done hdone).1⟩
        | succ k ih =>
          intro hk
          obtain ⟨hbefore, -⟩ := ih (by omega)
          obtain ⟨hgoes, htells'⟩ := h.carriesOn hvalid hsplit hhalts hk (howner _ hk) hb hbefore
          exact ⟨htells' hdone, (hgoes.done hdone).1⟩
      obtain ⟨k, rfl⟩ : ∃ k, j = i + k + 1 := ⟨j - i - 1, by omega⟩
      exact hcarried k hj
    · obtain ⟨hgoes, -⟩ := h.carriesOn hvalid hsplit hhalts hin (howner _ hin) hb htells
      obtain ⟨s', hs', x, hx, hgraph, -, hfirst⟩ := hgoes.open_ hopen
      exact ⟨s', hs', x, hx, hgraph, hfirst⟩
  · obtain ⟨t, ht, hsound, hat, hend, -, -⟩ := h.exists_owner hvalid hsplit hhalts hi
    obtain rfl : t = owner i := Option.some.inj (ht.symm.trans (howner i hi))
    obtain ⟨l, v, o, hrests⟩ := hend.rests hsound hat
    obtain ⟨x, hx, -⟩ := Option.map_eq_some_iff.mp hrests.outcome
    obtain ⟨kept, hcame⟩ := Tour.traversal?_eq_some hx
    obtain ⟨w, hw⟩ := (owner i).course.came_of_mem hcame s hs
    have hnode := (owner i).course.node?_of_mem s hs
    obtain ⟨m, hm, hkind⟩ := Graph.splitAt?_eq_some hat
    rw [Graph.id_of_node? hnode] at hid
    rw [hid, hm] at hnode
    obtain rfl := Option.some.inj hnode
    exact ⟨w, hw, Tour.updates_of_came hs hkind hrests.levels hw⟩

end Series

/-! ## Runs as attempts -/

namespace Task

variable {k : Task σ} {w w' : World σ} {a : Attempt σ}

def attempt? (k : Task σ) (w : World σ) : Option (Attempt σ) :=
  (k.opened? w).bind fun o => (k.record? w).map fun rec => ⟨k.runner, k.inner, 0, w, o, rec⟩

theorem of_attempt? (hjob : w.jobs.get? k.job = some k.definition) (h : k.attempt? w = some a) :
    a.Of k.definition k.parameters ∧ a.before = w ∧ a.runner = k.runner ∧ k.opened? w = some a.opened ∧
      k.record? w = some a.record := by
  obtain ⟨o, ho, h⟩ := Option.bind_eq_some_iff.mp h
  obtain ⟨rec, hrec, rfl⟩ := Option.map_eq_some_iff.mp h
  exact ⟨⟨ho, (record?_eq_sealed? hjob ho).symm.trans hrec⟩, rfl, rfl, ho, hrec⟩

/-- Runs of a task, each with the store that the one before left, are a series. -/
theorem series_of_runs {n : Nat} {w : Nat → World σ} {a : Nat → Attempt σ}
    (ha : ∀ i ≤ n, k.attempt? (w i) = some (a i)) (hready : ∀ i ≤ n, k.Ready (w i))
    (hback : ∀ i < n, ∀ rec, (k.after (w i)).repository.store.readBack rec = .ok rec)
    (hlink : ∀ i < n, (w (i + 1)).repository.store = (k.after (w i)).repository.store)
    (hroom : 1 ≤ k.runner.config.maxNodeVisits) : Series k.definition k.parameters n a := by
  refine ⟨fun i hi => (of_attempt? (hready i hi).registered (ha i hi)).1, fun i hi => ?_, fun i hi => ?_⟩
  · obtain ⟨-, -, -, hopened, hrecord⟩ := of_attempt? (hready i (Nat.le_of_lt hi)).registered (ha i (Nat.le_of_lt hi))
    obtain ⟨-, hbefore, -⟩ := of_attempt? (hready (i + 1) hi).registered (ha (i + 1) hi)
    rw [hbefore, hlink i hi]
    refine (latest_after (hready i (Nat.le_of_lt hi)) hopened hrecord).trans ?_
    rw [hback i hi]
    rfl
  · obtain ⟨-, -, hrunner, -⟩ := of_attempt? (hready i hi).registered (ha i hi)
    rw [hrunner]
    exact hroom

end Task

/-! ## A nightly job -/

namespace Nightly

def fast : Graph := ⟨"fast", "unit", [⟨"unit", .step "unit", []⟩]⟩

def slow : Graph := ⟨"slow", "e2e", [⟨"e2e", .step "e2e", []⟩]⟩

def suitesNode : Node Graph := ⟨"suites", .split [fast, slow], []⟩

def code : Graph := ⟨"code", "suites", [suitesNode]⟩

def docs : Graph := ⟨"docs", "render", [⟨"render", .step "render", []⟩]⟩

def units : Units (List String) :=
  { step := fun name => some fun _ answers =>
      if name = "e2e" then .finish answers (.result { status := .failed, exit := Exit.failed })
      else if name = "gate" then
        .finish answers.tail (.result { status := .completed, exit := ⟨answers.headD "DONE", ""⟩ })
      else .finish answers (.result { status := .completed, exit := Exit.completed })
    decider := fun _ => none }

def checking : Graph.Declaration := { name := "nightly", nodes := [⟨"checks", .split [code, docs], []⟩] }

def nightly : Task (List String) :=
  { runner := { config := {}, units }
    job := "nightly"
    definition := { graph := ⟨"nightly", "checks", [⟨"checks", .split [code, docs], []⟩]⟩ }
    parameters := Dict.empty }

def night (k : Task (List String)) (store : Store) (issued : Nat) (answers : List String) : World (List String) :=
  { repository := { store }
    jobs := Dict.empty.insert k.job k.definition
    bus := Bus.ofCapacity 4
    clock := { origin := Instant.ofSeconds 0 0, issued }
    memory := answers }

def nights (k : Task (List String)) (answers : Nat → List String) : Nat → World (List String)
  | 0 => night k (.shelf Shelf.empty) 0 (answers 0)
  | i + 1 =>
    let before := nights k answers i
    night k (k.after before).repository.store (k.after before).clock.issued (answers (i + 1))

def sober (k : Task (List String)) (w : World (List String)) : Bool :=
  w.clock.issued < ExecutionId.room && (k.after w).clock.issued ≤ ExecutionId.room &&
    (k.after w).clock.originMillis = 0 &&
      match (k.after w).repository.store with
      | .shelf _ => true
      | .table _ => false

theorem reached_nights {k : Task (List String)} {answers : Nat → List String} {n : Nat}
    (h : ∀ i < n, sober k (nights k answers i) = true) : Reached (nights k answers n) := by
  induction n with
  | zero => exact .empty (Or.inl rfl)
  | succ n ih =>
    have hbefore := ih fun i hi => h i (Nat.lt_succ_of_lt hi)
    have hsober := h n (Nat.lt_succ_self n)
    simp only [sober, Bool.and_eq_true, decide_eq_true_eq] at hsober
    obtain ⟨⟨-, hmillis⟩, -⟩ := hsober
    exact .reopened (hbefore.after k.runner (.run k.job k.parameters)) rfl hmillis.symm (Nat.le_refl _)

theorem series_nights {k : Task (List String)} {answers : Nat → List String} {n : Nat}
    (hsober : ∀ i ≤ n, sober k (nights k answers i) = true) (hroom : 1 ≤ k.runner.config.maxNodeVisits)
    {a : Nat → Attempt (List String)} (ha : ∀ i ≤ n, k.attempt? (nights k answers i) = some (a i)) :
    Series k.definition k.parameters n a := by
  have hready : ∀ i ≤ n, k.Ready (nights k answers i) := by
    intro i hi
    have hreached := reached_nights fun j hj => hsober j (Nat.le_trans (Nat.le_of_lt hj) hi)
    have h := hsober i hi
    simp only [sober, Bool.and_eq_true, decide_eq_true_eq] at h
    obtain ⟨⟨⟨hids, hafter⟩, -⟩, -⟩ := h
    refine ⟨?_, ?_, ?_, hreached, hids, hafter⟩
    · cases i <;> exact Dict.get?_insert_self _ _ _
    · cases i <;> rfl
    · cases i <;> rfl
  refine Task.series_of_runs ha hready (fun i hi rec => ?_) (fun i hi => rfl) hroom
  have h := hsober i (Nat.le_of_lt hi)
  simp only [sober, Bool.and_eq_true] at h
  exact Store.readBack_of_shelf h.2 rec

/-- The attempts of the first nights, and what is so of each of them. -/
theorem exists_attempts {β : Type} {k : Task (List String)} {answers : Nat → List String} {n : Nat}
    {P : Nat → Attempt (List String) → β} {r : Nat → β}
    (h : ∀ i ≤ n, (k.attempt? (nights k answers i)).map (P i) = some (r i)) :
    ∃ a : Nat → Attempt (List String), (∀ i ≤ n, k.attempt? (nights k answers i) = some (a i)) ∧
      ∀ i ≤ n, P i (a i) = r i := by
  obtain ⟨first, -, -⟩ := Option.map_eq_some_iff.mp (h 0 (Nat.zero_le n))
  refine ⟨fun i => (k.attempt? (nights k answers i)).getD first, fun i hi => ?_, fun i hi => ?_⟩
  · obtain ⟨x, hx, -⟩ := Option.map_eq_some_iff.mp (h i hi)
    simp only [hx, Option.getD_some]
  · obtain ⟨x, hx, hP⟩ := Option.map_eq_some_iff.mp (h i hi)
    simp only [hx, Option.getD_some, hP]

theorem valid_of_steps {decl : Graph.Declaration} {g : Graph} (h : decl.build = .ok g)
    (hsteps : ∀ n ∈ g.nodes, n.isUnit = true) : g.Valid := by
  refine .mk h fun n hn branches hsplit => ?_
  have hunit := hsteps n hn
  rw [Node.isUnit, hsplit] at hunit
  cases hunit

theorem valid_code : code.Valid := by
  have hbuild : (⟨"code", none, [suitesNode]⟩ : Graph.Declaration).build = .ok code := by rfl
  refine .mk hbuild fun n hn branches hsplit => ?_
  obtain rfl := List.mem_singleton.mp hn
  cases hsplit
  intro b hb
  rcases List.mem_cons.mp hb with rfl | hb
  · exact valid_of_steps (by rfl : (⟨"fast", none, fast.nodes⟩ : Graph.Declaration).build = .ok fast) (by decide)
  · rw [List.mem_singleton.mp hb]
    exact valid_of_steps (by rfl : (⟨"slow", none, slow.nodes⟩ : Graph.Declaration).build = .ok slow) (by decide)

theorem valid_checks {b : Graph} (h : b ∈ [code, docs]) : b.Valid := by
  rcases List.mem_cons.mp h with rfl | h
  · exact valid_code
  · rw [List.mem_singleton.mp h]
    exact valid_of_steps (by rfl : (⟨"docs", none, docs.nodes⟩ : Graph.Declaration).build = .ok docs) (by decide)

theorem valid_nightly : nightly.definition.graph.Valid := by
  refine .mk (by rfl : checking.build = .ok nightly.definition.graph) fun n hn branches hsplit b hb => ?_
  obtain rfl := List.mem_singleton.mp hn
  cases hsplit
  exact valid_checks hb

def way : List (String × String) := [("checks", "code")]

def findings (k : Task (List String)) (i : Nat) (a : Attempt (List String)) : Bool × Option Status :=
  (decide ((a.tour k.definition).Halts (0 < i) way "suites"), (a.told? way "suites" "fast").map (·.status))

/-- Three nights that fail in the slow suite. -/
theorem calm_nights : ∀ i : Fin 3, sober nightly (nights nightly (fun _ => []) i) = true ∧
    (nightly.attempt? (nights nightly (fun _ => []) i)).map (findings nightly i) =
      some (true, some .completed) := by
  decide +kernel

theorem suites_stay_done :
    ∃ (a : Nat → Attempt (List String)) (owner : Nat → Tour (List String)) (o : FlowOutcome),
      Series nightly.definition nightly.parameters 2 a ∧
      (∀ i ≤ 2, ((a i).tour nightly.definition).Halts (0 < i) way "suites") ∧
      (∀ i ≤ 2, ((a i).tour nightly.definition).owner? way = some (owner i)) ∧
      o.status = .completed ∧ (a 0).told? way "suites" "fast" = some o ∧
      ∀ j, 0 < j → j ≤ 2 → (a j).told? way "suites" "fast" = some o ∧
        ∀ s ∈ (owner j).visits, ∀ x ∈ (owner j).branches s, x.2.graph.name ≠ "fast" := by
  have hnights : ∀ i ≤ 2, sober nightly (nights nightly (fun _ => []) i) = true ∧
      (nightly.attempt? (nights nightly (fun _ => []) i)).map (findings nightly i) = some (true, some .completed) :=
    fun i hi => calm_nights ⟨i, Nat.lt_succ_of_le hi⟩
  obtain ⟨a, ha, hfindings⟩ := exists_attempts fun i hi => (hnights i hi).2
  have hseries := series_nights (fun i hi => (hnights i hi).1) (by decide) ha
  have hhalts : ∀ i ≤ 2, ((a i).tour nightly.definition).Halts (0 < i) way "suites" := fun i hi =>
    of_decide_eq_true (congrArg Prod.fst (hfindings i hi))
  have hway : nightly.definition.graph.branchesAt? way "suites" = some [fast, slow] := by rfl
  obtain ⟨owner, howner, hbranches, -⟩ := hseries.completed_branches_stay_done valid_nightly hway hhalts
  obtain ⟨o, ho, -, hdone, -⟩ := hbranches 0 (Nat.zero_le 2) fast List.mem_cons_self
  have hstatus : o.status = .completed := by
    have htold := congrArg Prod.snd (hfindings 0 (Nat.zero_le 2))
    rw [findings] at htold
    rw [show (a 0).told? way "suites" "fast" = some o from ho] at htold
    exact Option.some.inj htold
  exact ⟨a, owner, o, hseries, hhalts, howner, hstatus, ho, hdone hstatus⟩

/-! ### Where the job begins elsewhere -/

def gating : Graph.Declaration :=
  { name := "release"
    nodes :=
      [⟨"checks", .split [code, docs], [.goto "*" "gate"]⟩,
       ⟨"gate", .step "gate", [.fail "FAILED", .goto "AGAIN" "checks", .complete "*"]⟩] }

def gatingGraph : Graph :=
  { name := "release"
    entry := "checks"
    nodes :=
      [⟨"checks", .split [code, docs], [.goto "*" "gate"]⟩,
       ⟨"gate", .step "gate", [.fail "FAILED", .goto "AGAIN" "checks", .complete "*"]⟩] }

def gated : Task (List String) :=
  { runner := { config := {}, units }
    job := "release"
    definition := { graph := gatingGraph }
    parameters := Dict.empty }

def gateAnswers : Nat → List String
  | 0 => ["FAILED"]
  | _ => ["AGAIN", "FAILED"]

theorem valid_gated : gated.definition.graph.Valid := by
  refine .mk (by rfl : gating.build = .ok gated.definition.graph) fun n hn branches hsplit b hb => ?_
  rcases List.mem_cons.mp hn with rfl | hn
  · cases hsplit
    exact valid_checks hb
  · rw [List.mem_singleton.mp hn] at hsplit
    cases hsplit

/-- Did the flow that owns the suites end at them, with no other visit, how did the fast
    suite end, and which of its nodes were visited? -/
def sighting (a : Attempt (List String)) : Bool × Option Status × Option (List String) :=
  have := Tour.decidableSome ((a.tour gated.definition).owner? way) fun u => u.EndsAt "suites" ∧ u.Once "suites"
  (decide (∃ u, (a.tour gated.definition).owner? way = some u ∧ u.EndsAt "suites" ∧ u.Once "suites"),
    (a.told? way "suites" "fast").map (·.status),
    (((a.tour gated.definition).owner? way).bind fun u => u.into? "suites" "fast").map fun x =>
      x.visits.map (·.node.id))

theorem gated_nights : ∀ i : Fin 2, sober gated (nights gated gateAnswers i) = true ∧
    (gated.attempt? (nights gated gateAnswers i)).map sighting = some (true, some .completed, some ["unit"]) := by
  decide +kernel

/-- The branch with the suites ends both nights at them, visiting them once, and the fast
    suite completed the first night; still its step is done again the second. -/
theorem suites_run_again :
    ∃ a : Nat → Attempt (List String), gated.definition.graph.Valid ∧
      gated.definition.graph.branchesAt? way "suites" = some [fast, slow] ∧
      Series gated.definition gated.parameters 1 a ∧
      (∀ i ≤ 1, ∃ u, ((a i).tour gated.definition).owner? way = some u ∧ u.EndsAt "suites" ∧ u.Once "suites") ∧
      (∃ o, (a 0).told? way "suites" "fast" = some o ∧ o.status = .completed) ∧
      ∃ u x, ((a 1).tour gated.definition).owner? way = some u ∧ u.into? "suites" "fast" = some x ∧
        x.visits.map (·.node.id) = ["unit"] := by
  have hnights : ∀ i ≤ 1, sober gated (nights gated gateAnswers i) = true ∧
      (gated.attempt? (nights gated gateAnswers i)).map sighting = some (true, some .completed, some ["unit"]) :=
    fun i hi => gated_nights ⟨i, Nat.lt_succ_of_le hi⟩
  obtain ⟨a, ha, hsighting⟩ := exists_attempts (P := fun _ => sighting) fun i hi => (hnights i hi).2
  have hseries := series_nights (fun i hi => (hnights i hi).1) (by decide) ha
  refine ⟨a, valid_gated, by rfl, hseries, fun i hi => ?_, ?_, ?_⟩
  · exact of_decide_eq_true (congrArg Prod.fst (hsighting i hi))
  · exact Option.map_eq_some_iff.mp (congrArg (·.2.1) (hsighting 0 (Nat.zero_le 1)))
  · obtain ⟨x, hx, hnodes⟩ := Option.map_eq_some_iff.mp (congrArg (·.2.2) (hsighting 1 (Nat.le_refl 1)))
    obtain ⟨u, hu, hinto⟩ := Option.bind_eq_some_iff.mp hx
    exact ⟨u, x, hu, hinto, hnodes⟩

end Nightly

end Switchyard
