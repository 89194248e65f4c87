import Switchyard.Proofs.Engine.Errands
import Switchyard.Proofs.Engine.Restart
import Switchyard.Proofs.Identity.Options
import Switchyard.Proofs.Parameters

/-
  Switchyard.Proofs.Engine.Relaunch — what a node launches when its job is run again with
  other options.

  The parameters of a launched job come from the context, and from the launching job's
  parameters for the declared keys that the context has no text for, options among them
  (`Parameters.extract_eq_iff`). All of them are identifying. So two runs of one instance
  that come to the node with one context launch one instance exactly if no such key has
  another value in the other run: an option does not change the instance it is given to,
  but it may change the one that is launched (`Depot.crate_begun_afresh`).

  - `Runner.relaunches_same`: which instance is launched; and if it is the same one, which
    failed or stopped before, it goes on where its latest attempt says.
-/

namespace Switchyard

variable {σ : Type}

/-! ## The parameters that two runs hand down -/

namespace Parameters

variable {c : Context} {p q : Parameters}

/-- The declared keys that the context has no text for have one value in both. -/
def SameFor (c : Context) (keys : List String) (p q : Parameters) : Prop :=
  ∀ key ∈ keys, c.text? key = none → p.value? key = q.value? key

instance (c : Context) (keys : List String) (p q : Parameters) : Decidable (SameFor c keys p q) :=
  inferInstanceAs (Decidable (∀ key ∈ keys, _))

theorem inherited?_eq_iff {key : String} :
    inherited? c p key = inherited? c q key ↔ (c.text? key = none → p.value? key = q.value? key) := by
  unfold inherited?
  cases c.text? key <;> simp

theorem identifying?_extract (c : Context) (p : Parameters) (keys : List String) (key : String) :
    (extract c p keys).identifying? key = if key ∈ keys then inherited? c p key else none := by
  unfold identifying?
  rw [get?_extract]
  split
  · cases inherited? c p key <;> rfl
  · rfl

/-- All that tells launched instances of one job apart is what the parameters of the two
    runs say of these keys. -/
theorem identifying_extract_eq_iff (c : Context) (p q : Parameters) (keys : List String) :
    (extract c p keys).identifying = (extract c q keys).identifying ↔ SameFor c keys p q := by
  rw [identifying_eq_iff (sorted_extract c p keys) (sorted_extract c q keys)]
  constructor
  · intro h key hkey
    have hsame := h key
    rw [identifying?_extract, identifying?_extract, if_pos hkey, if_pos hkey] at hsame
    exact inherited?_eq_iff.mp hsame
  · intro h key
    rw [identifying?_extract, identifying?_extract]
    split
    next hkey => exact inherited?_eq_iff.mpr (h key hkey)
    next => rfl

theorem extract_eq_iff (c : Context) (p q : Parameters) (keys : List String) :
    extract c p keys = extract c q keys ↔ SameFor c keys p q := by
  constructor
  · intro h
    rw [← identifying_extract_eq_iff, h]
  · intro h
    refine Dict.eq_of_get? (sorted_extract c p keys) (sorted_extract c q keys) fun key => ?_
    rw [get?_extract, get?_extract]
    split
    next hkey => rw [inherited?_eq_iff.mpr (h key hkey)]
    next => rfl

end Parameters

/-! ## Two runs of one instance -/

namespace Runner

open Parameters (extract SameFor)

/-- An attempt of a job with these parameters comes to a node, on its own flow or on a
    branch. -/
structure ComesTo (r : Runner σ) (inner : Run σ) (depth : Nat) (d : Definition) (p : Parameters) (t : Tour σ)
    (s : Executor.Stage σ) : Prop where
  opened : ∃ w o, opened? d p w = some o ∧ (r.tourOf inner depth d o).Makes t
  visited : s ∈ t.visits

variable {r : Runner σ} {inner : Run σ} {depth : Nat} {d : Definition} {p q : Parameters} {t t' : Tour σ}
  {s s' : Executor.Stage σ}

/-- What the executor of the attempt is told of it. -/
theorem ComesTo.executor (h : r.ComesTo inner depth d p t s) :
    t.ex.config = r.config ∧ t.ex.launch = some (launch inner) ∧
      t.ex.scope.instanceId = InstanceId.derive d.name p ∧ t.ex.scope.parameters = p ∧ t.ex.scope.depth = depth := by
  obtain ⟨w, o, ho, hmakes⟩ := h.opened
  obtain ⟨latest, point, fresh, now, -, -, -, hrecord⟩ := start_of_opened ho
  rw [hmakes.ex_eq]
  exact ⟨rfl, rfl, congrArg Record.instanceId hrecord, congrArg Record.parameters hrecord, rfl⟩

/-- Two attempts at one depth whose nodes launch with the same parameters launch alike. -/
theorem ComesTo.launches (h : r.ComesTo inner depth d p t s) (h' : r.ComesTo inner depth d q t' s')
    (hnode : s'.node = s.node)
    (hchild : ∀ job keys, s.node.kind = .subJob job keys →
      extract s'.pos.progress.context q keys = extract s.pos.progress.context p keys)
    {run : Run σ} {depth' : Nat} {job' : String} {child : Parameters}
    (hlaunches : Executor.Launches t.ex s.node s.pos.progress run depth' job' child) :
    Executor.Launches t'.ex s'.node s'.pos.progress run depth' job' child := by
  obtain ⟨hconfig, hlaunch, -, hparameters, hdepth⟩ := h.executor
  obtain ⟨hconfig', hlaunch', -, hparameters', hdepth'⟩ := h'.executor
  obtain ⟨hkind, hrun, hroom⟩ := hlaunches
  have hroom' : Executor.deeper t'.ex.scope.depth ≤ t'.ex.config.maxSubJobDepth := by
    rwa [hdepth', hconfig', ← hdepth, ← hconfig]
  rw [hdepth, ← hdepth', hparameters, ← hchild _ _ hkind, ← hparameters']
  exact .mk (hnode ▸ hkind) (hlaunch'.trans (hlaunch.symm.trans hrun)) hroom'

/-- Two runs of one instance, with parameters of which the options may differ, that come to
    a launching node with one context. What it launches is the same instance exactly if
    the declared keys that the context does not have are given the same values; the
    bytes for which an instance's identifier stands tell. Then both launch alike, and if
    the instance's latest attempt failed or stopped, the second run does not begin
    another one, but goes on with it: the next attempt, at the node where that one says,
    with the context that it left. -/
theorem relaunches_same (r : Runner σ) (levels depth : Nat) (d : Definition) {p q : Parameters}
    (hsame : p.identifying = q.identifying) :
    InstanceId.derive d.name p = InstanceId.derive d.name q ∧
      ∀ (t t' : Tour σ) s s', r.ComesTo (r.run (levels + 1)) depth d p t s →
        r.ComesTo (r.run (levels + 1)) depth d q t' s' → s'.node = s.node →
        s'.pos.progress.context = s.pos.progress.context →
        ∀ job keys, s.node.kind = .subJob job keys → ∀ child child',
          child = extract s.pos.progress.context p keys → child' = extract s'.pos.progress.context q keys →
          (child' = child ↔ SameFor s.pos.progress.context keys p q) ∧
          (∀ name, InstanceId.Writable name child → InstanceId.Writable name child' →
            (InstanceId.encoding name child' = InstanceId.encoding name child ↔
              SameFor s.pos.progress.context keys p q)) ∧
          (SameFor s.pos.progress.context keys p q →
            (∀ run depth' job' launched,
              Executor.Launches t.ex s.node s.pos.progress run depth' job' launched ↔
                Executor.Launches t'.ex s'.node s'.pos.progress run depth' job' launched) ∧
            ∀ e a latest, s'.entered.jobs.get? job = some e → e.graph.Valid →
              Resumable e child a latest s'.entered →
              ∃ o node, opened? e child' s'.entered = some o ∧
                o.record.instanceId = InstanceId.derive e.name child ∧
                o.record.attempt = a.record.attempt + 1 ∧ o.record.context = latest.context ∧
                a.record.restartNode = some node ∧ e.graph.contains node = true ∧
                (1 ≤ r.config.maxNodeVisits →
                  (r.visits (r.run levels) (Executor.deeper depth) e o).head?.map (·.node.id) = some node) ∧
                ((r.run (levels + 1) (Executor.deeper depth) job child').run s'.entered).1 =
                  reported (((r.executorOf (r.run levels) (Executor.deeper depth) o).execute e.graph o.start
                    o.record).run o.world).1) := by
  refine ⟨InstanceId.derive_eq_of_identifying hsame, ?_⟩
  intro t t' s s' h h' hnode hcontext job keys hkind child child' hchild hchild'
  rw [hcontext] at hchild'
  have hiff : child' = child ↔ SameFor s.pos.progress.context keys p q := by
    rw [hchild, hchild', eq_comm]
    exact Parameters.extract_eq_iff _ p q keys
  refine ⟨hiff, fun name hw hw' => ?_, fun hgiven => ⟨fun run depth' job' launched => ?_, ?_⟩⟩
  · constructor
    · intro heq
      rw [← Parameters.identifying_extract_eq_iff, ← hchild, ← hchild']
      exact InstanceId.identifying_eq_of_encoding hw hw' heq.symm
    · intro hgiven
      rw [hiff.mpr hgiven]
  · have hextract : ∀ job' keys', s.node.kind = .subJob job' keys' →
        extract s'.pos.progress.context q keys' = extract s.pos.progress.context p keys' := by
      intro job' keys' hkind'
      cases hkind.symm.trans hkind'
      rw [hcontext, ← hchild, ← hchild']
      exact hiff.mpr hgiven
    constructor
    · exact h.launches h' hnode hextract
    · refine h'.launches h hnode.symm fun job' keys' hkind' => ?_
      rw [hnode] at hkind'
      exact (hextract job' keys' hkind').symm
  · intro e a latest he hvalid hresumable
    obtain ⟨o, node, ho, hattempt, hlatest, hrestart, hcontains, hstart⟩ := hresumable.exists_opened hvalid
    obtain ⟨_, _, fresh, now, -, -, -, hrecord⟩ := start_of_opened ho
    rw [← hiff.mpr hgiven] at ho
    obtain ⟨w', hrun, -⟩ := r.run_of_opened (r.run levels) (Executor.deeper depth) he ho
    refine ⟨o, node, ho, congrArg Record.instanceId hrecord, hattempt, hlatest, hrestart, hcontains, fun hroom => ?_,
      congrArg Prod.fst hrun⟩
    rw [← hstart] at hcontains ⊢
    exact r.head_visits (r.run levels) (Executor.deeper depth) o hcontains hroom

end Runner

/-! ## The first visit of a run -/

/-- The first visit is to the node where the attempt begins. The run comes through its
    start, with the jobs as they were. -/
theorem Task.first_visit {k : Task σ} {w : World σ} (hjob : w.jobs.get? k.job = some k.definition)
    {s : Executor.Stage σ} {rest : List (Executor.Stage σ)} (h : k.visits w = s :: rest) :
    ∃ o, k.opened? w = some o ∧ k.runner.ComesTo k.inner 0 k.definition k.parameters
        (k.runner.tourOf k.inner 0 k.definition o) s ∧
      k.definition.graph.node? o.start.node = some s.node ∧
      (k.runner.request (.run k.job k.parameters)).Passes w s.entered ∧ s.entered.jobs = w.jobs := by
  cases ho : k.opened? w with
  | none =>
    rw [visits, ho] at h
    cases h
  | some o =>
    rw [visits_eq ho] at h
    have hvisited : s ∈ k.runner.visits k.inner 0 k.definition o := h ▸ List.mem_cons_self
    obtain ⟨-, -, -, hnode, started, henter, -⟩ := Executor.trail_eq_cons h
    refine ⟨o, rfl, ⟨⟨w, o, ho, .self⟩, hvisited⟩, hnode, ?_, ?_⟩
    · have hpasses := k.runner.passes_of_opened k.inner 0 hjob ho
        (.bind_right (Prod.ext rfl rfl) (Executor.passes_entered h))
      exact .bind_left hpasses _
    · have hopened := Runner.stays_of_opened (I := fun jobs _ => jobs = w.jobs) ho rfl
      have hpending := hopened.run (H := Halt.Never) (Executor.ends_setPhase (some o.record) .pending none)
        (by rfl : ((k.executor o).setPhase (some o.record) .pending none).run o.world = _)
      exact (hpending.run (H := Halt.Never) (Executor.ends_enter _ _ _) henter).1

/-! ### A depot whose crates are packed again -/

namespace Depot

def units : Units Nat :=
  { step := fun _ => some fun b calls =>
      .finish (calls + 1) (.result
        (if b.attempt = 1 then { status := .failed, exit := Exit.failed }
         else { status := .completed, exit := Exit.completed }))
    decider := fun _ => none }

def runner : Runner Nat := { config := {}, units }

def crate : Definition := { graph := ⟨"crate", "fill", [⟨"fill", .step "fill", []⟩]⟩ }

def parcel : Definition := { graph := ⟨"parcel", "pack", [⟨"pack", .subJob "crate" ["region"], []⟩]⟩ }

def task (p : Parameters) : Task Nat := { runner, job := "parcel", definition := parcel, parameters := p }

def first : World Nat :=
  { repository := { store := .table Table.empty }
    jobs := (Dict.empty.insert "parcel" parcel).insert "crate" crate
    bus := Bus.ofCapacity 4
    clock := { origin := Instant.ofSeconds 0 0 }
    memory := 0 }

def second (p : Parameters) : World Nat :=
  { first with
    repository := { store := ((task p).after first).repository.store }
    clock := { origin := Instant.ofSeconds 0 0, issued := ((task p).after first).clock.issued } }

def attempts (w : World Nat) (id : InstanceId) : List (Int × Option String) :=
  (w.repository.store.page id).map fun l => (l.attempt, l.final)

def reached (p : Parameters) (w : World Nat) : List (String × Nat) :=
  ((task p).visits w).map fun s => (s.node.id, s.pos.progress.context.size)

def crateTo (region : String) : InstanceId := InstanceId.derive "crate" (Parameters.identify Dict.empty "region" region)

/-- An option is part of the launched instance: with another one the crate that failed is
    left as it is, and one is begun afresh. -/
theorem crate_begun_afresh :
    let eu := Parameters.option Dict.empty "region" "eu"
    let us := Parameters.option Dict.empty "region" "us"
    let last := (task us).after (second eu)
    eu.identifying = us.identifying ∧ (task eu).id = (task us).id ∧
      reached eu first = [("pack", 0)] ∧ reached us (second eu) = [("pack", 0)] ∧
      attempts last (task us).id = [(1, some "FAILED"), (2, some "FAILED")] ∧
      attempts last (crateTo "eu") = [(1, some "FAILED")] ∧ attempts last (crateTo "us") = [(1, some "FAILED")] := by
  decide +kernel

/-! ### A crate that is taken up again -/

def noted (note : String) : Parameters := (Parameters.identify Dict.empty "region" "eu").option "note" note

def crate? (w : World Nat) : Option (Attempt Nat) :=
  (Runner.opened? crate (Parameters.identify Dict.empty "region" "eu") w).bind fun o =>
    (runner.sealed? (runner.run 99998) 1 crate o).map fun record =>
      { runner, inner := runner.run 99998, depth := 1, before := w, opened := o, record }

def resumable (a : Attempt Nat) (w : World Nat) : Bool :=
  (match w.repository.store with
    | .table t => decide ((t.ofInstance (crateTo "eu")).getLast? = some (Row.ofRecord a.record))
    | .shelf _ => false) &&
  decide (w.clock.issued < ExecutionId.room) && !w.running.contains (crateTo "eu").text &&
  (w.repository.faults .loadLatest (w.repository.counts.next .loadLatest).1).isNone &&
  (w.repository.faults .append (w.repository.counts.next .append).1).isNone

def readable (a : Attempt Nat) : Bool :=
  match (Row.ofRecord a.record).toRecord with
  | .ok _ => true
  | .error _ => false

def findings : List (Executor.Stage Nat) → List (Executor.Stage Nat) →
    Option (Option Status × Nat × Option String × Bool × Bool)
  | [s], [s'] => (crate? s.entered).map fun a =>
      (a.record.finalStatus, a.record.attempt, a.record.restartNode, resumable a s'.entered, readable a)
  | _, _ => none

theorem crate_fails :
    findings ((task (noted "1")).visits first) ((task (noted "2")).visits (second (noted "1"))) =
        some (some .failed, 1, some "fill", true, true) ∧
      reached (noted "1") first = [("pack", 0)] ∧ reached (noted "2") (second (noted "1")) = [("pack", 0)] ∧
      ((task (noted "1")).after first).clock.originMillis = 0 := by
  decide +kernel

theorem findings_eq_some {made made' : List (Executor.Stage Nat)} {status : Option Status} {attempt : Nat}
    {restart : Option String} (h : findings made made' = some (status, attempt, restart, true, true)) :
    ∃ s s' a, made = [s] ∧ made' = [s'] ∧ crate? s.entered = some a ∧ a.record.finalStatus = status ∧
      a.record.attempt = attempt ∧ a.record.restartNode = restart ∧ resumable a s'.entered = true ∧
      readable a = true := by
  unfold findings at h
  split at h
  next s s' =>
    obtain ⟨a, ha, hfound⟩ := Option.map_eq_some_iff.mp h
    simp only [Prod.mk.injEq] at hfound
    exact ⟨s, s', a, rfl, rfl, ha, hfound⟩
  next => cases h

theorem of_resumable {a : Attempt Nat} {w : World Nat} (h : resumable a w = true) (hread : readable a = true) :
    ∃ latest, w.repository.store.latest? (crateTo "eu") = .ok (some latest) ∧
      w.repository.store.readBack a.record = .ok latest ∧ w.clock.issued < ExecutionId.room ∧
      w.running.contains (crateTo "eu").text = false ∧ w.repository.Reaches .loadLatest ∧
      w.repository.Reaches .append := by
  simp only [resumable, Bool.and_eq_true, decide_eq_true_eq, Bool.not_eq_true', Option.isNone_iff_eq_none] at h
  obtain ⟨⟨⟨⟨hlast, hroom⟩, hfree⟩, hloads⟩, hopens⟩ := h
  cases hback : (Row.ofRecord a.record).toRecord with
  | error e =>
    rw [readable, hback] at hread
    cases hread
  | ok latest =>
    refine ⟨latest, ?_, ?_, hroom, hfree, hloads, hopens⟩
    · split at hlast
      next t ht =>
        rw [ht]
        simp only [Store.latest?, Table.latest?, of_decide_eq_true hlast, hback]
        rfl
      next => cases hlast
    · split at hlast
      next t ht =>
        rw [ht]
        exact hback
      next => cases hlast

theorem of_crate? {a : Attempt Nat} {w : World Nat} (h : crate? w = some a) :
    a.Of crate (Parameters.identify Dict.empty "region" "eu") ∧ a.before = w := by
  obtain ⟨o, ho, h⟩ := Option.bind_eq_some_iff.mp h
  obtain ⟨record, hrecord, rfl⟩ := Option.map_eq_some_iff.mp h
  exact ⟨⟨ho, hrecord⟩, rfl⟩

theorem valid_crate : crate.graph.Valid :=
  Nightly.valid_of_steps (by rfl : (⟨"crate", none, [⟨"fill", .step "fill", []⟩]⟩ : Graph.Declaration).build =
    .ok crate.graph) (by decide)

theorem node_of_reached {p : Parameters} {w : World Nat} {s : Executor.Stage Nat} (h : (task p).visits w = [s])
    (hreached : reached p w = [("pack", 0)]) {id : String} (hnode : parcel.graph.node? id = some s.node) :
    s.node = ⟨"pack", .subJob "crate" ["region"], []⟩ ∧ s.pos.progress.context = ⟨[]⟩ := by
  refine ⟨List.mem_singleton.mp (List.mem_of_find?_eq_some hnode), ?_⟩
  rw [reached, h] at hreached
  obtain ⟨-, hsize⟩ := Prod.mk.inj (List.cons.inj hreached).1
  generalize s.pos.progress.context = c at hsize
  obtain ⟨es⟩ := c
  exact congrArg Dict.mk (List.length_eq_zero_iff.mp hsize)

/-- A note changes nothing of the crate, which goes on where it failed. -/
theorem crate_goes_on : ∃ (s s' : Executor.Stage Nat) (a : Attempt Nat) (latest : Record) (o : Opened Nat),
    (noted "1").identifying = (noted "2").identifying ∧
      (task (noted "1")).visits first = [s] ∧ (task (noted "2")).visits (second (noted "1")) = [s'] ∧
      a.before = s.entered ∧
      Resumable crate (Parameters.extract s.pos.progress.context (noted "1") ["region"]) a latest s'.entered ∧
      Runner.opened? crate (Parameters.extract s'.pos.progress.context (noted "2") ["region"]) s'.entered = some o ∧
      o.record.instanceId = crateTo "eu" ∧ o.record.attempt = 2 ∧
      (runner.visits (runner.run 99998) 1 crate o).head?.map (·.node.id) = some "fill" := by
  obtain ⟨hfindings, hreached, hreached', hmillis⟩ := crate_fails
  obtain ⟨s, s', a, hvisits, hvisits', ha, hstatus, hattempt, hrestart, hresumable, hread⟩ := findings_eq_some hfindings
  obtain ⟨o₁, -, hcomes, hnode, -, -⟩ := Task.first_visit (k := task (noted "1")) rfl hvisits
  obtain ⟨o₂, -, hcomes', hnode', hpasses, hjobs⟩ := Task.first_visit (k := task (noted "2")) rfl hvisits'
  obtain ⟨hpack, hcontext⟩ := node_of_reached hvisits hreached hnode
  obtain ⟨hpack', hcontext'⟩ := node_of_reached hvisits' hreached' hnode'
  have hchild : Parameters.extract s.pos.progress.context (noted "1") ["region"] =
      Parameters.identify Dict.empty "region" "eu" := by
    rw [hcontext]
    rfl
  have hreached₂ : Reached s'.entered := by
    have hafter : Reached ((task (noted "1")).after first) :=
      Reached.after (.empty (Or.inr rfl)) (task (noted "1")).runner _
    have hsecond : Reached (second (noted "1")) := .reopened hafter rfl hmillis.symm (Nat.le_refl _)
    exact .during runner _ hsecond hpasses
  obtain ⟨hof, hbefore⟩ := of_crate? ha
  obtain ⟨latest, hfound, hkept, hroom, hfree, hloads, hopens⟩ := of_resumable hresumable hread
  have hready : Resumable crate (Parameters.extract s.pos.progress.context (noted "1") ["region"]) a latest
      s'.entered := by
    rw [hchild]
    exact ⟨rfl, ⟨_, hof⟩, hfound, hkept, Or.inl hstatus, by rw [hattempt]; decide, hreached₂, hroom, hfree, hloads,
      hopens⟩
  obtain ⟨-, hruns⟩ := Runner.relaunches_same runner 99998 0 parcel (p := noted "1") (q := noted "2") (by decide)
  obtain ⟨-, -, hrelaunch⟩ := hruns _ _ s s' hcomes hcomes' (hpack'.trans hpack.symm) (hcontext'.trans hcontext.symm)
    "crate" ["region"] (by rw [hpack]) _ _ rfl rfl
  obtain ⟨-, hgoes⟩ := hrelaunch (by rw [hcontext]; decide)
  obtain ⟨o, node, ho, hid, hnext, -, hat, -, hstart, -⟩ :=
    hgoes crate a latest (by rw [hjobs]; rfl) valid_crate hready
  obtain rfl : node = "fill" := Option.some.inj (hat.symm.trans hrestart)
  refine ⟨s, s', a, latest, o, by decide, hvisits, hvisits', hbefore, hready, ho, ?_, ?_, hstart (by decide)⟩
  · rw [hid, hchild]
    rfl
  · rw [hnext, hattempt]

end Depot

end Switchyard
