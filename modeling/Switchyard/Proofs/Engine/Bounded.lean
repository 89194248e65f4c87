import Switchyard.Proofs.Engine.Attempt
import Switchyard.Proofs.Engine.Ends
import Switchyard.Proofs.Engine.Routing

/-
  Switchyard.Proofs.Engine.Bounded — every run ends, and what the visit limit does.

  Three counters bound a run: a launch is one level deeper than the attempt that makes
  it, up to the depth limit; a branch is walked with the splits that are nested in it;
  and a traversal visits no more nodes than the visit limit leaves room for. Where calls
  of units return (`Runner.Returns`), a run of any jobs therefore ends (`ends_run`).

  `next?` is where routing leads after the visits made. A traversal is ended by the limit
  exactly if that is somewhere (`limited_of_traverse`): then the visits are as many as the
  limit, the node named is the one that was next, and an attempt begins again there.

  - `returns_of_plain`: units that neither hang nor ask for runs return, in whatever
    jobs and memory.
  - `bounded_execution`: all of this, of runs, of traversals and of the records sealed.
-/

namespace Switchyard

variable {σ α : Type}

/-! ## The visit limit -/

/-- The failure of a flow that ends by its rules is that no rule matched. -/
theorem Progress.failure_of_route_finish {p : Progress} {n : Node Graph} {v : Visit} {stopping : Bool}
    {o : FlowOutcome} (h : p.route n v stopping = .finish o) :
    o.failure = none ∨ o.failure = some (.unresolvedTransition n.id v.exit.code) := by
  simp only [route] at h
  split at h
  · cases h
    exact Or.inl rfl
  split at h
  · cases h
    obtain ⟨status, exit, hleaf⟩ := p.eq_of_leaf n.id
    rw [hleaf]
    exact Or.inl rfl
  split at h
  · cases h
    exact Or.inr rfl
  next t hchoose =>
    split at h
    · split at h
      · cases h
        exact Or.inl rfl
      · cases h
    · cases h
      obtain ⟨status, exit, restart, hruled, -⟩ := p.eq_of_ruled n (List.mem_of_find?_eq_some hchoose)
      rw [hruled]
      exact Or.inl rfl

namespace Executor

def Stage.onward? (t : Token) (s : Stage σ) : Option String :=
  match s.came with
  | .error _ => none
  | .ok v =>
    if v.failure.isSome then none
    else
      match (s.pos.folded s.node v).route s.node v (s.stopping t) with
      | .goto target => some target
      | .finish _ => none

/-- The node that comes next after the visits made, if one does. -/
def next? (t : Token) (start : String) (made : List (Stage σ)) : Option String :=
  match made.getLast? with
  | none => some start
  | some s => s.onward? t

theorem next?_cons {t : Token} {start target : String} {s : Stage σ} {rest : List (Stage σ)}
    (h : s.onward? t = some target) : next? t start (s :: rest) = next? t target rest := by
  unfold next?
  rw [List.getLast?_cons]
  cases rest.getLast? with
  | none => exact h
  | some last => rfl

variable {ex : Executor σ} {g : Graph} {room : Nat} {pos : Position} {made : List (Stage σ)}
  {r : Except Halt Walked} {w : World σ}

theorem onward?_of_failure {t : Token} {s : Stage σ} {v : Visit} {f : Failure} (hcame : s.came = .ok v)
    (hf : v.failure = some f) : s.onward? t = none := by
  simp only [Stage.onward?, hcame, hf, Option.isSome_some, if_true]

theorem onward?_of_route {t : Token} {s : Stage σ} {v : Visit} (hcame : s.came = .ok v) (hf : v.failure = none) :
    s.onward? t = match (s.pos.folded s.node v).route s.node v (s.stopping t) with
      | .goto target => some target
      | .finish _ => none := by
  simp only [Stage.onward?, hcame, hf, Option.isSome_none, Bool.false_eq_true, if_false]

theorem missing?_ne_visitLimit (units : Units σ) (node : Node Graph) (n : String) (k : Nat) :
    units.missing? node ≠ some (.visitLimitExceeded n k) := by
  unfold Units.missing?
  cases node.kind with
  | step name => dsimp only; split <;> nofun
  | decision name => dsimp only; split <;> nofun
  | split branches => nofun
  | subJob job keys => nofun

/-- A traversal that comes to an outcome ends at its last visit, or because there is no
    room for the next one. -/
theorem Course.ends_or_full (h : Course ex g room pos made r w) (hsound : ∀ s ∈ made, s.Sound ex.units)
    {t : Traversal} {kept : Option Record} (hr : r = .ok (.ok t, kept)) :
    (next? ex.scope.token pos.node made = none ∧ ∀ n k, t.outcome.failure ≠ some (.visitLimitExceeded n k)) ∨
    ∃ n, next? ex.scope.token pos.node made = some n ∧ made.length = room ∧
      t = ending (pos.progress.after (visitsOf made))
        ((pos.progress.after (visitsOf made)).engineFailure n (.visitLimitExceeded n ex.config.maxNodeVisits)) := by
  induction h with
  | unknown => cases hr
  | @full pos node w hn =>
    cases hr
    exact Or.inr ⟨node.id, congrArg some (Graph.id_of_node? hn).symm, rfl, rfl⟩
  | overflow => cases hr
  | broken => cases hr
  | @done room s v walked hn hcame hleft =>
    cases hr
    refine Or.inl ?_
    cases hleft with
    | failed f hf =>
      refine ⟨onward?_of_failure hcame hf, fun n k => ?_⟩
      show some f ≠ _
      rw [← hf, hsound s (List.mem_singleton_self s) v hcame]
      exact missing?_ne_visitLimit ex.units s.node n k
    | finished o hf hroute =>
      refine ⟨?_, fun n k => ?_⟩
      · show s.onward? _ = none
        rw [onward?_of_route hcame hf, Stage.stopping, hroute]
      · show o.failure ≠ _
        rcases Progress.failure_of_route_finish hroute with hnone | hunresolved
        · rw [hnone]
          nofun
        · rw [hunresolved]
          nofun
  | halted => cases hr
  | @onward room s v next rest r w hn hcame hleft hrest ih =>
    obtain ⟨hf, target, rfl, hroute⟩ := hleft.eq_onward
    have honward : s.onward? ex.scope.token = some target := by
      rw [onward?_of_route hcame hf, Stage.stopping, hroute]
    rw [next?_cons honward, visitsOf_cons hcame]
    rcases ih (fun s' hs' => hsound s' (List.mem_cons_of_mem _ hs')) hr with hends | ⟨n, hnext, hlength, ht⟩
    · exact Or.inl hends
    · exact Or.inr ⟨n, hnext, by rw [List.length_cons, hlength], ht⟩

/-- What a visit limit makes of a flow, by the visits made from a start. -/
structure Limited (limit : Nat) (t : Token) (start : String) (made : List (Stage σ)) (o : FlowOutcome) : Prop where
  /-- The limit ends the flow exactly if routing would start one more node, which it names. -/
  exceeded_iff : ∀ n k, o.failure = some (.visitLimitExceeded n k) ↔ k = limit ∧ next? t start made = some n
  full : ∀ n k, o.failure = some (.visitLimitExceeded n k) → made.length = limit
  restart : ∀ n k, o.failure = some (.visitLimitExceeded n k) → o.status = .failed ∧ o.restartNode = some n

theorem limited_of_traverse (ex : Executor σ) (walk : BranchWalk σ) (g : Graph) (start : FlowStart)
    (context : Context) (record : Option Record) (w : World σ) {t : Traversal} {kept : Option Record}
    (h : ((ex.traverse walk g start context record).run w).1 = .ok (.ok t, kept)) :
    Limited ex.config.maxNodeVisits ex.scope.token start.node (ex.stages walk g start context record w) t.outcome := by
  rcases (course_of_traverse ex walk g start context record w).ends_or_full sound_of_mem_stages h with
    ⟨hnext, hfailure⟩ | ⟨n, hnext, hlength, rfl⟩
  · refine ⟨fun n k => ⟨fun hf => absurd hf (hfailure n k), ?_⟩, fun n k hf => absurd hf (hfailure n k),
      fun n k hf => absurd hf (hfailure n k)⟩
    rintro ⟨-, hsome⟩
    rw [show next? ex.scope.token start.node _ = none from hnext] at hsome
    cases hsome
  · refine ⟨fun m k => ⟨?_, ?_⟩, fun m k _ => hlength, ?_⟩
    · rintro ⟨⟩
      exact ⟨rfl, hnext⟩
    · rintro ⟨rfl, hsome⟩
      rw [show next? ex.scope.token start.node _ = some n from hnext] at hsome
      cases hsome
      rfl
    · rintro m k ⟨⟩
      exact ⟨rfl, rfl⟩

/-- With a limit that visits can be counted beyond, a traversal that would visit one more node
    comes to its outcome, unless a record of its attempt could not be stored. -/
theorem outcome_of_next (hcount : ex.config.maxNodeVisits < Text.maxU32) {walk : BranchWalk σ} (hg : g.Valid)
    {start : FlowStart} (hstart : g.contains start.node = true) {context : Context} {record : Option Record} {n : String}
    (hnext : next? ex.scope.token start.node (ex.stages walk g start context record w) = some n) :
    (∃ t kept, ((ex.traverse walk g start context record).run w).1 = .ok (.ok t, kept)) ∨
      ∃ f, AppendFails (ex.traverse walk g start context record) w (OfAttempt record) f := by
  obtain ⟨hrun, hpasses⟩ := run_traverse ex walk g start context record w
  rcases hr : ((ex.traverse walk g start context record).run w).1 with h | ⟨e | t, kept⟩
  · rw [hrun] at hr
    rcases broken_of_loop (R := OfAttempt record) (fun _ p o hrec => hrec.noted p o) (all_ofAttempt start)
      (Prod.ext hr rfl) with ⟨s, hlast, hbroken⟩ | ⟨-, hfails⟩ | ⟨-, hgreatest, -⟩
    · rw [← stages] at hlast
      simp [next?, hlast, Stage.onward?, hbroken] at hnext
    · exact Or.inr ⟨_, hfails.mono hpasses⟩
    · exact absurd hcount (Nat.not_lt.mpr hgreatest)
  · obtain ⟨-, c, rfl⟩ := (course_of_traverse ex walk g start context record w).error_eq hr hstart
      fun id node hnode t ht target htarget => hg.contains_target hnode ht htarget
    exact Or.inr ⟨_, appendFails_of_traverse hr⟩
  · exact Or.inl ⟨t, kept, rfl⟩

end Executor

/-! ## Units that return -/

namespace Runner

/-- From so many levels of nested runs on, every call of a registered unit that is begun
    with jobs and memory in `I` comes to an end, and leaves them there. -/
structure Returns (r : Runner σ) (I : Dict Definition → σ → Prop) (levels₀ : Nat) : Prop where
  step : ∀ levels, levels₀ ≤ levels → ∀ record depth t name unit, r.units.step name = some unit → ∀ b,
    ((r.executor (r.run levels) record depth t).called unit b).Ends I Halt.Never
  decider : ∀ levels, levels₀ ≤ levels → ∀ record depth t name unit, r.units.decider name = some unit → ∀ b,
    ((r.executor (r.run levels) record depth t).called unit b).Ends I Halt.Never

end Runner

/-- Does a script neither hang nor ask for a run? -/
inductive Script.Plain : Script σ α → Prop
  | finish (m : σ) (e : Ending α) : Plain (.finish m e)
  | ask (m : σ) (q : Request) (resume : Reply → σ → Script σ α) : (∀ job parameters, q ≠ .run job parameters) →
      (∀ a m, Plain (resume a m)) → Plain (.ask m q resume)
  | wait (m : σ) (millis : Nat) (resume : σ → Script σ α) : (∀ m, Plain (resume m)) → Plain (.wait m millis resume)

def Anything (_ : Dict Definition) (_ : σ) : Prop := True

theorem ends_change_anything {f : World σ → World σ} (h : ∀ w, (f w).deadlines = w.deadlines) {H : Halt → Prop} :
    (Act.change f).Ends Anything H := fun w _ => ⟨trivial, h w, nofun⟩

namespace Runner

theorem ends_abandon (id : InstanceId) {I : Dict Definition → σ → Prop} : (abandon id : Act σ _).Ends I Halt.IsPanic := by
  refine (Act.Ends.find _).bind fun claimed => ?_
  cases claimed with
  | true => exact .pure _
  | false =>
    refine (Act.ends_call _).bind fun latest => ?_
    rcases latest with e | _ | latest
    · exact .pure _
    · exact .pure _
    · refine Act.ends_now.bind fun now => Act.ends_freshId.bind fun fresh => ?_
      cases abandoned id latest fresh now with
      | error e => exact ends_refuse e
      | ok r =>
        refine (Act.ends_append r).bind fun stored => ?_
        cases stored <;> exact .pure _

/-- Whatever is asked but a run is answered, or panics. -/
theorem ends_handle (r : Runner σ) (run : Run σ) {q : Request} (hq : ∀ job parameters, q ≠ .run job parameters) :
    (r.handle run q).Ends Anything Halt.IsPanic := by
  cases q with
  | run job parameters => exact absurd rfl (hq job parameters)
  | state id =>
    refine Act.Ends.bind ((Act.Ends.find _).bind fun live => ?_) fun _ => .pure _
    cases live with
    | some s => exact .pure _
    | none => exact (Act.ends_call _).bind fun latest => by cases latest <;> exact .pure _
  | stop id =>
    refine Act.Ends.bind ((Act.Ends.find _).bind fun token => ?_) fun _ => .pure _
    cases token with
    | none => exact .pure _
    | some t =>
      exact (Act.ends_cancel t).bind fun _ => (Act.Ends.change fun _ => ⟨rfl, rfl, rfl⟩).bind fun _ => .pure _
  | abandon id => exact (ends_abandon id).bind fun _ => .pure _
  | history id => exact Act.Ends.bind ((Act.ends_call _).bind fun _ => .pure _) fun _ => .pure _
  | recent limit => exact Act.Ends.bind ((Act.ends_call _).bind fun _ => .pure _) fun _ => .pure _
  | register d => exact Act.Ends.bind (ends_change_anything fun _ => rfl) fun _ => .pure _
  | jobs => exact (Act.Ends.find _).bind fun _ => .pure _
  | job name => exact (Act.Ends.find _).bind fun _ => .pure _
  | instanceId job parameters => exact .pure _
  | config => exact .pure _
  | cancel => exact .pure _

theorem ends_plain (r : Runner σ) (run : Run σ) (record : Record) (depth : Nat) (t : Token) {s : Script σ α}
    (h : s.Plain) : ((r.executor run record depth t).perform s).Ends Anything Halt.IsPanic := by
  have hremember : ∀ m : σ, (Executor.remember m).Ends Anything Halt.IsPanic := fun m => ends_change_anything fun _ => rfl
  induction h with
  | finish m e =>
    refine (hremember m).bind fun _ => ?_
    cases e with
    | result a => exact .pure _
    | error chain => exact .pure _
    | panic p => exact .broken ⟨p, rfl⟩
  | ask m q resume hq _ ih =>
    have hreply : ((r.executor run record depth t).reply q).Ends Anything Halt.IsPanic := by
      cases q with
      | cancel => exact (Act.ends_cancel _).bind fun _ => .pure _
      | _ => exact ends_handle r run hq
    exact (hremember m).bind fun _ => hreply.bind fun answer => (Act.Ends.find _).bind fun m => ih answer m
  | wait m millis resume _ ih =>
    exact (hremember m).bind fun _ => (Act.ends_wait millis).bind fun _ => (Act.Ends.find _).bind fun m => ih m

/-- Units that neither hang nor ask for runs return. -/
theorem returns_of_plain {r : Runner σ} (hstep : ∀ name unit, r.units.step name = some unit → ∀ b m, (unit b m).Plain)
    (hdecider : ∀ name unit, r.units.decider name = some unit → ∀ b m, (unit b m).Plain) : r.Returns Anything 0 := by
  have hcalled : ∀ {α : Type} (levels : Nat) record depth t (unit : Briefing → σ → Script σ α) b,
      (∀ m, (unit b m).Plain) →
      ((r.executor (r.run levels) record depth t).called unit b).Ends Anything Halt.Never := by
    intro α levels record depth t unit b hplain
    refine (Act.Ends.find _).bind fun m => ?_
    have hperform := ends_plain r (r.run levels) record depth t (hplain m)
    refine (Executor.ends_catchPanic (hperform.within _)).bind fun came => ?_
    rcases came with p | _ | chain | a <;> exact .pure _
  constructor
  · intro levels _ record depth t name unit hunit b
    exact hcalled levels record depth t unit b (hstep name unit hunit b)
  · intro levels _ record depth t name unit hunit b
    exact hcalled levels record depth t unit b (hdecider name unit hunit b)

/-! ## Every run ends -/

variable {r : Runner σ} {I : Dict Definition → σ → Prop} {levels₀ levels depth : Nat}

/-- The calls and launches of an attempt end if there is room for the runs nested in it. -/
theorem prompt_of_returns (hunits : r.Returns I levels₀) (hlevels : levels₀ ≤ levels) {record : Record} {t : Token}
    (hlaunch : Executor.deeper depth ≤ r.config.maxSubJobDepth → ∀ job parameters,
      (r.run levels (Executor.deeper depth) job parameters).Ends I Halt.IsPanic) :
    (r.executor (r.run levels) record depth t).Prompt I := by
  refine ⟨fun name unit hunit b => hunits.step levels hlevels record depth t name unit hunit b,
    fun name unit hunit b => hunits.decider levels hlevels record depth t name unit hunit b, ?_⟩
  rintro l ⟨⟩ hdeep job parameters
  refine (hlaunch hdeep job parameters).bind fun report => ?_
  cases report <;> exact .pure _

/-- A run with room for what its units need and one level for each launch that the limit
    leaves. -/
theorem ends_run (hlimit : r.config.maxSubJobDepth < Text.maxU8) (hunits : r.Returns I levels₀)
    (hlevels : levels₀ + (r.config.maxSubJobDepth - depth) < levels) (job : String) (parameters : Parameters) :
    (r.run levels depth job parameters).Ends I Halt.IsPanic := by
  induction levels generalizing depth job parameters with
  | zero => omega
  | succ levels ih =>
    refine ends_runOver (fun record t => prompt_of_returns hunits (by omega) fun hdeep => ?_) job parameters
    have hdepth : Executor.deeper depth = depth + 1 := by
      unfold Executor.deeper at hdeep ⊢
      omega
    rw [hdepth] at hdeep ⊢
    exact ih (by omega)

/-- For units whose calls return: every run ends, though it may panic; every traversal,
    of a job's graph or of a branch, visits at most as many nodes as the limit, and is
    ended by the limit exactly if one more would come, which does not keep it from its
    outcome if visits can be counted beyond the limit; and the record of an attempt that was
    ended so begins again at that node. -/
theorem bounded_execution (r : Runner σ) (hlimit : r.config.maxSubJobDepth < Text.maxU8)
    (hunits : r.Returns I levels₀) :
    (∀ levels depth, levels₀ + (r.config.maxSubJobDepth - depth) < levels → ∀ job parameters w,
      I w.jobs w.memory → w.deadlines = [] → ∀ h, ((r.run levels depth job parameters).run w).1 = .error h →
        h.IsPanic) ∧
    (∀ (ex : Executor σ), ex.config = r.config → ∀ walk g start context record w,
      (ex.stages walk g start context record w).length ≤ r.config.maxNodeVisits ∧
      ∀ t kept, ((ex.traverse walk g start context record).run w).1 = .ok (.ok t, kept) →
        Executor.Limited r.config.maxNodeVisits ex.scope.token start.node
          (ex.stages walk g start context record w) t.outcome) ∧
    (r.config.maxNodeVisits < Text.maxU32 → ∀ (ex : Executor σ), ex.config = r.config → ∀ walk (g : Graph), g.Valid →
      ∀ start, g.contains start.node = true → ∀ context record w n,
      Executor.next? ex.scope.token start.node (ex.stages walk g start context record w) = some n →
        (∃ t kept, ((ex.traverse walk g start context record).run w).1 = .ok (.ok t, kept)) ∨
          ∃ f, Executor.AppendFails (ex.traverse walk g start context record) w (Executor.OfAttempt record) f) ∧
    ∀ inner depth d parameters w o rec, opened? d parameters w = some o → r.sealed? inner depth d o = some rec →
      ∀ n k, rec.failure = some (.visitLimitExceeded n k) ↔
        k = r.config.maxNodeVisits ∧ Executor.next? o.token o.start.node (r.visits inner depth d o) = some n ∧
          (r.visits inner depth d o).length = r.config.maxNodeVisits ∧ rec.finalStatus = some .failed ∧
          rec.restartNode = some n := by
  refine ⟨?_, ?_, ?_, ?_⟩
  · intro levels depth hlevels job parameters w hw hguards h hh
    obtain ⟨-, -, hunder⟩ := ends_run hlimit hunits hlevels job parameters w hw
    rcases hunder h hh with hpanic | ⟨g, hg, -⟩
    · exact hpanic
    · rw [hguards] at hg
      cases hg
  · intro ex hconfig walk g start context record w
    rw [← hconfig]
    exact ⟨(Executor.course_of_traverse ex walk g start context record w).length_le,
      fun t kept h => Executor.limited_of_traverse ex walk g start context record w h⟩
  · intro hcount ex hconfig walk g hg start hstart context record w n hnext
    exact Executor.outcome_of_next (hconfig ▸ hcount) hg hstart hnext
  · intro inner depth d parameters w o rec ho hsealed n k
    obtain ⟨t, kept, w₁, now, htraverse, rfl⟩ := closed_of_sealed ho hsealed
    have hlimited := Executor.limited_of_traverse (r.executorOf inner depth o) _ d.graph o.start o.record.context
      (some o.record) o.world (congrArg Prod.fst htraverse)
    constructor
    · intro hf
      obtain ⟨hk, hnext⟩ := (hlimited.exceeded_iff n k).mp hf
      obtain ⟨hstatus, hrestart⟩ := hlimited.restart n k hf
      exact ⟨hk, hnext, hlimited.full n k hf, congrArg some hstatus, hrestart⟩
    · rintro ⟨hk, hnext, -⟩
      exact (hlimited.exceeded_iff n k).mpr ⟨hk, hnext⟩

end Runner

/-! ### Jobs that go round and launch themselves -/

namespace Spin

def job : Definition :=
  { graph :=
      ⟨"spin", "turn",
        [⟨"turn", .step "turn", [.goto "*" "again"]⟩, ⟨"again", .subJob "spin" ["round"], [.goto "*" "turn"]⟩]⟩ }

def runner : Runner Nat :=
  { config := { maxNodeVisits := 3, maxSubJobDepth := 1 }
    units :=
      { step := fun _ => some fun _ turns =>
          .finish (turns + 1) (.result
            { status := .completed, exit := Exit.completed
              updates := Dict.empty.insert "round" (.str (toString turns)) })
        decider := fun _ => none } }

def world : World Nat :=
  { repository := { store := .table Table.empty }
    jobs := Dict.empty.insert "spin" job
    bus := Bus.ofCapacity 4
    clock := { origin := Instant.ofSeconds 0 0 }
    memory := 0 }

theorem returns : runner.Returns Anything 0 := by
  refine Runner.returns_of_plain ?_ nofun
  rintro name unit ⟨⟩ b m
  exact .finish _ _

/-- The run that was asked for turns, launches itself and turns again; then the limit ends
    it, and it begins again where it would have launched once more. -/
theorem spin_is_bounded :
    (∀ h, ((runner.run 2 0 "spin" Dict.empty).run world).1 = .error h → h.IsPanic) ∧
      ∃ o rec, Runner.opened? job Dict.empty world = some o ∧ runner.sealed? (runner.run 1) 0 job o = some rec ∧
        (runner.visits (runner.run 1) 0 job o).length = 3 ∧ rec.failure = some (.visitLimitExceeded "again" 3) ∧
          rec.restartNode = some "again" := by
  have hbounded := Runner.bounded_execution runner (by decide) returns
  have hsealed : ((Runner.opened? job Dict.empty world).bind fun o =>
      (runner.sealed? (runner.run 1) 0 job o).map (·.failure)) = some (some (.visitLimitExceeded "again" 3)) := by
    decide +kernel
  obtain ⟨o, ho, hrec⟩ := Option.bind_eq_some_iff.mp hsealed
  obtain ⟨rec, hrec, hfailure⟩ := Option.map_eq_some_iff.mp hrec
  refine ⟨hbounded.1 2 0 (by decide) "spin" Dict.empty world trivial rfl, o, rec, ho, hrec, ?_⟩
  obtain ⟨-, -, hlength, -, hrestart⟩ := (hbounded.2.2.2 _ 0 job Dict.empty world o rec ho hrec "again" 3).mp hfailure
  exact ⟨hlength, hfailure, hrestart⟩

end Spin

end Switchyard
