import Switchyard.Flow.Progress

/-
  Switchyard.Proofs.Flow.Visits — a traversal's progress, told from its visits.

  A progress is what the visits before it folded in: `Progress.after_eq` reads every
  part of it off the list of visits. `Progress.eq_of_route_goto` says when a flow goes on,
  and `Progress.route_under_stop` what a request to stop changes about that.
-/

namespace Switchyard

abbrev Visits := List (String × Visit)

namespace Visits

def completed (vs : Visits) : List String := (vs.filter fun x => x.2.status ≠ .failed).map (·.1)

def written (vs : Visits) (c : Context) : Context := vs.foldl (fun c x => c.merge x.2.updates) c

def last? (vs : Visits) : Option NodeOutcome := vs.getLast?.map fun x => ⟨x.1, x.2.status, x.2.exit⟩

/-- The branches of every split visited; of two visits to one split the later. -/
def splits (vs : Visits) (d : Dict (List FlowOutcome)) : Dict (List FlowOutcome) :=
  vs.foldl (fun d x => (x.2.branches.map (d.insert x.1)).getD d) d

def branchesOf (vs : Visits) (id : String) : Option (List FlowOutcome) :=
  (vs.filterMap fun x => if x.1 = id then x.2.branches else none).getLast?

@[simp] theorem completed_nil : completed [] = [] := rfl

theorem completed_append (vs ws : Visits) : completed (vs ++ ws) = completed vs ++ completed ws := by
  simp [completed]

theorem last?_cons (x : String × Visit) (vs : Visits) :
    last? (x :: vs) = (last? vs).or (some ⟨x.1, x.2.status, x.2.exit⟩) := by
  cases vs with
  | nil => rfl
  | cons y rest => simp [last?, List.getLast?_cons]

theorem branchesOf_of_getLast? {vs : Visits} {id : String} {v : Visit} {outcomes : List FlowOutcome}
    (h : vs.getLast? = some (id, v)) (hv : v.branches = some outcomes) : vs.branchesOf id = some outcomes := by
  obtain ⟨before, rfl⟩ := List.getLast?_eq_some_iff.mp h
  simp [branchesOf, hv]

theorem branchesOf_concat_of_ne (vs : Visits) {id split : String} (h : id ≠ split) (v : Visit) :
    branchesOf (vs ++ [(id, v)]) split = vs.branchesOf split := by
  simp [branchesOf, h]

theorem get?_splits (vs : Visits) (d : Dict (List FlowOutcome)) (id : String) :
    (vs.splits d).get? id = (vs.branchesOf id).or (d.get? id) := by
  induction vs generalizing d with
  | nil => rfl
  | cons x rest ih =>
    have hcons : splits (x :: rest) d = splits rest ((x.2.branches.map (d.insert x.1)).getD d) := rfl
    rw [hcons, ih]
    cases hb : x.2.branches with
    | none => simp [branchesOf, hb]
    | some branches =>
      by_cases hid : x.1 = id
      · subst hid
        simp only [branchesOf, List.filterMap_cons, hb, if_true, Option.map_some, Option.getD_some,
          Dict.get?_insert_self, List.getLast?_cons]
        cases (rest.filterMap fun y => if y.1 = x.1 then y.2.branches else none).getLast? <;> rfl
      · simp [branchesOf, hid, Dict.get?_insert_of_ne _ (Ne.symm hid)]

end Visits

namespace Progress

def after (p : Progress) (vs : Visits) : Progress := vs.foldl (fun p x => p.apply x.1 x.2) p

@[simp] theorem after_nil (p : Progress) : p.after [] = p := rfl

@[simp] theorem after_cons (p : Progress) (x : String × Visit) (vs : Visits) :
    p.after (x :: vs) = (p.apply x.1 x.2).after vs := rfl

theorem after_eq (p : Progress) (vs : Visits) :
    p.after vs =
      { flow := p.flow
        context := vs.written p.context
        updates := vs.written p.updates
        completed := p.completed ++ vs.completed
        last := vs.last?.or p.last
        splits := vs.splits p.splits } := by
  induction vs generalizing p with
  | nil => simp [Visits.written, Visits.last?, Visits.splits]
  | cons x rest ih =>
    rw [after_cons, ih, Visits.last?_cons, Option.or_assoc]
    have hcompleted : (p.apply x.1 x.2).completed ++ Visits.completed rest
        = p.completed ++ Visits.completed (x :: rest) := by
      by_cases h : x.2.status = .failed <;> simp [apply, Visits.completed, h]
    rw [hcompleted]
    cases hb : x.2.branches <;> simp [apply, Visits.written, Visits.splits, hb]

theorem after_concat (p : Progress) (vs : Visits) (id : String) (v : Visit) :
    p.after (vs ++ [(id, v)]) = (p.after vs).apply id v := List.foldl_append

end Progress

/-! ## Where a visit leads -/

def Visit.Stopped (v : Visit) : Prop := v.status = .stopped ∨ ∃ o ∈ v.branches.getD [], o.status = .stopped

theorem Visit.stopped_iff (v : Visit) : (v.status = .stopped || v.anyBranchStopped) = true ↔ v.Stopped := by
  simp [Visit.Stopped, Visit.anyBranchStopped]

namespace Progress

theorem eq_of_leaf (p : Progress) (id : String) : ∃ status exit, p.leaf id = p.finish status exit (some id) none := by
  simp only [leaf]
  split
  · exact ⟨_, _, rfl⟩
  · split
    · exact ⟨_, _, rfl⟩
    · split <;> exact ⟨_, _, rfl⟩

theorem eq_of_ruled (p : Progress) (n : Node Graph) {t : Transition} (ht : t ∈ n.transitions) :
    ∃ status exit restart, p.ruled n.id t = p.finish status exit (some restart) none ∧
      (restart = n.id ∨ ∃ t ∈ n.transitions, t.node? = some restart) := by
  simp only [ruled]
  cases haction : t.action with
  | goto target => exact ⟨_, _, _, rfl, Or.inr ⟨t, ht, by rw [Transition.node?, haction]⟩⟩
  | complete => exact ⟨_, _, _, rfl, Or.inl rfl⟩
  | fail => exact ⟨_, _, _, rfl, Or.inl rfl⟩
  | stop restart => exact ⟨_, _, _, rfl, Or.inr ⟨t, ht, by rw [Transition.node?, haction]⟩⟩

/-- However a flow ends at a node, its outcome is made of the progress at that node. It
    may begin again there, or at a node that one of its rules names, and a failure the
    engine reports is of the node it begins again at. -/
theorem eq_of_route_finish {p : Progress} {n : Node Graph} {v : Visit} {stopping : Bool} {o : FlowOutcome}
    (h : p.route n v stopping = .finish o) :
    ∃ status exit restart failure, o = p.finish status exit (some restart) failure ∧
      (restart = n.id ∨ ∃ t ∈ n.transitions, t.node? = some restart) ∧
      ∀ f, failure = some f → status = .failed ∧ exit.code = Exit.failed.code ∧ f.node = restart := by
  simp only [route] at h
  split at h
  · cases h
    exact ⟨_, _, _, _, rfl, Or.inl rfl, nofun⟩
  split at h
  · cases h
    obtain ⟨status, exit, hleaf⟩ := p.eq_of_leaf n.id
    exact ⟨status, exit, _, _, hleaf, Or.inl rfl, nofun⟩
  split at h
  · cases h
    refine ⟨_, _, _, _, rfl, Or.inl rfl, ?_⟩
    rintro f ⟨⟩
    exact ⟨rfl, rfl, rfl⟩
  next t hchoose =>
    have ht : t ∈ n.transitions := List.mem_of_find?_eq_some hchoose
    split at h
    next target haction =>
      split at h
      · cases h
        exact ⟨_, _, _, _, rfl, Or.inr ⟨t, ht, by rw [Transition.node?, haction]⟩, nofun⟩
      · cases h
    next =>
      cases h
      obtain ⟨status, exit, restart, hruled, hrestart⟩ := p.eq_of_ruled n ht
      exact ⟨status, exit, restart, _, hruled, hrestart, nofun⟩

theorem restart_of_finish {p : Progress} {status : Status} {exit : Exit} {restart : String} {failure : Option Failure}
    {m : String} (h : (p.finish status exit (some restart) failure).restartNode = some m) : restart = m := by
  simp only [finish] at h
  split at h
  · exact Option.some.inj h
  · cases h

/-- A flow that ends at a node begins again there, or at a node that one of its rules
    names. -/
theorem restart_of_route_finish {p : Progress} {n : Node Graph} {v : Visit} {stopping : Bool} {o : FlowOutcome}
    (h : p.route n v stopping = .finish o) {m : String} (hm : o.restartNode = some m) :
    m = n.id ∨ ∃ t ∈ n.transitions, t.node? = some m := by
  obtain ⟨status, exit, restart, failure, rfl, hrestart, -⟩ := eq_of_route_finish h
  rwa [← restart_of_finish hm]

/-- A flow goes on only by a rule of the node it is at, and only if no stop was asked for. -/
theorem eq_of_route_goto {p : Progress} {n : Node Graph} {v : Visit} {stopping : Bool} {target : String}
    (h : p.route n v stopping = .goto target) :
    stopping = false ∧ ∃ t, Transition.choose v.exit.code n.transitions = some t ∧ t.action = .goto target := by
  simp only [route] at h
  split at h
  · cases h
  split at h
  · cases h
  cases hchoose : Transition.choose v.exit.code n.transitions with
  | none => simp [hchoose] at h
  | some t =>
    simp only [hchoose] at h
    split at h
    next haction =>
      split at h
      · cases h
      next hstop =>
        cases h
        exact ⟨by simpa using hstop, t, rfl, haction⟩
    · cases h

/-- A stop ends the flow at a node that stopped, and in front of any other that it would lead
    to; where it leads nowhere the stop changes nothing. -/
theorem route_under_stop (p : Progress) (n : Node Graph) (v : Visit) :
    (v.Stopped → p.route n v true = .finish (p.stopRequested n.id)) ∧
      (¬v.Stopped → p.route n v true =
        match p.route n v false with
        | .finish o => .finish o
        | .goto target => .finish (p.stopRequested target)) := by
  constructor
  · intro hstopped
    simp only [route, Bool.true_and, v.stopped_iff.mpr hstopped, if_true]
  · intro hstopped
    have hno : (v.status = .stopped || v.anyBranchStopped) = false := by
      simpa using fun h => hstopped (v.stopped_iff.mp h)
    simp only [route, Bool.true_and, Bool.false_and, hno, Bool.false_eq_true, if_false]
    split
    · rfl
    · split
      · rfl
      · split <;> rfl

end Progress

end Switchyard
