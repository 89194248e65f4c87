import Switchyard.Proofs.Dict
import Switchyard.Proofs.Graph.Built
import Switchyard.Proofs.Graph.Reach

/-
  Switchyard.Proofs.Graph.WellFormed — the checks let through the well-formed graphs, and
  no other.

  `Declaration.WellFormed` says what a declared graph must be without saying how that is
  checked, `Declaration.Frozen` what becomes of it, and `Fault.Present` when a fault that
  is reported is there. A fault that is there is one that no well-formed graph has
  (`Fault.Present.not_wellFormed`), so it is enough that a graph let through is well
  formed and that a fault reported is there:

  - `Declaration.builds_exactly_wellFormed`: a graph is built if and only if it is well
    formed; if it is, it is the declared one, else the fault is there.
-/

namespace Switchyard.Graph

namespace Declaration

/-! ## What is declared -/

def ids (d : Declaration) : List String := d.nodes.map (·.id)

/-- The node the flow starts at, which is the first one unless another was named. -/
def start? (d : Declaration) : Option String := d.nodes.head?.map fun first => d.entry.getD first.id

def Leads (d : Declaration) (a b : String) : Prop :=
  ∃ n ∈ d.nodes, n.id = a ∧ ∃ t ∈ n.transitions, t.action = .goto b ∨ t.action = .stop b

def Path (d : Declaration) : String → String → Prop := Relation.ReflTransGen d.Leads

structure WellFormed (d : Declaration) : Prop where
  nodes : d.nodes ≠ []
  ids : d.ids.Nodup
  start : ∀ entry, d.start? = some entry → entry ∈ d.ids
  targets : ∀ a b, d.Leads a b → b ∈ d.ids
  patterns : ∀ n ∈ d.nodes, (∀ t ∈ n.transitions, t.pattern ≠ "") ∧ (n.transitions.map (·.pattern)).Nodup
  statuses : ∀ n ∈ d.nodes, ∀ t ∈ n.transitions, ∀ target, t.action = .goto target → t.status = none
  splits : ∀ n ∈ d.nodes, ∀ branches, n.kind = .split branches →
    branches ≠ [] ∧ (branches.map (·.name)).Nodup
  reached : ∀ entry, d.start? = some entry → ∀ id ∈ d.ids, d.Path entry id

/-- The graph is the declared one, each table most specific rule first. -/
structure Frozen (d : Declaration) (g : Graph) : Prop where
  name : g.name = d.name
  entry : d.start? = some g.entry
  nodes : List.Forall₂ (fun n m : Node Graph => m.id = n.id ∧ m.kind = n.kind ∧
    m.transitions.Perm n.transitions ∧
    m.transitions.Pairwise fun t u => Pattern.precedes t.pattern u.pattern = true) d.nodes g.nodes

end Declaration

def Fault.Present (d : Declaration) : Fault → Prop
  | .empty flow => flow = d.name ∧ d.nodes = []
  | .duplicateNode flow node => flow = d.name ∧ 2 ≤ d.ids.count node
  | .unknownEntry flow node => flow = d.name ∧ d.entry = some node ∧ node ∉ d.ids
  | .unknownTarget flow node target => flow = d.name ∧ d.Leads node target ∧ target ∉ d.ids
  | .emptyPattern flow node => flow = d.name ∧ ∃ n ∈ d.nodes, n.id = node ∧ ∃ t ∈ n.transitions, t.pattern = ""
  | .duplicatePattern flow node pattern =>
    flow = d.name ∧ ∃ n ∈ d.nodes, n.id = node ∧ 2 ≤ (n.transitions.map (·.pattern)).count pattern
  | .statusOnGoto flow node pattern =>
    flow = d.name ∧ ∃ n ∈ d.nodes, n.id = node ∧
      ∃ t ∈ n.transitions, t.pattern = pattern ∧ t.status ≠ none ∧ ∃ target, t.action = .goto target
  | .emptySplit flow node => flow = d.name ∧ ∃ n ∈ d.nodes, n.id = node ∧ n.kind = .split []
  | .duplicateBranch flow node branch =>
    flow = d.name ∧ ∃ n ∈ d.nodes, n.id = node ∧
      ∃ branches, n.kind = .split branches ∧ 2 ≤ (branches.map (·.name)).count branch
  | .unreachable flow node =>
    flow = d.name ∧ node ∈ d.ids ∧ ∃ entry, d.start? = some entry ∧ ¬ d.Path entry node

variable {d : Declaration} {flow node : String}

theorem node?_eq_some_iff {t : Transition} {target : String} :
    t.node? = some target ↔ t.action = .goto target ∨ t.action = .stop target := by
  unfold Transition.node?
  cases t.action <;> simp

theorem start?_eq {first : Node Graph} {rest : List (Node Graph)} (h : d.nodes = first :: rest) :
    d.start? = some (d.entry.getD first.id) := by
  simp [Declaration.start?, h]

theorem leads_iff {a b : String} :
    d.Leads a b ↔ ∃ n ∈ d.nodes, n.id = a ∧ ∃ t ∈ n.transitions, t.node? = some b := by
  simp only [Declaration.Leads, node?_eq_some_iff]

/-- What the sorted tables name is what was declared. -/
theorem names_tabled_iff (hd : d.ids.Nodup) {a b : String} : Names (d.nodes.map tabled) a b ↔ d.Leads a b := by
  rw [names_iff (by rw [map_id_tabled]; exact hd), leads_iff]
  constructor
  · rintro ⟨_, hmem, ha, t, ht, hb⟩
    obtain ⟨n, hn, rfl⟩ := List.mem_map.mp hmem
    exact ⟨n, hn, ha, t, Transition.mem_table.mp ht, hb⟩
  · rintro ⟨n, hn, ha, t, ht, hb⟩
    exact ⟨tabled n, List.mem_map_of_mem hn, ha, t, Transition.mem_table.mpr ht, hb⟩

/-- The search goes through the whole of a declared graph. -/
theorem mem_reachable_tabled_iff (hd : d.ids.Nodup) (htargets : ∀ a b, d.Leads a b → b ∈ d.ids) {entry id : String}
    (hentry : entry ∈ d.ids) : id ∈ reachable (d.nodes.map tabled) entry ↔ d.Path entry id := by
  have hnames : Names (d.nodes.map tabled) = d.Leads := by
    funext a b
    exact propext (names_tabled_iff hd)
  rw [mem_reachable_iff (by rw [hnames, map_id_tabled]; exact htargets) (by rw [map_id_tabled]; exact hentry), hnames]
  rfl

/-! ## A graph that was let through -/

theorem leads_of_targets (htargets : ∀ n ∈ d.nodes, ∀ t ∈ n.transitions, ∀ target, t.node? = some target →
    target ∈ d.ids) (a b : String) (h : d.Leads a b) : b ∈ d.ids := by
  obtain ⟨n, hn, -, t, ht, hb⟩ := leads_iff.mp h
  exact htargets n hn t ht b hb

theorem start?_of_build {g : Graph} (h : d.build = .ok g) : d.start? = some g.entry := by
  unfold Declaration.build at h
  split at h
  · cases h
  next first rest hnodes =>
    simp only [bind, Except.bind] at h
    repeat' split at h
    all_goals cases h
    exact start?_eq hnodes

theorem ne_nil_of_checkBranches {branches : List Graph} (h : checkBranches flow node (.split branches) = .ok ()) :
    branches ≠ [] := by
  rintro rfl
  cases h

theorem wellFormed_of_build {g : Graph} (h : d.build = .ok g) : d.WellFormed := by
  have hb := built h
  have hstart := start?_of_build h
  have htargets := leads_of_targets hb.targets
  have hrules := fun n hn => checkRules_eq_ok_iff.mp (hb.rules n hn)
  refine ⟨?_, hb.ids, ?_, htargets, fun n hn => ⟨fun t ht => ?_, (hrules n hn).2⟩, ?_, ?_, ?_⟩
  · intro hnil
    simp [Declaration.start?, hnil] at hstart
  · rintro entry hentry
    obtain rfl := Option.some.inj (hstart.symm.trans hentry)
    exact hb.entry
  · exact ((hrules n hn).1 t ht).1
  · intro n hn t ht target haction
    have hterminal := ((hrules n hn).1 t ht).2.2
    cases hstatus : t.status with
    | none => rfl
    | some s =>
      have := hterminal (by rw [hstatus]; rfl)
      rw [Transition.isTerminal, haction] at this
      cases this
  · intro n hn branches hsplit
    have hcheck := hb.branches n hn
    rw [hsplit] at hcheck
    exact ⟨ne_nil_of_checkBranches hcheck, nodup_of_checkBranches hcheck⟩
  · intro entry hentry id hid
    obtain rfl := Option.some.inj (hstart.symm.trans hentry)
    obtain ⟨n, hn, rfl⟩ := List.mem_map.mp hid
    refine (mem_reachable_tabled_iff hb.ids htargets hb.entry).mp ?_
    rw [← hb.nodes]
    exact hb.reached n hn

theorem frozen_of_build {g : Graph} (h : d.build = .ok g) : d.Frozen g := by
  have hb := built h
  refine ⟨hb.name, start?_of_build h, ?_⟩
  rw [hb.nodes, List.forall₂_map_right_iff, List.forall₂_same]
  exact fun n hn => ⟨rfl, rfl, Transition.table_perm _, Transition.table_pairwise (hb.distinct hn)⟩

/-! ## A fault that was reported -/

/-- What was met and comes up again occurs twice. -/
theorem two_le_count {seen rest : List String} {x : String} (h : x ∈ seen) : 2 ≤ (seen ++ x :: rest).count x := by
  have := List.count_pos_iff.mpr h
  rw [List.count_append, List.count_cons_self]
  omega

/-- What is looked at counts among what was met. -/
theorem count_met (seen rest : List String) (x y : String) :
    (y :: seen ++ rest).count x = (seen ++ y :: rest).count x :=
  List.perm_middle.symm.count_eq x

theorem count_of_firstRepeated {seen names : List String} {x : String} (h : firstRepeated seen names = some x) :
    2 ≤ (seen ++ names).count x := by
  induction names generalizing seen with
  | nil => cases h
  | cons y rest ih =>
    simp only [firstRepeated] at h
    split at h
    next hy =>
      cases h
      exact two_le_count hy
    next => exact count_met seen rest x y ▸ ih h

/-- What `checkRules` reports of a node's rules. -/
theorem checkRules_eq_error {seen : List String} {rules : List Transition} {f : Fault}
    (h : checkRules flow node seen rules = .error f) :
    (f = .emptyPattern flow node ∧ ∃ t ∈ rules, t.pattern = "") ∨
    (∃ p, f = .duplicatePattern flow node p ∧ 2 ≤ (seen ++ rules.map (·.pattern)).count p) ∨
    ∃ t ∈ rules, f = .statusOnGoto flow node t.pattern ∧ t.status.isSome = true ∧ t.isTerminal = false := by
  induction rules generalizing seen with
  | nil => cases h
  | cons t rest ih =>
    simp only [checkRules] at h
    split at h
    next hempty =>
      cases h
      exact Or.inl ⟨rfl, t, List.mem_cons_self, hempty⟩
    split at h
    next hseen =>
      cases h
      exact Or.inr (Or.inl ⟨_, rfl, two_le_count hseen⟩)
    split at h
    next hstatus =>
      cases h
      exact Or.inr (Or.inr ⟨t, List.mem_cons_self, rfl, hstatus⟩)
    next =>
      rcases ih h with ⟨rfl, u, hu, hempty⟩ | ⟨p, rfl, hp⟩ | ⟨u, hu, rfl, hstatus⟩
      · exact Or.inl ⟨rfl, u, List.mem_cons_of_mem _ hu, hempty⟩
      · exact Or.inr (Or.inl ⟨p, rfl, count_met _ _ _ _ ▸ hp⟩)
      · exact Or.inr (Or.inr ⟨u, List.mem_cons_of_mem _ hu, rfl, hstatus⟩)

/-- What `checkBranches` reports of a node that is a split. -/
theorem checkBranches_eq_error {kind : NodeKind Graph} {f : Fault} (h : checkBranches flow node kind = .error f) :
    (f = .emptySplit flow node ∧ kind = .split []) ∨
    ∃ branches b, f = .duplicateBranch flow node b ∧ kind = .split branches ∧
      2 ≤ (branches.map (·.name)).count b := by
  unfold checkBranches at h
  split at h
  · cases h
    exact Or.inl ⟨rfl, rfl⟩
  · split at h
    next b hb =>
      cases h
      exact Or.inr ⟨_, b, rfl, rfl, by simpa using count_of_firstRepeated hb⟩
    · cases h
  · cases h

/-- What `checkNodes` reports is what the checks of a node do, or that its id was met. -/
theorem checkNodes_eq_error {seen : List String} {ns : List (Node Graph)} {f : Fault}
    (h : checkNodes flow seen ns = .error f) :
    (∃ n ∈ ns, checkRules flow n.id [] n.transitions = .error f ∨ checkBranches flow n.id n.kind = .error f) ∨
    ∃ id, f = .duplicateNode flow id ∧ 2 ≤ (seen ++ ns.map (·.id)).count id := by
  induction ns generalizing seen with
  | nil => cases h
  | cons n rest ih =>
    simp only [checkNodes, bind, Except.bind] at h
    split at h
    next e hrules =>
      cases h
      exact Or.inl ⟨n, List.mem_cons_self, Or.inl hrules⟩
    split at h
    next e hbranches =>
      cases h
      exact Or.inl ⟨n, List.mem_cons_self, Or.inr hbranches⟩
    by_cases hseen : n.id ∈ seen
    · rw [if_pos hseen] at h
      cases h
      exact Or.inr ⟨n.id, rfl, two_le_count hseen⟩
    · rw [if_neg hseen] at h
      split at h
      next e hrest =>
        cases h
        rcases ih hrest with ⟨m, hm, hcheck⟩ | ⟨id, rfl, hid⟩
        · exact Or.inl ⟨m, List.mem_cons_of_mem _ hm, hcheck⟩
        · exact Or.inr ⟨id, rfl, count_met _ _ _ _ ▸ hid⟩
      · cases h

theorem checkTargets_eq_error {ids : List String} {ns : List (Node Graph)} {f : Fault}
    (h : checkTargets flow ids ns = .error f) :
    ∃ n ∈ ns, ∃ t ∈ n.transitions, ∃ target, f = .unknownTarget flow n.id target ∧ t.node? = some target ∧
      target ∉ ids := by
  induction ns with
  | nil => cases h
  | cons n rest ih =>
    simp only [checkTargets] at h
    split at h
    next target htarget =>
      cases h
      obtain ⟨t, ht, hnode⟩ := List.mem_filterMap.mp (List.mem_of_find?_eq_some htarget)
      have hnot := List.find?_some htarget
      exact ⟨n, List.mem_cons_self, t, ht, target, rfl, hnode, of_decide_eq_true hnot⟩
    next =>
      obtain ⟨m, hm, hrest⟩ := ih h
      exact ⟨m, List.mem_cons_of_mem _ hm, hrest⟩

theorem mem_of_mem_byId {ns : List (Node Graph)} {n : Node Graph} (h : n ∈ byId ns) : n ∈ ns := by
  obtain ⟨⟨id, _⟩, he, rfl⟩ := List.mem_map.mp h
  obtain ⟨m, hm, heq⟩ := List.mem_map.mp (Dict.mem_of_mem_ofList he)
  cases heq
  exact hm

theorem present_of_checkRules {n : Node Graph} (hn : n ∈ d.nodes) {f : Fault}
    (h : checkRules d.name n.id [] n.transitions = .error f) : f.Present d := by
  rcases checkRules_eq_error h with ⟨rfl, hempty⟩ | ⟨p, rfl, hp⟩ | ⟨t, ht, rfl, hstatus, hterminal⟩
  · exact ⟨rfl, n, hn, rfl, hempty⟩
  · exact ⟨rfl, n, hn, rfl, hp⟩
  · refine ⟨rfl, n, hn, rfl, t, ht, rfl, Option.isSome_iff_ne_none.mp hstatus, ?_⟩
    unfold Transition.isTerminal at hterminal
    split at hterminal
    next target haction => exact ⟨target, haction⟩
    · cases hterminal

theorem present_of_checkBranches {n : Node Graph} (hn : n ∈ d.nodes) {f : Fault}
    (h : checkBranches d.name n.id n.kind = .error f) : f.Present d := by
  rcases checkBranches_eq_error h with ⟨rfl, hkind⟩ | ⟨branches, b, rfl, hkind, hb⟩
  · exact ⟨rfl, n, hn, rfl, hkind⟩
  · exact ⟨rfl, n, hn, rfl, branches, hkind, hb⟩

theorem present_of_build {f : Fault} (h : d.build = .error f) : f.Present d := by
  unfold Declaration.build at h
  split at h
  next hnil =>
    cases h
    exact ⟨rfl, hnil⟩
  next first rest hnodes =>
    simp only [bind, Except.bind] at h
    split at h
    next e hchecked =>
      cases h
      rcases checkNodes_eq_error hchecked with ⟨n, hn, hrules | hbranches⟩ | ⟨id, rfl, hid⟩
      · exact present_of_checkRules hn hrules
      · exact present_of_checkBranches hn hbranches
      · exact ⟨rfl, by simpa [Declaration.ids] using hid⟩
    next nodes hchecked =>
      obtain ⟨-, hnodup, rfl⟩ := checkNodes_eq_ok_iff.mp hchecked
      simp only [map_id_tabled] at h
      by_cases hentry : d.entry.getD first.id ∈ d.nodes.map (·.id)
      · simp only [hentry, not_true_eq_false, if_false] at h
        split at h
        next e htargets =>
          cases h
          obtain ⟨m, hm, t, ht, target, rfl, htarget, hnot⟩ := checkTargets_eq_error htargets
          obtain ⟨n, hn, rfl⟩ := List.mem_map.mp (mem_of_mem_byId hm)
          exact ⟨rfl, leads_iff.mpr ⟨n, hn, rfl, t, Transition.mem_table.mp ht, htarget⟩, hnot⟩
        next htargets =>
          split at h
          next id hid =>
            cases h
            have hmem := List.mem_of_find?_eq_some hid
            have hnot : id ∉ reachable (d.nodes.map tabled) (d.entry.getD first.id) := by
              simpa using List.find?_some hid
            have hleads : ∀ a b, d.Leads a b → b ∈ d.ids := by
              refine leads_of_targets fun n hn t ht => ?_
              have hby := mem_byId (by rw [map_id_tabled]; exact hnodup) (List.mem_map_of_mem hn)
              exact unknownTarget?_eq_none_iff.mp (checkTargets_eq_ok_iff.mp htargets _ hby) t
                (Transition.mem_table.mpr ht)
            exact ⟨rfl, hmem, _, start?_eq hnodes,
              fun hpath => hnot ((mem_reachable_tabled_iff hnodup hleads hentry).mpr hpath)⟩
          · cases h
      · simp only [hentry, not_false_eq_true, if_true] at h
        cases h
        cases hnamed : d.entry with
        | none => exact absurd (by simp [hnamed, hnodes]) hentry
        | some named =>
          rw [hnamed] at hentry
          exact ⟨rfl, hnamed, hentry⟩

/-! ## The graphs that are built -/

theorem not_nodup_of_count {xs : List String} {x : String} (h : 2 ≤ xs.count x) : ¬ xs.Nodup := by
  intro hd
  have := List.nodup_iff_count_le_one.mp hd x
  omega

/-- No well-formed graph has a fault. -/
theorem Fault.Present.not_wellFormed {f : Fault} (h : f.Present d) : ¬ d.WellFormed := by
  intro hw
  cases f with
  | empty flow => exact hw.nodes h.2
  | duplicateNode flow node => exact not_nodup_of_count h.2 hw.ids
  | unknownEntry flow node =>
    obtain ⟨-, hentry, hnot⟩ := h
    obtain ⟨first, rest, hnodes⟩ := List.exists_cons_of_ne_nil hw.nodes
    exact hnot (hw.start node (by rw [start?_eq hnodes, hentry]; rfl))
  | unknownTarget flow node target => exact h.2.2 (hw.targets _ _ h.2.1)
  | emptyPattern flow node =>
    obtain ⟨-, n, hn, -, t, ht, hempty⟩ := h
    exact (hw.patterns n hn).1 t ht hempty
  | duplicatePattern flow node pattern =>
    obtain ⟨-, n, hn, -, hcount⟩ := h
    exact not_nodup_of_count hcount (hw.patterns n hn).2
  | statusOnGoto flow node pattern =>
    obtain ⟨-, n, hn, -, t, ht, -, hstatus, target, haction⟩ := h
    exact hstatus (hw.statuses n hn t ht target haction)
  | emptySplit flow node =>
    obtain ⟨-, n, hn, -, hkind⟩ := h
    exact (hw.splits n hn [] hkind).1 rfl
  | duplicateBranch flow node branch =>
    obtain ⟨-, n, hn, -, branches, hkind, hcount⟩ := h
    exact not_nodup_of_count hcount (hw.splits n hn branches hkind).2
  | unreachable flow node =>
    obtain ⟨-, hid, entry, hentry, hpath⟩ := h
    exact hpath (hw.reached entry hentry node hid)

/-- A declared graph is built if and only if it is well formed. The graph built is the
    declared one, and where none is the fault that is reported is there. -/
theorem Declaration.builds_exactly_wellFormed (d : Declaration) :
    ((∃ g, d.build = .ok g) ↔ d.WellFormed) ∧
      match d.build with
      | .ok g => d.Frozen g
      | .error f => f.Present d := by
  cases h : d.build with
  | ok g => exact ⟨⟨fun _ => wellFormed_of_build h, fun _ => ⟨g, rfl⟩⟩, frozen_of_build h⟩
  | error f =>
    have hpresent := present_of_build h
    refine ⟨⟨?_, fun hw => absurd hw hpresent.not_wellFormed⟩, hpresent⟩
    rintro ⟨g, hg⟩
    cases hg

/-- Two nodes that only lead to one another. -/
example : (Declaration.mk "nightly" none [⟨"load", .step "load", []⟩, ⟨"poll", .step "poll", [.goto "*" "wait"]⟩,
    ⟨"wait", .step "wait", [.goto "*" "poll"]⟩]).build = .error (.unreachable "nightly" "poll") := rfl

end Switchyard.Graph
