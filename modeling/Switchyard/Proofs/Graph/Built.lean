import Mathlib.Data.List.Nodup
import Switchyard.Graph.Build
import Switchyard.Proofs.Transition.Table

/-
  Switchyard.Proofs.Graph.Built — what a graph that passed the checks is made of.

  `built` reads the checks backwards: the nodes are the declared ones in their order,
  each with its rules as a table; no two have one id; no two rules of a node have one
  pattern, and none that goes on carries a status; the entry and every node that a rule
  names are there, and every node can be reached. From that come the look-ups:
  `Built.declared_of_node?` (a node found is a declared one), `Built.choose_eq_some_iff`
  (the rule chosen at a node is the most specific declared one) and
  `Built.contains_target` (a rule never leads out of the graph).

  A branch is a graph that was built on its own. `Valid` says so of every graph within a
  graph, and `branchesAt?` finds a split at any depth, by the splits and branches that
  lead to it.
-/

namespace Switchyard

namespace Dict

variable {α : Type}

theorem mem_insertEntry_self (k : String) (v : α) (es : List (String × α)) : (k, v) ∈ insertEntry k v es := by
  induction es with
  | nil => exact List.mem_singleton.mpr rfl
  | cons e rest ih =>
    simp only [insertEntry]
    split
    · exact List.mem_cons_self
    · split
      · exact List.mem_cons_self
      · exact List.mem_cons_of_mem _ ih

theorem mem_insertEntry_of_ne {k : String} {v : α} {e : String × α} {es : List (String × α)} (he : e ∈ es)
    (hne : e.1 ≠ k) : e ∈ insertEntry k v es := by
  induction es with
  | nil => cases he
  | cons x rest ih =>
    simp only [insertEntry]
    rcases List.mem_cons.mp he with rfl | he
    · rw [if_neg (Ne.symm hne)]
      split
      · exact List.mem_cons_of_mem _ List.mem_cons_self
      · exact List.mem_cons_self
    · split
      · exact List.mem_cons_of_mem _ he
      · split
        · exact List.mem_cons_of_mem _ (List.mem_cons_of_mem _ he)
        · exact List.mem_cons_of_mem _ (ih he)

theorem mem_entries_foldl_insert {e : String × α} (es : List (String × α)) (d : Dict α)
    (hd : (es.map (·.1)).Nodup) (he : e ∈ es ∨ (e ∈ d.entries ∧ e.1 ∉ es.map (·.1))) :
    e ∈ (es.foldl (fun acc x => acc.insert x.1 x.2) d).entries := by
  induction es generalizing d with
  | nil => simpa using he
  | cons x rest ih =>
    obtain ⟨hx, hd⟩ := List.nodup_cons.mp hd
    refine ih _ hd ?_
    rcases he with he | ⟨he, hkey⟩
    · rcases List.mem_cons.mp he with rfl | he
      · exact Or.inr ⟨mem_insertEntry_self _ _ _, hx⟩
      · exact Or.inl he
    · simp only [List.map_cons, List.mem_cons, not_or] at hkey
      exact Or.inr ⟨mem_insertEntry_of_ne he hkey.1, hkey.2⟩

theorem mem_values_ofList {k : String} {v : α} {es : List (String × α)} (hd : (es.map (·.1)).Nodup)
    (he : (k, v) ∈ es) : v ∈ (ofList es).values :=
  List.mem_map.mpr ⟨(k, v), mem_entries_foldl_insert es empty hd (Or.inl he), rfl⟩

end Dict

namespace Graph

/-! ## The checks one by one -/

theorem checkRules_eq_ok_iff {flow node : String} {seen : List String} {rules : List Transition} :
    checkRules flow node seen rules = .ok () ↔
      (∀ t ∈ rules, t.pattern ≠ "" ∧ t.pattern ∉ seen ∧ (t.status.isSome = true → t.isTerminal = true)) ∧
        Transition.Distinct rules := by
  induction rules generalizing seen with
  | nil => simp [checkRules, Transition.Distinct]
  | cons t rest ih =>
    simp only [checkRules]
    by_cases hempty : t.pattern = ""
    · simp [hempty]
    by_cases hseen : t.pattern ∈ seen
    · simp [hempty, hseen]
    by_cases hstatus : t.status.isSome = true ∧ t.isTerminal = false
    · simp [hempty, hseen, hstatus]
    rw [if_neg hempty, if_neg hseen, if_neg hstatus, ih]
    have hterm : t.status.isSome = true → t.isTerminal = true := by
      intro hs
      cases ht : t.isTerminal with
      | true => rfl
      | false => exact absurd ⟨hs, ht⟩ hstatus
    simp only [Transition.Distinct, List.map_cons, List.nodup_cons, List.mem_cons, List.mem_map, not_or]
    constructor
    · rintro ⟨hrest, hnodup⟩
      refine ⟨?_, ?_, hnodup⟩
      · rintro u (rfl | hu)
        · exact ⟨hempty, hseen, hterm⟩
        · obtain ⟨h₁, h₂, h₃⟩ := hrest u hu
          exact ⟨h₁, h₂.2, h₃⟩
      · rintro ⟨u, hu, hp⟩
        exact (hrest u hu).2.1.1 hp
    · rintro ⟨hall, hnotin, hnodup⟩
      refine ⟨fun u hu => ?_, hnodup⟩
      obtain ⟨h₁, h₂, h₃⟩ := hall u (Or.inr hu)
      exact ⟨h₁, ⟨fun hp => hnotin ⟨u, hu, hp⟩, h₂⟩, h₃⟩

theorem firstRepeated_eq_none_iff {seen names : List String} :
    firstRepeated seen names = none ↔ names.Nodup ∧ ∀ x ∈ names, x ∉ seen := by
  induction names generalizing seen with
  | nil => simp [firstRepeated]
  | cons x rest ih =>
    simp only [firstRepeated]
    by_cases hx : x ∈ seen
    · simp [hx]
    rw [if_neg hx, ih, List.nodup_cons, List.forall_mem_cons]
    constructor
    · rintro ⟨hrest, hall⟩
      refine ⟨⟨fun hmem => hall x hmem List.mem_cons_self, hrest⟩, hx, fun y hy hseen => ?_⟩
      exact hall y hy (List.mem_cons_of_mem _ hseen)
    · rintro ⟨⟨hnot, hrest⟩, -, hall⟩
      refine ⟨hrest, fun y hy hmem => ?_⟩
      rcases List.mem_cons.mp hmem with rfl | hmem
      · exact hnot hy
      · exact hall y hy hmem

theorem nodup_of_checkBranches {flow node : String} {branches : List Graph}
    (h : checkBranches flow node (.split branches) = .ok ()) : (branches.map (·.name)).Nodup := by
  cases branches with
  | nil => cases h
  | cons b rest =>
    simp only [checkBranches] at h
    split at h
    · cases h
    next hnone => exact (firstRepeated_eq_none_iff.mp hnone).1

def tabled (n : Node Graph) : Node Graph := { n with transitions := Transition.table n.transitions }

theorem checkNodes_eq_ok_iff {flow : String} {seen : List String} {ns out : List (Node Graph)} :
    checkNodes flow seen ns = .ok out ↔
      (∀ n ∈ ns, checkRules flow n.id [] n.transitions = .ok () ∧ checkBranches flow n.id n.kind = .ok () ∧
        n.id ∉ seen) ∧ (ns.map (·.id)).Nodup ∧ out = ns.map tabled := by
  induction ns generalizing seen out with
  | nil => simp [checkNodes, eq_comm]
  | cons n rest ih =>
    simp only [checkNodes, bind, Except.bind]
    cases hrules : checkRules flow n.id [] n.transitions with
    | error e => simp [hrules]
    | ok u =>
      cases hbranches : checkBranches flow n.id n.kind with
      | error e => simp [hbranches]
      | ok u =>
        by_cases hseen : n.id ∈ seen
        · simp [hseen]
        simp only [hseen, if_false]
        cases hrest : checkNodes flow (n.id :: seen) rest with
        | error e =>
          have hno := fun out => (not_congr (@ih (n.id :: seen) out)).mp (by simp [hrest])
          simp only [reduceCtorEq, false_iff]
          rintro ⟨hall, hnodup, -⟩
          obtain ⟨hn, hnodup⟩ := List.nodup_cons.mp hnodup
          refine hno _ ⟨fun m hm => ?_, hnodup, rfl⟩
          obtain ⟨h₁, h₂, h₃⟩ := hall m (List.mem_cons_of_mem _ hm)
          refine ⟨h₁, h₂, fun hmem => ?_⟩
          rcases List.mem_cons.mp hmem with heq | hmem
          · exact hn (List.mem_map.mpr ⟨m, hm, heq⟩)
          · exact h₃ hmem
        | ok checked =>
          obtain ⟨hall, hnodup, rfl⟩ := ih.mp hrest
          simp only [Except.ok.injEq, List.map_cons, List.nodup_cons, List.forall_mem_cons]
          constructor
          · rintro rfl
            refine ⟨⟨⟨hrules, hbranches, hseen⟩, fun m hm => ?_⟩, ⟨fun hmem => ?_, hnodup⟩, rfl⟩
            · obtain ⟨h₁, h₂, h₃⟩ := hall m hm
              exact ⟨h₁, h₂, fun h => h₃ (List.mem_cons_of_mem _ h)⟩
            · obtain ⟨m, hm, heq⟩ := List.mem_map.mp hmem
              exact (hall m hm).2.2 (heq ▸ List.mem_cons_self)
          · rintro ⟨-, -, rfl⟩
            rfl

theorem unknownTarget?_eq_none_iff {ids : List String} {n : Node Graph} :
    unknownTarget? ids n = none ↔ ∀ t ∈ n.transitions, ∀ target, t.node? = some target → target ∈ ids := by
  simp only [unknownTarget?, List.find?_eq_none, List.mem_filterMap, decide_eq_true_eq, Classical.not_not]
  constructor
  · intro h t ht target htarget
    exact h target ⟨t, ht, htarget⟩
  · rintro h target ⟨t, ht, htarget⟩
    exact h t ht target htarget

theorem checkTargets_eq_ok_iff {flow : String} {ids : List String} {ns : List (Node Graph)} :
    checkTargets flow ids ns = .ok () ↔ ∀ n ∈ ns, unknownTarget? ids n = none := by
  induction ns with
  | nil => simp [checkTargets]
  | cons n rest ih =>
    simp only [checkTargets]
    cases h : unknownTarget? ids n with
    | some target => simp [h]
    | none => simp [ih, h]

theorem id_of_node? {g : Graph} {id : String} {n : Node Graph} (h : g.node? id = some n) : n.id = id := by
  have hid := List.find?_some h
  exact of_decide_eq_true hid

theorem mem_byId {nodes : List (Node Graph)} (hd : (nodes.map (·.id)).Nodup) {n : Node Graph} (hn : n ∈ nodes) :
    n ∈ byId nodes := by
  refine Dict.mem_values_ofList (k := n.id) ?_ (List.mem_map.mpr ⟨n, hn, rfl⟩)
  simpa [List.map_map, Function.comp_def] using hd

/-! ## The graph as a whole -/

structure Built (d : Declaration) (g : Graph) : Prop where
  name : g.name = d.name
  nodes : g.nodes = d.nodes.map tabled
  ids : (d.nodes.map (·.id)).Nodup
  rules : ∀ n ∈ d.nodes, checkRules d.name n.id [] n.transitions = .ok ()
  branches : ∀ n ∈ d.nodes, checkBranches d.name n.id n.kind = .ok ()
  entry : g.entry ∈ d.nodes.map (·.id)
  targets : ∀ n ∈ d.nodes, ∀ t ∈ n.transitions, ∀ target, t.node? = some target → target ∈ d.nodes.map (·.id)
  reached : ∀ n ∈ d.nodes, n.id ∈ reachable g.nodes g.entry

theorem map_id_tabled (ns : List (Node Graph)) : (ns.map tabled).map (·.id) = ns.map (·.id) := by
  simp [List.map_map, Function.comp_def, tabled]

theorem built {d : Declaration} {g : Graph} (h : d.build = .ok g) : Built d g := by
  unfold Declaration.build at h
  split at h
  · cases h
  next first rest hnodes =>
    simp only [bind, Except.bind] at h
    cases hchecked : checkNodes d.name [] d.nodes with
    | error e => simp [hchecked] at h
    | ok nodes =>
      rw [hchecked] at h
      obtain ⟨hall, hnodup, rfl⟩ := checkNodes_eq_ok_iff.mp hchecked
      simp only [map_id_tabled] at h
      by_cases hentry : d.entry.getD first.id ∈ d.nodes.map (·.id)
      · simp only [hentry, not_true_eq_false, if_false] at h
        cases htargets : checkTargets d.name (d.nodes.map (·.id)) (byId (d.nodes.map tabled)) with
        | error e => simp [htargets] at h
        | ok u =>
          simp only [htargets] at h
          split at h
          · cases h
          next hreach =>
            cases h
            refine
              { name := rfl, nodes := rfl, ids := hnodup, rules := fun n hn => (hall n hn).1,
                branches := fun n hn => (hall n hn).2.1, entry := hentry, targets := fun n hn t ht => ?_,
                reached := fun n hn => ?_ }
            · have hmem := mem_byId (by rw [map_id_tabled]; exact hnodup) (List.mem_map_of_mem hn)
              have := unknownTarget?_eq_none_iff.mp (checkTargets_eq_ok_iff.mp htargets _ hmem)
              exact this t (Transition.mem_table.mpr ht)
            · have := List.find?_eq_none.mp hreach n.id (List.mem_map_of_mem hn)
              simpa using this
      · simp [hentry] at h

namespace Built

variable {d : Declaration} {g : Graph}

theorem distinct (h : Built d g) {n : Node Graph} (hn : n ∈ d.nodes) : Transition.Distinct n.transitions :=
  (checkRules_eq_ok_iff.mp (h.rules n hn)).2

theorem contains_iff (h : Built d g) {id : String} : g.contains id = true ↔ id ∈ d.nodes.map (·.id) := by
  rw [← map_id_tabled, ← h.nodes]
  simp [contains, node?, List.find?_isSome]

theorem declared_of_node? (h : Built d g) {id : String} {n : Node Graph} (hn : g.node? id = some n) :
    ∃ m ∈ d.nodes, m.id = id ∧ n = tabled m := by
  have hid := id_of_node? hn
  have hmem := List.mem_of_find?_eq_some hn
  rw [h.nodes] at hmem
  obtain ⟨m, hm, rfl⟩ := List.mem_map.mp hmem
  exact ⟨m, hm, hid, rfl⟩

theorem choose_eq_some_iff (h : Built d g) {m : Node Graph} (hm : m ∈ d.nodes) {code : String} {t : Transition} :
    Transition.choose code (tabled m).transitions = some t ↔ Transition.MostSpecific m.transitions code t :=
  Transition.choose_table_eq_some_iff (h.distinct hm)

/-- No two branches of a split have one name. -/
theorem branchNames (h : Built d g) {id : String} {n : Node Graph} (hn : g.node? id = some n) {branches : List Graph}
    (hsplit : n.kind = .split branches) : (branches.map (·.name)).Nodup := by
  obtain ⟨m, hm, -, rfl⟩ := h.declared_of_node? hn
  exact nodup_of_checkBranches (hsplit ▸ h.branches m hm)

theorem contains_target (h : Built d g) {id : String} {n : Node Graph} (hn : g.node? id = some n)
    {t : Transition} (ht : t ∈ n.transitions) {target : String} (htarget : t.node? = some target) :
    g.contains target = true := by
  obtain ⟨m, hm, -, rfl⟩ := h.declared_of_node? hn
  exact h.contains_iff.mpr (h.targets m hm t (Transition.mem_table.mp ht) target htarget)

end Built

/-! ## Splits within splits -/

inductive Valid : Graph → Prop
  | mk {d : Declaration} {g : Graph} : d.build = .ok g →
      (∀ n ∈ g.nodes, ∀ branches, n.kind = .split branches → ∀ b ∈ branches, Valid b) → Valid g

def splitAt? (g : Graph) (split : String) : Option (List Graph) :=
  match g.node? split with
  | some ⟨_, .split branches, _⟩ => some branches
  | _ => none

/-- The branches of a split that is reached through a branch of each of these splits. -/
def branchesAt? : Graph → List (String × String) → String → Option (List Graph)
  | g, [], split => g.splitAt? split
  | g, (outer, branch) :: path, split =>
    (g.splitAt? outer).bind fun branches =>
      (branches.find? (·.name = branch)).bind fun b => b.branchesAt? path split

theorem splitAt?_eq_some {g : Graph} {split : String} {branches : List Graph} (h : g.splitAt? split = some branches) :
    ∃ n, g.node? split = some n ∧ n.kind = .split branches := by
  unfold splitAt? at h
  split at h
  next id bs rules hnode =>
    cases h
    exact ⟨_, hnode, rfl⟩
  · cases h

theorem nesting_le_nestingOfBranches {branches : List Graph} {b : Graph} (h : b ∈ branches) :
    b.nesting ≤ nestingOfBranches branches := by
  induction branches with
  | nil => cases h
  | cons c rest ih =>
    rw [nestingOfBranches]
    rcases List.mem_cons.mp h with rfl | h
    · exact Nat.le_max_left _ _
    · exact Nat.le_trans (ih h) (Nat.le_max_right _ _)

theorem nestingOfKind_le {nodes : List (Node Graph)} {n : Node Graph} (h : n ∈ nodes) :
    nestingOfKind n.kind ≤ nestingOfNodes nodes := by
  induction nodes with
  | nil => cases h
  | cons m rest ih =>
    obtain ⟨id, kind, rules⟩ := m
    rw [nestingOfNodes]
    rcases List.mem_cons.mp h with rfl | h
    · exact Nat.le_max_left _ _
    · exact Nat.le_trans (ih h) (Nat.le_max_right _ _)

/-- A graph is nested deeper than its branches. -/
theorem nestingOfBranches_lt {g : Graph} {split : String} {n : Node Graph} (hn : g.node? split = some n)
    {branches : List Graph} (hsplit : n.kind = .split branches) : nestingOfBranches branches < g.nesting := by
  have hle := nestingOfKind_le (List.mem_of_find?_eq_some hn)
  obtain ⟨name, entry, nodes⟩ := g
  rw [hsplit, nestingOfKind] at hle
  rw [nesting]
  exact hle

namespace Valid

variable {g : Graph}

theorem contains_entry (h : g.Valid) : g.contains g.entry = true := by
  cases h with
  | mk hbuild _ => exact (built hbuild).contains_iff.mpr (built hbuild).entry

theorem contains_target (h : g.Valid) {id : String} {n : Node Graph} (hn : g.node? id = some n) {t : Transition}
    (ht : t ∈ n.transitions) {target : String} (htarget : t.node? = some target) : g.contains target = true := by
  cases h with
  | mk hbuild _ => exact (built hbuild).contains_target hn ht htarget

theorem branchNames (h : g.Valid) {id : String} {n : Node Graph} (hn : g.node? id = some n) {branches : List Graph}
    (hsplit : n.kind = .split branches) : (branches.map (·.name)).Nodup := by
  cases h with
  | mk hbuild _ => exact (built hbuild).branchNames hn hsplit

theorem branch (h : g.Valid) {id : String} {n : Node Graph} (hn : g.node? id = some n) {branches : List Graph}
    (hsplit : n.kind = .split branches) {b : Graph} (hb : b ∈ branches) : b.Valid := by
  cases h with
  | mk _ hbranches => exact hbranches n (List.mem_of_find?_eq_some hn) branches hsplit b hb

end Valid

end Graph

end Switchyard
