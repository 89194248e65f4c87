import Switchyard.Flow.Progress
import Switchyard.Proofs.Graph.WellFormed
import Switchyard.Proofs.Pattern
import Switchyard.Proofs.Pattern.Specificity

/-
  Switchyard.Proofs.Graph.Choice — the rule that a node of a built graph takes.

  Two rules of one node never have one pattern, and of two different patterns exactly one
  is tried before the other. So the rules that accept a code have a first one, the table
  of a node is the same in whatever order its rules were declared (`table_eq_of_perm`),
  and so is the graph (`Declaration.Reordered.build`).

  A pattern without wildcards accepts its own text and nothing else
  (`accepts_iff_of_isLiteral`) and is tried before every pattern with a wildcard, so a
  rule for exactly this code is the one taken (`mostSpecific_of_isLiteral`).

  - `Declaration.takes_most_specific`: all of this, of every node of a built graph.
-/

namespace Switchyard

namespace Pattern

open Specificity (of)

/-! ## Patterns without wildcards -/

theorem matches_of_literal {p t : List Char} (h : ∀ c ∈ p, c ≠ '*' ∧ c ≠ '?') : Matches p t ↔ t = p := by
  induction p generalizing t with
  | nil => rfl
  | cons c p ih =>
    obtain ⟨⟨hstar, hquestion⟩, hp⟩ := List.forall_mem_cons.mp h
    rw [matches_cons_of_ne hstar]
    constructor
    · rintro ⟨x, rest, rfl, hx, hrest⟩
      rw [(ih hp).mp hrest, hx.resolve_left hquestion]
    · rintro rfl
      exact ⟨c, p, rfl, Or.inr rfl, (ih hp).mpr rfl⟩

/-- A pattern without wildcards accepts its own text only. -/
theorem accepts_iff_of_isLiteral {p text : String} (h : (of p).isLiteral = true) :
    accepts p text = true ↔ p = text := by
  rw [accepts, matchesChars_iff, matches_of_literal (isLiteral_iff.mp h), eq_comm]
  exact String.toList_inj

end Pattern

namespace Transition

open Pattern (Specificity)

/-! ## The rule for one code -/

/-- The rule for exactly this code comes before all others that accept it. -/
theorem mostSpecific_of_isLiteral {rules : List Transition} (hd : Distinct rules) {t : Transition} (ht : t ∈ rules)
    (hliteral : (Specificity.of t.pattern).isLiteral = true) : MostSpecific rules t.pattern t := by
  refine ⟨ht, (Pattern.accepts_iff_of_isLiteral hliteral).mpr rfl, fun u hu haccepts hne => ?_⟩
  cases hu' : (Specificity.of u.pattern).isLiteral with
  | false => exact Pattern.precedes_of_isLiteral hliteral hu'
  | true =>
    have hsame : u.pattern = t.pattern := (Pattern.accepts_iff_of_isLiteral hu').mp haccepts
    exact absurd (List.inj_on_of_nodup_map hd hu ht hsame) hne

end Transition

namespace Graph

namespace Declaration

structure Reordered (d d' : Declaration) : Prop where
  name : d'.name = d.name
  entry : d'.entry = d.entry
  nodes : List.Forall₂ (fun n m : Node Graph => m.id = n.id ∧ m.kind = n.kind ∧
    m.transitions.Perm n.transitions) d.nodes d'.nodes

namespace Reordered

variable {d d' : Declaration}

theorem symm (h : d.Reordered d') : d'.Reordered d := by
  refine ⟨h.name.symm, h.entry.symm, (List.Forall₂.flip h.nodes).imp ?_⟩
  rintro n m ⟨hid, hkind, hrules⟩
  exact ⟨hid.symm, hkind.symm, hrules.symm⟩

theorem exists_of_mem (h : d.Reordered d') {m : Node Graph} (hm : m ∈ d'.nodes) :
    ∃ n ∈ d.nodes, m.id = n.id ∧ m.kind = n.kind ∧ m.transitions.Perm n.transitions := by
  obtain ⟨i, hi, rfl⟩ := List.getElem_of_mem hm
  have hi' : i < d.nodes.length := by rwa [h.nodes.length_eq]
  exact ⟨d.nodes[i], List.getElem_mem hi', h.nodes.get hi' hi⟩

theorem ids (h : d.Reordered d') : d'.ids = d.ids := by
  have hids : List.Forall₂ (· = ·) d.ids d'.ids := by
    rw [Declaration.ids, Declaration.ids, List.forall₂_map_left_iff, List.forall₂_map_right_iff]
    exact h.nodes.imp fun n m hsame => hsame.1.symm
  rw [List.forall₂_eq_eq_eq] at hids
  exact hids.symm

theorem start? (h : d.Reordered d') : d'.start? = d.start? := by
  have hheads : d'.nodes.head?.map (·.id) = d.nodes.head?.map (·.id) := by
    have hids := congrArg List.head? h.ids
    simpa only [Declaration.ids, List.head?_map] using hids
  cases hfirst : d.nodes.head? with
  | none =>
    rw [hfirst, Option.map_none, Option.map_eq_none_iff] at hheads
    simp only [Declaration.start?, hfirst, hheads, Option.map_none]
  | some first =>
    rw [hfirst, Option.map_some, Option.map_eq_some_iff] at hheads
    obtain ⟨first', hfirst', hid⟩ := hheads
    simp only [Declaration.start?, hfirst, hfirst', Option.map_some, h.entry, hid]

theorem leads_of_leads (h : d.Reordered d') {a b : String} (hleads : d'.Leads a b) : d.Leads a b := by
  obtain ⟨m, hm, hid, t, ht, haction⟩ := hleads
  obtain ⟨n, hn, hsame, -, hrules⟩ := h.exists_of_mem hm
  exact ⟨n, hn, hsame.symm.trans hid, t, hrules.mem_iff.mp ht, haction⟩

theorem wellFormed (h : d.Reordered d') (hw : d.WellFormed) : d'.WellFormed := by
  refine ⟨?_, ?_, ?_, ?_, ?_, ?_, ?_, ?_⟩
  · intro hnil
    have hids := h.ids
    simp only [Declaration.ids, hnil, List.map_nil] at hids
    exact hw.nodes (List.map_eq_nil_iff.mp hids.symm)
  · rw [h.ids]
    exact hw.ids
  · rw [h.start?, h.ids]
    exact hw.start
  · intro a b hleads
    rw [h.ids]
    exact hw.targets a b (h.leads_of_leads hleads)
  · intro m hm
    obtain ⟨n, hn, -, -, hrules⟩ := h.exists_of_mem hm
    obtain ⟨hempty, hnodup⟩ := hw.patterns n hn
    exact ⟨fun t ht => hempty t (hrules.mem_iff.mp ht), (hrules.map _).nodup_iff.mpr hnodup⟩
  · intro m hm t ht
    obtain ⟨n, hn, -, -, hrules⟩ := h.exists_of_mem hm
    exact hw.statuses n hn t (hrules.mem_iff.mp ht)
  · intro m hm branches hsplit
    obtain ⟨n, hn, -, hkind, -⟩ := h.exists_of_mem hm
    exact hw.splits n hn branches (hkind ▸ hsplit)
  · intro entry hentry id hid
    rw [h.start?] at hentry
    rw [h.ids] at hid
    exact Relation.ReflTransGen.mono (fun a b => h.symm.leads_of_leads) _ _ (hw.reached entry hentry id hid)

/-- The nodes have the same tables. -/
theorem tabled (h : d.Reordered d') (hw : d.WellFormed) : d'.nodes.map tabled = d.nodes.map tabled := by
  have hdistinct : ∀ n ∈ d.nodes, Transition.Distinct n.transitions := fun n hn => (hw.patterns n hn).2
  have hsame : List.Forall₂ (· = ·) (d.nodes.map Graph.tabled) (d'.nodes.map Graph.tabled) := by
    rw [List.forall₂_map_left_iff, List.forall₂_map_right_iff]
    refine ((List.forall₂_and_left _ _).mpr ⟨hdistinct, h.nodes⟩).imp ?_
    rintro ⟨id, kind, rules⟩ ⟨id', kind', rules'⟩ ⟨hd, rfl, rfl, hrules⟩
    exact congrArg (Node.mk _ _) (Transition.table_eq_of_perm hrules.symm hd)
  rw [List.forall₂_eq_eq_eq] at hsame
  exact hsame.symm

/-- The graph that is built does not tell in which order rules were declared. -/
theorem build (h : d.Reordered d') {g : Graph} (hg : d.build = .ok g) : d'.build = .ok g := by
  have hw := wellFormed_of_build hg
  cases hg' : d'.build with
  | error f => exact absurd (h.wellFormed hw) (present_of_build hg').not_wellFormed
  | ok g' =>
    have hname : g'.name = g.name := (built hg').name.trans (h.name.trans (built hg).name.symm)
    have hentry : g'.entry = g.entry := by
      have hstart := (start?_of_build hg').symm.trans (h.start?.trans (start?_of_build hg))
      exact Option.some.inj hstart
    have hnodes : g'.nodes = g.nodes := by rw [(built hg').nodes, (built hg).nodes, h.tabled hw]
    cases g
    cases g'
    simp_all

end Reordered

/-! ## The rule taken -/

/-- A node that is no leaf ends its flow for a code without a rule, and says which code
    that was, exactly if its table has no rule for the code. -/
theorem route_eq_unresolved_iff {p : Progress} {n : Node Graph} {v : Visit} (hleaf : n.isLeaf = false) :
    p.route n v false = .finish (p.unresolved n.id v.exit.code) ↔
      Transition.choose v.exit.code n.transitions = none := by
  simp only [Progress.route, Bool.false_and, Bool.false_eq_true, if_false, hleaf]
  cases hchosen : Transition.choose v.exit.code n.transitions with
  | none => simp
  | some t =>
    -- A rule that ends the flow leaves no failure behind.
    have hruled : p.ruled n.id t ≠ p.unresolved n.id v.exit.code := by
      intro heq
      have hfailure := congrArg FlowOutcome.failure heq
      cases hfailure
    dsimp only
    cases t.action <;> simp [hruled]

/-- Of the rules declared for a node, the one taken for a code is the one that accepts it
    and is tried before all others that accept it, and there is none exactly if no rule
    accepts the code, which is then told. A rule for exactly this code is always taken,
    and in which order the rules were declared makes no difference. -/
theorem takes_most_specific {d : Declaration} {g : Graph} (h : d.build = .ok g) :
    (∀ d', d.Reordered d' → d'.build = .ok g) ∧
      ∀ n ∈ g.nodes, ∃ m ∈ d.nodes, m.id = n.id ∧ m.kind = n.kind ∧
        (∀ rules, rules.Perm m.transitions → Transition.table rules = n.transitions) ∧
        ∀ code,
          (∀ t, Transition.choose code n.transitions = some t ↔ Transition.MostSpecific m.transitions code t) ∧
          (Transition.choose code n.transitions = none ↔ ∀ t ∈ m.transitions, t.accepts code = false) ∧
          (∀ t ∈ m.transitions, (Pattern.Specificity.of t.pattern).isLiteral = true → t.pattern = code →
            Transition.choose code n.transitions = some t) ∧
          ∀ (p : Progress) v, v.exit.code = code → n.isLeaf = false →
            (p.route n v false = .finish (p.unresolved n.id code) ↔ ∀ t ∈ m.transitions, t.accepts code = false) := by
  have hb := built h
  refine ⟨fun d' hd' => hd'.build h, fun n hn => ?_⟩
  rw [hb.nodes] at hn
  obtain ⟨m, hm, rfl⟩ := List.mem_map.mp hn
  have hdistinct := hb.distinct hm
  refine ⟨m, hm, rfl, rfl, fun rules hrules => ?_, fun code => ⟨fun t => ?_, ?_, ?_, ?_⟩⟩
  · exact (Transition.table_eq_of_perm hrules.symm hdistinct).symm
  · exact Transition.choose_table_eq_some_iff hdistinct
  · exact Transition.choose_table_eq_none_iff
  · rintro t ht hliteral rfl
    exact (Transition.choose_table_eq_some_iff hdistinct).mpr (Transition.mostSpecific_of_isLiteral hdistinct ht hliteral)
  · rintro p v rfl hleaf
    rw [← Transition.choose_table_eq_none_iff]
    exact route_eq_unresolved_iff hleaf

end Declaration

end Graph

/-! ### Rules that accept the same code -/

namespace Parcels

open Switchyard.Graph (Declaration)

def parcels (rules : List Transition) : Declaration :=
  { name := "parcels", nodes := [⟨"sort", .step "sort", rules⟩, ⟨"keep", .step "keep", []⟩] }

def rules : List Transition := [.goto "*" "keep", .goto "?A*" "keep", .fail "FA?LED", .complete "FAILED"]

def sorted : List Transition := [.complete "FAILED", .fail "FA?LED", .goto "?A*" "keep", .goto "*" "keep"]

theorem parcels_take_most_specific :
    (parcels rules).build = .ok ⟨"parcels", "sort", (parcels sorted).nodes⟩ ∧
      (parcels rules.reverse).build = .ok ⟨"parcels", "sort", (parcels sorted).nodes⟩ ∧
      Transition.MostSpecific rules "FAILED" (.complete "FAILED") ∧
      Transition.choose "FAILED" sorted = some (.complete "FAILED") := by
  have hbuild : (parcels rules).build = .ok ⟨"parcels", "sort", (parcels sorted).nodes⟩ := by rfl
  obtain ⟨hreordered, hnodes⟩ := Declaration.takes_most_specific hbuild
  obtain ⟨m, hm, hid, -, -, htaken⟩ := hnodes _ List.mem_cons_self
  have hm : m = ⟨"sort", .step "sort", rules⟩ := by
    rcases List.mem_cons.mp hm with rfl | hm
    · rfl
    · obtain rfl := List.mem_singleton.mp hm
      exact absurd hid (by decide)
  subst hm
  obtain ⟨hspecific, -, hliteral, -⟩ := htaken "FAILED"
  have hchosen := hliteral (.complete "FAILED") (by decide) (by decide) rfl
  refine ⟨hbuild, hreordered _ ⟨rfl, rfl, ?_⟩, (hspecific _).mp hchosen, hchosen⟩
  exact .cons ⟨rfl, rfl, List.reverse_perm _⟩ (.cons ⟨rfl, rfl, List.Perm.refl _⟩ .nil)

end Parcels

end Switchyard
