import Mathlib.Data.List.Nodup
import Mathlib.Data.List.Perm.Subperm
import Mathlib.Logic.Relation
import Switchyard.Graph.Build

/-
  Switchyard.Proofs.Graph.Reach — the search of `reachable` finds the nodes that rules
  lead to, all of them and no other, on graphs with cycles too.

  What was met is not met again, so the ids that wait and those not met yet are together
  one fewer after each node looked at (`toLook`). At the start they are as many as there
  are nodes, which is less than the fuel, and so the search ends with no id waiting. An
  id that waits no longer has all its successors met (`Search.closed`).

  - `mem_reachable_iff`: an id is met if and only if a chain of rules leads to it.
-/

namespace Switchyard.Graph

variable {nodes : List (Node Graph)} {ids seen queue : List String}

def Names (nodes : List (Node Graph)) (a b : String) : Prop := b ∈ successors nodes a

theorem names_iff (hd : (nodes.map (·.id)).Nodup) {a b : String} :
    Names nodes a b ↔ ∃ n ∈ nodes, n.id = a ∧ ∃ t ∈ n.transitions, t.node? = some b := by
  have hfound : ∀ n ∈ nodes, n.id = a → nodes.find? (·.id = a) = some n := by
    intro n hn ha
    cases hm : nodes.find? (·.id = a) with
    | none => simpa [ha] using List.find?_eq_none.mp hm n hn
    | some m =>
      have hid : m.id = n.id := by simpa [ha] using List.find?_some hm
      exact congrArg some (List.inj_on_of_nodup_map hd (List.mem_of_find?_eq_some hm) hn hid)
  unfold Names successors
  constructor
  · intro h
    split at h
    next n hn =>
      exact ⟨n, List.mem_of_find?_eq_some hn, by simpa using List.find?_some hn, List.mem_filterMap.mp h⟩
    · cases h
  · rintro ⟨n, hn, ha, ht⟩
    rw [hfound n hn ha]
    exact List.mem_filterMap.mpr ht

/-! ## Ids met for the first time -/

/-- The ids that `discover` adds: each once, none met before, and all of the given ones then met. -/
structure Found (seen found fresh : List String) : Prop where
  nodup : fresh.Nodup
  unseen : ∀ id ∈ fresh, id ∉ seen
  given : fresh ⊆ found
  met : ∀ id ∈ found, id ∈ fresh ∨ id ∈ seen

theorem discover_eq (seen queue found : List String) :
    ∃ fresh, discover seen queue found = (fresh.reverse ++ seen, queue ++ fresh) ∧ Found seen found fresh := by
  induction found generalizing seen queue with
  | nil => exact ⟨[], by simp [discover], List.nodup_nil, by simp, by simp, by simp⟩
  | cons id rest ih =>
    simp only [discover]
    by_cases hid : id ∈ seen
    · rw [if_pos hid]
      obtain ⟨fresh, heq, hf⟩ := ih seen queue
      refine ⟨fresh, heq, hf.nodup, hf.unseen, List.subset_cons_of_subset _ hf.given, ?_⟩
      exact List.forall_mem_cons.mpr ⟨Or.inr hid, hf.met⟩
    · rw [if_neg hid]
      obtain ⟨fresh, heq, hf⟩ := ih (id :: seen) (queue ++ [id])
      have hnew : id ∉ fresh := fun hmem => hf.unseen id hmem List.mem_cons_self
      refine ⟨id :: fresh, by simpa using heq, List.nodup_cons.mpr ⟨hnew, hf.nodup⟩, ?_, ?_, ?_⟩
      · exact List.forall_mem_cons.mpr
          ⟨hid, fun x hx hseen => hf.unseen x hx (List.mem_cons_of_mem _ hseen)⟩
      · exact List.cons_subset_cons _ hf.given
      · refine List.forall_mem_cons.mpr ⟨Or.inl List.mem_cons_self, fun x hx => ?_⟩
        rcases hf.met x hx with hx | hx
        · exact Or.inl (List.mem_cons_of_mem _ hx)
        · rcases List.mem_cons.mp hx with rfl | hx
          · exact Or.inl List.mem_cons_self
          · exact Or.inr hx

/-! ## The search -/

/-- Where the search stands: among the ids, with those of the queue still to be looked at. -/
structure Search (nodes : List (Node Graph)) (ids seen queue : List String) : Prop where
  nodup : seen.Nodup
  known : seen ⊆ ids
  waiting : queue ⊆ seen
  closed : ∀ a ∈ seen, a ∉ queue → ∀ b, Names nodes a b → b ∈ seen

def toLook (ids seen queue : List String) : Nat := queue.length + (ids.length - seen.length)

/-- Looking at a node leaves one less to look at. -/
theorem Search.discover (hnames : ∀ a b, Names nodes a b → b ∈ ids) {a : String}
    (h : Search nodes ids seen (a :: queue)) {found : List String × List String}
    (hfound : Graph.discover seen queue (successors nodes a) = found) :
    Search nodes ids found.1 found.2 ∧ toLook ids found.1 found.2 + 1 = toLook ids seen (a :: queue) := by
  obtain ⟨fresh, heq, hf⟩ := discover_eq seen queue (successors nodes a)
  obtain rfl := heq.symm.trans hfound
  have hnodup : (fresh.reverse ++ seen).Nodup := by
    refine List.nodup_append.mpr ⟨List.nodup_reverse.mpr hf.nodup, h.nodup, ?_⟩
    rintro x hx y hy rfl
    exact hf.unseen x (List.mem_reverse.mp hx) hy
  have hknown : fresh.reverse ++ seen ⊆ ids := by
    refine List.append_subset.mpr ⟨fun x hx => ?_, h.known⟩
    exact hnames a x (hf.given (List.mem_reverse.mp hx))
  refine ⟨⟨hnodup, hknown, ?_, ?_⟩, ?_⟩
  · refine List.append_subset.mpr ⟨fun x hx => ?_, fun x hx => ?_⟩
    · exact List.mem_append_right _ (h.waiting (List.mem_cons_of_mem _ hx))
    · exact List.mem_append_left _ (List.mem_reverse.mpr hx)
  · intro x hx hwait b hb
    simp only [List.mem_append, List.mem_reverse, not_or] at hx hwait ⊢
    have hseen : x ∈ seen := hx.resolve_left hwait.2
    by_cases hxa : x = a
    · exact hf.met b (hxa ▸ hb)
    · refine Or.inr (h.closed x hseen (fun hmem => ?_) b hb)
      exact (List.mem_cons.mp hmem).elim hxa hwait.1
  · have hle := (List.subperm_of_subset hnodup hknown).length_le
    simp only [toLook, List.length_append, List.length_reverse, List.length_cons] at hle ⊢
    omega

/-- With fuel for every node that may be looked at, all ids waiting are looked at. -/
theorem closed_reach (hnames : ∀ a b, Names nodes a b → b ∈ ids) {fuel : Nat} (hfuel : toLook ids seen queue ≤ fuel)
    (h : Search nodes ids seen queue) :
    seen ⊆ reach nodes fuel seen queue ∧
      ∀ a ∈ reach nodes fuel seen queue, ∀ b, Names nodes a b → b ∈ reach nodes fuel seen queue := by
  induction fuel generalizing seen queue with
  | zero =>
    have hnone : queue = [] := List.eq_nil_of_length_eq_zero (by unfold toLook at hfuel; omega)
    exact ⟨List.Subset.refl _, fun a ha => h.closed a ha (by simp [hnone])⟩
  | succ fuel ih =>
    cases queue with
    | nil => exact ⟨List.Subset.refl _, fun a ha => h.closed a ha (by simp)⟩
    | cons a queue =>
      simp only [reach]
      obtain ⟨hsearch, hless⟩ := h.discover hnames rfl
      obtain ⟨hmore, hclosed⟩ := ih (by omega) hsearch
      refine ⟨fun x hx => hmore ?_, hclosed⟩
      obtain ⟨fresh, heq, -⟩ := discover_eq seen queue (successors nodes a)
      rw [heq]
      exact List.mem_append_right _ hx

/-- Only what rules lead to is met. -/
theorem reached_of_mem_reach {P : String → Prop} (hP : ∀ a b, Names nodes a b → P a → P b) {fuel : Nat}
    (hseen : ∀ a ∈ seen, P a) (hqueue : ∀ a ∈ queue, P a) : ∀ a ∈ reach nodes fuel seen queue, P a := by
  induction fuel generalizing seen queue with
  | zero => exact hseen
  | succ fuel ih =>
    cases queue with
    | nil => exact hseen
    | cons a queue =>
      simp only [reach]
      obtain ⟨fresh, heq, hf⟩ := discover_eq seen queue (successors nodes a)
      have hfresh : ∀ b ∈ fresh, P b := fun b hb => hP a b (hf.given hb) (hqueue a List.mem_cons_self)
      rw [heq]
      refine ih (fun b hb => ?_) (fun b hb => ?_)
      · rcases List.mem_append.mp hb with hb | hb
        · exact hfresh b (List.mem_reverse.mp hb)
        · exact hseen b hb
      · rcases List.mem_append.mp hb with hb | hb
        · exact hqueue b (List.mem_cons_of_mem _ hb)
        · exact hfresh b hb

/-- What the search meets is what chains of rules lead to. -/
theorem mem_reachable_iff (hnames : ∀ a b, Names nodes a b → b ∈ nodes.map (·.id)) {entry : String}
    (hentry : entry ∈ nodes.map (·.id)) {id : String} :
    id ∈ reachable nodes entry ↔ Relation.ReflTransGen (Names nodes) entry id := by
  constructor
  · refine reached_of_mem_reach (fun a b hab ha => ha.tail hab) ?_ ?_ id <;>
      · rintro a ha
        rw [List.mem_singleton.mp ha]
  · intro h
    have hstart : Search nodes (nodes.map (·.id)) [entry] [entry] :=
      ⟨List.nodup_singleton _, by simpa using hentry, List.Subset.refl _, fun a ha hnot => absurd ha hnot⟩
    have hfuel : toLook (nodes.map (·.id)) [entry] [entry] ≤ nodes.length + 1 := by
      simp only [toLook, List.length_singleton, List.length_map]
      omega
    obtain ⟨hmet, hclosed⟩ := closed_reach hnames hfuel hstart
    induction h with
    | refl => exact hmet List.mem_cons_self
    | tail _ hab ih => exact hclosed _ ih _ hab

end Switchyard.Graph
