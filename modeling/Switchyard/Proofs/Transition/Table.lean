import Switchyard.Transition

/-
  Switchyard.Proofs.Transition.Table — the order of patterns is strict and total, so a
  table of rules has one form, and the rule chosen from it is the most specific one.

  - `precedes_trans`, `precedes_irrefl`, `precedes_total`: of two different patterns
    exactly one is tried before the other.
  - `table_perm`, `table_pairwise`: a table has the declared rules, and if their patterns
    differ, each before all less specific ones.
  - `choose_table_eq_some_iff`, `choose_table_eq_none_iff`: what is chosen from a table,
    told of the declared rules alone.
-/

namespace Switchyard

namespace Pattern

namespace Specificity

def keys : Specificity → Specificity → Ordering :=
  compareLex (fun a b => Ord.compare b.isLiteral a.isLiteral) <|
  compareLex (fun a b => Ord.compare b.literals a.literals) <|
  compareLex (compareOn (·.stars)) <|
  compareLex (compareOn (·.questions)) <|
  compareLex (fun a b => Ord.compare b.literalStart a.literalStart) <|
  compareOn (·.pattern)

theorem compare_eq_keys : compare = keys := rfl

instance : Std.TransCmp compare := by
  have h₁ : Std.TransCmp fun a b : Specificity => Ord.compare b.isLiteral a.isLiteral :=
    @Std.TransCmp.opposite _ (compareOn isLiteral) inferInstance
  have h₂ : Std.TransCmp fun a b : Specificity => Ord.compare b.literals a.literals :=
    @Std.TransCmp.opposite _ (compareOn literals) inferInstance
  have h₃ : Std.TransCmp fun a b : Specificity => Ord.compare b.literalStart a.literalStart :=
    @Std.TransCmp.opposite _ (compareOn literalStart) inferInstance
  rw [compare_eq_keys]
  unfold keys
  infer_instance

theorem pattern_of_compare_eq {a b : Specificity} (h : a.compare b = .eq) : a.pattern = b.pattern := by
  simp only [compare, Ordering.then_eq_eq] at h
  exact Std.LawfulEqCmp.eq_of_compare h.2.2.2.2.2

end Specificity

theorem precedes_irrefl (p : String) : precedes p p = false := by
  have h : (Specificity.of p).compare (Specificity.of p) = .eq := Std.ReflCmp.compare_self
  simp [precedes, h]

theorem precedes_trans {p q r : String} (hpq : precedes p q = true) (hqr : precedes q r = true) :
    precedes p r = true := by
  simp only [precedes, decide_eq_true_eq] at hpq hqr ⊢
  exact Std.TransCmp.lt_trans hpq hqr

theorem precedes_total {p q : String} (hne : p ≠ q) : precedes p q = true ∨ precedes q p = true := by
  simp only [precedes, decide_eq_true_eq]
  cases h : (Specificity.of p).compare (Specificity.of q) with
  | lt => exact Or.inl rfl
  | eq => exact absurd (Specificity.pattern_of_compare_eq h) hne
  | gt => exact Or.inr (Std.OrientedCmp.gt_iff_lt.mp h)

theorem precedes_asymm {p q : String} (h : precedes p q = true) : precedes q p = false := by
  cases hqp : precedes q p with
  | false => rfl
  | true =>
    have := precedes_trans h hqp
    rw [precedes_irrefl] at this
    cases this

end Pattern

namespace Transition

/-! ## The table of rules -/

/-- The most specific of the rules that accept a code. -/
structure MostSpecific (rules : List Transition) (code : String) (t : Transition) : Prop where
  declared : t ∈ rules
  accepts : t.accepts code = true
  first : ∀ u ∈ rules, u.accepts code = true → u ≠ t → Pattern.precedes t.pattern u.pattern = true

def Distinct (rules : List Transition) : Prop := (rules.map (·.pattern)).Nodup

theorem place_perm (t : Transition) (rules : List Transition) : (place t rules).Perm (t :: rules) := by
  induction rules with
  | nil => exact List.Perm.refl _
  | cons u rest ih =>
    simp only [place]
    split
    · exact (ih.cons u).trans (List.Perm.swap t u rest)
    · exact List.Perm.refl _

theorem table_perm (rules : List Transition) : (table rules).Perm rules := by
  induction rules with
  | nil => exact List.Perm.refl _
  | cons t rest ih => exact (place_perm t (table rest)).trans (ih.cons t)

@[simp] theorem mem_table {t : Transition} {rules : List Transition} : t ∈ table rules ↔ t ∈ rules :=
  (table_perm rules).mem_iff

@[simp] theorem table_eq_nil {rules : List Transition} : table rules = [] ↔ rules = [] := by
  constructor
  · intro h
    have := (table_perm rules).length_eq
    rw [h] at this
    exact List.eq_nil_of_length_eq_zero this.symm
  · rintro rfl
    rfl

theorem place_pairwise {t : Transition} {rules : List Transition}
    (hs : rules.Pairwise fun a b => Pattern.precedes a.pattern b.pattern = true)
    (ht : ∀ u ∈ rules, u.pattern ≠ t.pattern) :
    (place t rules).Pairwise fun a b => Pattern.precedes a.pattern b.pattern = true := by
  induction rules with
  | nil => exact List.pairwise_singleton _ _
  | cons u rest ih =>
    have hu := List.pairwise_cons.mp hs
    simp only [place]
    split
    · next huv =>
      refine List.pairwise_cons.mpr ⟨fun v hv => ?_, ih hu.2 fun v hv => ht v (List.mem_cons_of_mem _ hv)⟩
      rcases List.mem_cons.mp ((place_perm t rest).mem_iff.mp hv) with rfl | hv
      · exact huv
      · exact hu.1 v hv
    · next huv =>
      have htu : Pattern.precedes t.pattern u.pattern = true := by
        rcases Pattern.precedes_total (ht u List.mem_cons_self) with h | h
        · exact absurd h huv
        · exact h
      refine List.pairwise_cons.mpr ⟨fun v hv => ?_, hs⟩
      rcases List.mem_cons.mp hv with rfl | hv
      · exact htu
      · exact Pattern.precedes_trans htu (hu.1 v hv)

theorem table_pairwise {rules : List Transition} (hd : Distinct rules) :
    (table rules).Pairwise fun a b => Pattern.precedes a.pattern b.pattern = true := by
  induction rules with
  | nil => exact List.Pairwise.nil
  | cons t rest ih =>
    have hd' := List.nodup_cons.mp hd
    refine place_pairwise (ih hd'.2) fun u hu hp => hd'.1 ?_
    exact List.mem_map.mpr ⟨u, mem_table.mp hu, hp⟩

/-! ## The rule chosen -/

theorem choose_eq_some {code : String} {rules : List Transition} {t : Transition} (h : choose code rules = some t) :
    t ∈ rules ∧ t.accepts code = true := by
  unfold choose at h
  have hacc := List.find?_some h
  exact ⟨List.mem_of_find?_eq_some h, hacc⟩

theorem choose_table_eq_none_iff {code : String} {rules : List Transition} :
    choose code (table rules) = none ↔ ∀ t ∈ rules, t.accepts code = false := by
  simp [choose, List.find?_eq_none]

theorem choose_table_eq_some_iff {code : String} {rules : List Transition} {t : Transition} (hd : Distinct rules) :
    choose code (table rules) = some t ↔ MostSpecific rules code t := by
  have hs := table_pairwise hd
  constructor
  · intro h
    obtain ⟨hmem, hacc⟩ := choose_eq_some h
    obtain ⟨-, before, after, htab, hbefore⟩ := List.find?_eq_some_iff_append.mp h
    refine ⟨mem_table.mp hmem, hacc, fun u hu huacc hne => ?_⟩
    rw [htab] at hs
    have hu' : u ∈ before ++ t :: after := htab ▸ mem_table.mpr hu
    rcases List.mem_append.mp hu' with hu' | hu'
    · have := hbefore u hu'
      rw [huacc] at this
      cases this
    · rcases List.mem_cons.mp hu' with rfl | hu'
      · exact absurd rfl hne
      · exact (List.pairwise_cons.mp (List.pairwise_append.mp hs).2.1).1 u hu'
  · intro h
    cases hc : choose code (table rules) with
    | none =>
      have := choose_table_eq_none_iff.mp hc t h.declared
      rw [h.accepts] at this
      cases this
    | some u =>
      by_cases hne : u = t
      · rw [hne]
      -- whichever of the two comes first, the other would have to as well
      · obtain ⟨humem, huacc⟩ := choose_eq_some hc
        have htu := h.first u (mem_table.mp humem) huacc hne
        obtain ⟨-, before, after, htab, hbefore⟩ := List.find?_eq_some_iff_append.mp hc
        rw [htab] at hs
        have ht' : t ∈ before ++ u :: after := htab ▸ mem_table.mpr h.declared
        rcases List.mem_append.mp ht' with ht' | ht'
        · have := hbefore t ht'
          rw [h.accepts] at this
          cases this
        · rcases List.mem_cons.mp ht' with rfl | ht'
          · exact absurd rfl hne
          · have hut := (List.pairwise_cons.mp (List.pairwise_append.mp hs).2.1).1 t ht'
            rw [Pattern.precedes_asymm hut] at htu
            cases htu

end Transition

end Switchyard
