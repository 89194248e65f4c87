import Switchyard.Proofs.Transition.Table

/-
  Switchyard.Proofs.Pattern.Specificity — what the order of patterns tells of their texts.

  The order compares counts that are read off a pattern's text, and at last the text
  itself, so no two patterns are equal in it (`compare_of_eq_iff`). A pattern without
  wildcards comes before every one with some (`compare_of_literal`), and of two with
  wildcards the one with more literal characters does (`compare_of_literals_lt`).

  Rules of different patterns can be sorted in one way only: whatever lists them with no
  rule in front of a more specific one is their table (`Transition.sorted_iff_eq_table`),
  in whatever order they were declared (`Transition.table_eq_of_perm`).

  - `totally_ordered`: all of this.
-/

namespace Switchyard

namespace Pattern

open Specificity (of)

def Wild (p : String) : Prop := '*' ∈ p.toList ∨ '?' ∈ p.toList

instance (p : String) : Decidable (Wild p) := inferInstanceAs (Decidable (_ ∨ _))

def literals (p : String) : List Char := p.toList.filter fun c => c ≠ '*' ∧ c ≠ '?'

variable {p q : String}

/-! ## Counts and texts -/

theorem isLiteral_iff : (of p).isLiteral = true ↔ ∀ c ∈ p.toList, c ≠ '*' ∧ c ≠ '?' := by
  simp only [Specificity.isLiteral, of, Bool.and_eq_true, decide_eq_true_eq, List.count_eq_zero]
  constructor
  · rintro ⟨hstar, hquestion⟩ c hc
    exact ⟨fun h => hstar (h ▸ hc), fun h => hquestion (h ▸ hc)⟩
  · intro h
    exact ⟨fun hmem => (h _ hmem).1 rfl, fun hmem => (h _ hmem).2 rfl⟩

theorem isLiteral_eq_false_iff : (of p).isLiteral = false ↔ Wild p := by
  simp only [Specificity.isLiteral, of, Wild, Bool.and_eq_false_iff, decide_eq_false_iff_not, List.count_eq_zero,
    Decidable.not_not]

theorem literals_of (p : String) : (of p).literals = (literals p).length := by
  rw [literals, ← List.countP_eq_length_filter]
  refine List.countP_congr fun c _ => ?_
  simp [isWildcard]

/-! ## Two patterns -/

/-- Any pattern without wildcards is tried before one with some. -/
theorem precedes_of_isLiteral (hp : (of p).isLiteral = true) (hq : (of q).isLiteral = false) : precedes p q = true := by
  unfold precedes Specificity.compare
  rw [hp, hq]
  rfl

theorem compare_of_literal (hp : ∀ c ∈ p.toList, c ≠ '*' ∧ c ≠ '?') (hq : Wild q) : (of p).compare (of q) = .lt :=
  of_decide_eq_true (precedes_of_isLiteral (isLiteral_iff.mpr hp) (isLiteral_eq_false_iff.mpr hq))

theorem compare_of_literals_lt (hp : Wild p) (hq : Wild q) (h : (literals q).length < (literals p).length) :
    (of p).compare (of q) = .lt := by
  rw [← literals_of, ← literals_of] at h
  have hsame : Ord.compare (of q).isLiteral (of p).isLiteral = .eq := by
    rw [isLiteral_eq_false_iff.mpr hp, isLiteral_eq_false_iff.mpr hq]
    rfl
  rw [Specificity.compare, hsame, Nat.compare_eq_lt.mpr h]
  rfl

theorem compare_of_eq_iff : (of p).compare (of q) = .eq ↔ p = q := by
  constructor
  · exact Specificity.pattern_of_compare_eq
  · rintro rfl
    exact Std.ReflCmp.compare_self

end Pattern

namespace Transition

open Pattern (precedes)
open Pattern.Specificity (of)

variable {rules rules' : List Transition}

/-! ## Sorted rules -/

def Sorted (rules : List Transition) : Prop :=
  rules.Pairwise fun t u => (of t.pattern).compare (of u.pattern) ≠ .gt

theorem Distinct.perm (hd : Distinct rules) (h : rules'.Perm rules) : Distinct rules' :=
  (h.map _).nodup_iff.mpr hd

/-- Different patterns that are not in the wrong order are in the right one. -/
theorem Sorted.pairwise (h : Sorted rules) (hd : Distinct rules) :
    rules.Pairwise fun t u => precedes t.pattern u.pattern = true := by
  refine h.imp₂ (fun t u hle hne => ?_) (List.pairwise_map.mp hd)
  cases hcompare : (of t.pattern).compare (of u.pattern) with
  | lt => exact decide_eq_true hcompare
  | eq => exact absurd (Pattern.compare_of_eq_iff.mp hcompare) hne
  | gt => exact absurd hcompare hle

theorem sorted_table (hd : Distinct rules) : Sorted (table rules) := by
  refine (table_pairwise hd).imp fun htu hgt => ?_
  rw [of_decide_eq_true htu] at hgt
  cases hgt

/-- Rules of different patterns have one sorted form. -/
theorem sorted_iff_eq_table (hd : Distinct rules) (h : rules'.Perm rules) : Sorted rules' ↔ rules' = table rules := by
  constructor
  · intro hsorted
    refine (h.trans (table_perm rules).symm).eq_of_pairwise (fun t u _ _ htu hut => ?_)
      (hsorted.pairwise (hd.perm h)) (table_pairwise hd)
    rw [Pattern.precedes_asymm htu] at hut
    cases hut
  · rintro rfl
    exact sorted_table hd

theorem table_eq_of_perm (h : rules.Perm rules') (hd : Distinct rules) : table rules = table rules' :=
  ((sorted_iff_eq_table hd ((table_perm rules').trans h.symm)).mp (sorted_table (hd.perm h.symm))).symm

end Transition

namespace Pattern

open Specificity (of)
open Transition (Distinct Sorted table)

/-- Patterns are totally ordered. Only a pattern and itself are equal; turned round, a
    comparison comes out the other way; and what comes before a pattern comes before all
    that this one comes before. Those without wildcards come before those with some, and
    of these the ones with more literal characters come first. So rules of different
    patterns, however they were declared, have one sorted form, and it is their table. -/
theorem totally_ordered (p q r : String) :
    ((of p).compare (of q) = .eq ↔ p = q) ∧
      (of q).compare (of p) = ((of p).compare (of q)).swap ∧
      ((of p).compare (of q) ≠ .gt → (of q).compare (of r) ≠ .gt → (of p).compare (of r) ≠ .gt) ∧
      ((of p).compare (of q) = .lt → (of q).compare (of r) = .lt → (of p).compare (of r) = .lt) ∧
      ((∀ c ∈ p.toList, c ≠ '*' ∧ c ≠ '?') → Wild q → (of p).compare (of q) = .lt) ∧
      (Wild p → Wild q → (literals q).length < (literals p).length → (of p).compare (of q) = .lt) ∧
      ∀ rules, Distinct rules → ∀ rules', rules'.Perm rules →
        (Sorted rules' ↔ rules' = table rules) ∧ table rules' = table rules := by
  refine ⟨compare_of_eq_iff, Std.OrientedCmp.eq_swap, ?_, ?_, compare_of_literal, compare_of_literals_lt, ?_⟩
  · intro hpq hqr
    have hle := Std.TransCmp.isLE_trans (Ordering.isLE_iff_ne_gt.mpr hpq) (Ordering.isLE_iff_ne_gt.mpr hqr)
    exact Ordering.isLE_iff_ne_gt.mp hle
  · exact Std.TransCmp.lt_trans
  · intro rules hd rules' hperm
    exact ⟨Transition.sorted_iff_eq_table hd hperm, Transition.table_eq_of_perm hperm (hd.perm hperm)⟩

end Pattern

/-! ### Rules for one disk -/

namespace Disk

open Switchyard.Pattern (Wild literals)
open Switchyard.Pattern.Specificity (of)
open Switchyard.Transition (Distinct Sorted table)

def rules : List Transition :=
  [.complete "*", .goto "DISK_?*" "page", .fail "DISK_FULL", .goto "*_FULL" "page", .goto "DISK_*" "note"]

def sorted : List Transition :=
  [.fail "DISK_FULL", .goto "DISK_*" "note", .goto "*_FULL" "page", .goto "DISK_?*" "page", .complete "*"]

/-- Three patterns have five literal characters: one of them has a `?` more, and of the others
    one has no literal start. -/
theorem disk_has_one_order :
    (∀ c ∈ "DISK_FULL".toList, c ≠ '*' ∧ c ≠ '?') ∧ Wild "*_FULL" ∧ Wild "*" ∧
      (literals "*").length < (literals "*_FULL").length ∧
      (of "DISK_FULL").compare (of "*_FULL") = .lt ∧ (of "*_FULL").compare (of "*") = .lt ∧
      (of "DISK_FULL").compare (of "*") = .lt ∧
      Distinct rules ∧ sorted.Perm rules ∧ Sorted sorted ∧ table rules = sorted ∧ table rules.reverse = sorted := by
  obtain ⟨-, -, -, htrans, hliteral, -, hsorted⟩ := Pattern.totally_ordered "DISK_FULL" "*_FULL" "*"
  obtain ⟨-, -, -, -, -, hliterals, -⟩ := Pattern.totally_ordered "*_FULL" "*" "*"
  have hplain : ∀ c ∈ "DISK_FULL".toList, c ≠ '*' ∧ c ≠ '?' := Pattern.isLiteral_iff.mp (by decide)
  have hfirst := hliteral hplain (by decide)
  have hsecond := hliterals (by decide) (by decide) (by decide)
  have hdistinct : Distinct rules := by
    unfold Distinct
    decide
  have hperm : sorted.Perm rules := by decide
  have hsort : Sorted sorted := by
    unfold Sorted
    decide
  have htable : sorted = table rules := (hsorted rules hdistinct sorted hperm).1.mp hsort
  have hreverse := (hsorted rules hdistinct rules.reverse (List.reverse_perm _)).2
  exact ⟨hplain, by decide, by decide, by decide, hfirst, hsecond, htrans hfirst hsecond, hdistinct, hperm, hsort,
    htable.symm, hreverse.trans htable.symm⟩

end Disk

end Switchyard
