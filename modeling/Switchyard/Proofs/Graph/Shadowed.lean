import Mathlib.Data.String.Basic
import Switchyard.Proofs.Graph.Choice

/-
  Switchyard.Proofs.Graph.Shadowed — the order in which patterns are tried, against what
  they accept.

  One pattern is narrower than another if the other accepts all that it accepts and more.
  Taken literally its text is spelled with the least that a pattern asks for
  (`shortest`), and the broader one accepts that too, so the broader one asks for no other
  characters (`Narrower.literals_le`), for no more of them (`Narrower.length_le`) and for
  no longer a start (`Narrower.literalStart_le`).

  The order counts the wildcards after that, and there it parts from what is accepted:
  `LATE?*` is narrower than `LATE*` and has one `?` more. What is left of "the narrower
  first" is `Ahead`, and it is all of it (`Narrower.precedes_iff`).

  - `Narrower.tried_first_iff`: a rule of a built graph comes before a broader one just if
    it is `Ahead`, and then the broader one takes none of its codes. Otherwise it is never
    taken.
-/

namespace Switchyard

namespace Pattern

open Specificity (of)

/-! ## What a pattern asks of a text -/

/-- The shortest text of a pattern, with one character for all its `?`. -/
def shortest (y : Char) (p : List Char) : List Char := (p.filter (· ≠ '*')).map fun c => if c = '?' then y else c

theorem matches_shortest (y : Char) (p : List Char) : Matches p (shortest y p) := by
  induction p with
  | nil => rfl
  | cons c p ih =>
    by_cases hc : c = '*'
    · subst hc
      exact matches_star.mpr ⟨_, List.suffix_refl _, ih⟩
    · refine (matches_cons_of_ne hc).mpr ⟨if c = '?' then y else c, shortest y p, ?_, ?_, ih⟩
      · simp [shortest, hc]
      · by_cases hquestion : c = '?'
        · exact Or.inl hquestion
        · exact Or.inr (if_neg hquestion).symm

/-- A text has somewhere, in order, all that the pattern asks for. -/
theorem exists_sublist_of_matches {p t : List Char} (h : Matches p t) :
    ∃ seen, seen.Sublist t ∧ Fits (p.filter (· ≠ '*')) seen := by
  induction p generalizing t with
  | nil => exact ⟨[], List.nil_sublist t, .nil⟩
  | cons c p ih =>
    by_cases hc : c = '*'
    · subst hc
      obtain ⟨rest, hrest, hp⟩ := matches_star.mp h
      obtain ⟨seen, hseen, hfits⟩ := ih hp
      exact ⟨seen, hseen.trans hrest.sublist, by simpa using hfits⟩
    · obtain ⟨x, rest, rfl, hx, hp⟩ := (matches_cons_of_ne hc).mp h
      obtain ⟨seen, hseen, hfits⟩ := ih hp
      refine ⟨x :: seen, hseen.cons_cons x, ?_⟩
      rw [List.filter_cons_of_pos (by simpa using hc)]
      exact .cons ⟨hc, hx⟩ hfits

theorem Fits.count_le {run seen : List Char} (h : Fits run seen) {x : Char} (hx : isWildcard x = false) :
    run.count x ≤ seen.count x := by
  induction h with
  | nil => exact Nat.le_refl _
  | @cons c z run seen hhead _ ih =>
    rw [List.count_cons, List.count_cons]
    by_cases hc : c = x
    · have hquestion : c ≠ '?' := by
        rintro rfl
        subst hc
        cases hx
      simp only [hc, ← hhead.2.resolve_left hquestion, beq_self_eq_true, if_true]
      omega
    · simp only [beq_iff_eq, hc, if_false]
      omega

theorem count_shortest {p : List Char} {x y : Char} (hx : isWildcard x = false) (hxy : x ≠ y) :
    (shortest y p).count x = p.count x := by
  have hx' : x ≠ '*' ∧ x ≠ '?' := by simpa [isWildcard] using hx
  induction p with
  | nil => rfl
  | cons c p ih =>
    unfold shortest at ih ⊢
    by_cases hc : c = '*'
    · subst hc
      simpa [List.count_cons, hx'.1.symm] using ih
    · by_cases hquestion : c = '?'
      · subst hquestion
        simpa [List.count_cons, hx'.2.symm, hxy.symm] using ih
      · simpa [List.count_cons, hc, hquestion] using ih

theorem length_shortest (y : Char) (p : String) :
    (shortest y p.toList).length = (of p).literals + (of p).questions := by
  unfold shortest of
  rw [List.length_map]
  induction p.toList with
  | nil => rfl
  | cons c p ih =>
    by_cases hc : c = '*'
    · subst hc
      simpa [isWildcard] using ih
    · by_cases hquestion : c = '?'
      · subst hquestion
        simp only [isWildcard, List.countP_cons, List.count_cons] at ih ⊢
        simp at ih ⊢
        omega
      · simp [isWildcard, hc, hquestion] at ih ⊢
        omega

/-! ## The narrower of two patterns -/

/-- The second pattern accepts all that the first one does, and more. -/
structure Narrower (p q : String) : Prop where
  within : ∀ text, accepts p text = true → accepts q text = true
  more : ∃ text, accepts q text = true ∧ accepts p text = false

variable {p q : String}

theorem Narrower.matches (h : Narrower p q) {t : List Char} (ht : Matches p.toList t) : Matches q.toList t := by
  have haccepts : accepts p (String.ofList t) = true := by
    rw [accepts, matchesChars_iff, String.toList_ofList]
    exact ht
  have hwithin := h.within _ haccepts
  rwa [accepts, matchesChars_iff, String.toList_ofList] at hwithin

/-- A pattern without wildcards has one text, and so no narrower pattern. -/
theorem Narrower.not_isLiteral (h : Narrower p q) : (of q).isLiteral = false := by
  cases hq : (of q).isLiteral with
  | false => rfl
  | true =>
    obtain ⟨text, haccepts, hnot⟩ := h.more
    obtain rfl := (accepts_iff_of_isLiteral hq).mp haccepts
    have hmatches := matches_shortest 'a' p.toList
    have hown : accepts p (String.ofList (shortest 'a' p.toList)) = true := by
      rw [accepts, matchesChars_iff, String.toList_ofList]
      exact hmatches
    rw [← (accepts_iff_of_isLiteral hq).mp (h.within _ hown)] at hown
    rw [hown] at hnot
    cases hnot

/-- The broader pattern has no character more often than the narrower one. -/
theorem Narrower.count_le (h : Narrower p q) {x : Char} (hx : isWildcard x = false) :
    q.toList.count x ≤ p.toList.count x := by
  obtain ⟨y, hy⟩ : ∃ y, x ≠ y := ⟨if x = 'a' then 'b' else 'a', by split <;> simp_all⟩
  obtain ⟨seen, hseen, hfits⟩ := exists_sublist_of_matches (h.matches (matches_shortest y p.toList))
  have hx' : (x ≠ '*') := by
    rintro rfl
    cases hx
  calc q.toList.count x
      = (q.toList.filter (· ≠ '*')).count x := (List.count_filter (by simpa using hx')).symm
    _ ≤ seen.count x := hfits.count_le hx
    _ ≤ (shortest y p.toList).count x := hseen.count_le x
    _ = p.toList.count x := count_shortest hx hy

theorem Narrower.literals_le (h : Narrower p q) : (of q).literals ≤ (of p).literals := by
  have hsubperm : (q.toList.filter fun c => !isWildcard c).Subperm (p.toList.filter fun c => !isWildcard c) := by
    refine List.subperm_ext_iff.mpr fun x hx => ?_
    have hliteral := List.of_mem_filter hx
    rw [List.count_filter (p := fun c => !isWildcard c) hliteral,
      List.count_filter (p := fun c => !isWildcard c) hliteral]
    exact h.count_le (by simpa using hliteral)
  show q.toList.countP (fun c => !isWildcard c) ≤ p.toList.countP fun c => !isWildcard c
  rw [List.countP_eq_length_filter, List.countP_eq_length_filter]
  exact hsubperm.length_le

theorem Narrower.length_le (h : Narrower p q) :
    (of q).literals + (of q).questions ≤ (of p).literals + (of p).questions := by
  obtain ⟨seen, hseen, hfits⟩ := exists_sublist_of_matches (h.matches (matches_shortest 'a' p.toList))
  rw [← length_shortest 'a' p, ← length_shortest 'a' q, shortest, List.length_map, hfits.length_eq]
  exact hseen.length_le

def literalStart (p : List Char) : List Char := p.takeWhile fun c => !isWildcard c

theorem literalStart_prefix_of_matches {p t : List Char} (h : Matches p t) : literalStart p <+: t := by
  induction p generalizing t with
  | nil => exact List.nil_prefix
  | cons c p ih =>
    unfold literalStart at ih ⊢
    cases hc : isWildcard c with
    | true => simp [hc]
    | false =>
      have hc' : c ≠ '*' ∧ c ≠ '?' := by simpa [isWildcard] using hc
      obtain ⟨x, rest, rfl, hx, hp⟩ := (matches_cons_of_ne hc'.1).mp h
      rw [List.takeWhile_cons_of_pos (by simp [hc]), hx.resolve_left hc'.2]
      exact List.cons_prefix_cons.mpr ⟨rfl, ih hp⟩

/-- After the literal start a wildcard may stand for any character. -/
theorem exists_matches_literalStart {p : List Char} (hlonger : (literalStart p).length < p.length) (y : Char) :
    ∃ t, Matches p t ∧ literalStart p ++ [y] <+: t := by
  induction p with
  | nil => cases hlonger
  | cons c p ih =>
    unfold literalStart at ih hlonger ⊢
    cases hc : isWildcard c with
    | true =>
      refine ⟨y :: shortest y p, ?_, by simp [hc]⟩
      by_cases hstar : c = '*'
      · subst hstar
        exact matches_star.mpr ⟨_, List.suffix_cons _ _, matches_shortest y p⟩
      · have hquestion : c = '?' := by simpa [isWildcard, hstar] using hc
        exact (matches_cons_of_ne hstar).mpr ⟨y, _, rfl, Or.inl hquestion, matches_shortest y p⟩
    | false =>
      have hc' : c ≠ '*' ∧ c ≠ '?' := by simpa [isWildcard] using hc
      rw [List.takeWhile_cons_of_pos (by simp [hc])] at hlonger ⊢
      obtain ⟨t, ht, hprefix⟩ := ih (Nat.lt_of_succ_lt_succ hlonger)
      exact ⟨c :: t, (matches_cons_of_ne hc'.1).mpr ⟨c, t, rfl, Or.inr rfl, ht⟩, List.cons_prefix_cons.mpr ⟨rfl, hprefix⟩⟩

theorem Narrower.literalStart_le (h : Narrower p q) : (of q).literalStart ≤ (of p).literalStart := by
  show (literalStart q.toList).length ≤ (literalStart p.toList).length
  by_cases hlonger : (literalStart p.toList).length < p.toList.length
  · -- A longer start of the broader pattern would tell what the wildcard stands for.
    by_contra hnot
    obtain ⟨t, ht, hprefix⟩ := exists_matches_literalStart hlonger 'a'
    obtain ⟨t', ht', hprefix'⟩ := exists_matches_literalStart hlonger 'b'
    have hstart := List.prefix_of_prefix_length_le hprefix (literalStart_prefix_of_matches (h.matches ht)) (by simp; omega)
    have hstart' := List.prefix_of_prefix_length_le hprefix' (literalStart_prefix_of_matches (h.matches ht')) (by simp; omega)
    have hsame := (List.prefix_of_prefix_length_le hstart hstart' (by simp)).eq_of_length (by simp)
    exact absurd (List.append_cancel_left hsame) (by decide)
  · have hp : literalStart p.toList = p.toList :=
      (List.takeWhile_prefix _).eq_of_length_le (Nat.le_of_not_lt hlonger)
    have hmatches := h.matches (matches_shortest 'a' p.toList)
    have hle := (literalStart_prefix_of_matches hmatches).length_le
    rw [hp]
    refine Nat.le_trans hle ?_
    rw [shortest, List.length_map]
    exact List.length_filter_le _ _

/-! ## The narrower of two patterns in the order -/

/-- What puts a pattern before a broader one: that it has no wildcard, or more literal
    characters, or as many and fewer `*`, or as many of all and then the longer literal
    start, or the same and the smaller text. -/
def Ahead (p q : String) : Prop :=
  (of p).isLiteral = true ∨ (of q).literals < (of p).literals ∨
    (of p).literals = (of q).literals ∧
      ((of p).stars < (of q).stars ∨
        (of p).stars = (of q).stars ∧ (of p).questions = (of q).questions ∧
          ((of q).literalStart < (of p).literalStart ∨ (of p).literalStart = (of q).literalStart ∧ p < q))

instance (p q : String) : Decidable (Ahead p q) := inferInstanceAs (Decidable (_ ∨ _ ∨ _ ∧ _))

/-- A narrower pattern with as many literal characters never has fewer `?`, so they speak
    for the broader one only. -/
theorem Narrower.precedes_iff (h : Narrower p q) : precedes p q = true ↔ Ahead p q := by
  have hliterals := h.literals_le
  have hlength := h.length_le
  have hstart := h.literalStart_le
  have htext : Ord.compare (of p).pattern (of q).pattern = .lt ↔ p < q := compare_lt_iff_lt
  simp only [precedes, decide_eq_true_eq, Specificity.compare, Ordering.then_eq_lt, Nat.compare_eq_lt,
    Nat.compare_eq_eq, htext, h.not_isLiteral, Ahead]
  cases (of p).isLiteral with
  | true =>
    have hfirst : Ord.compare false true = .lt := rfl
    simp [hfirst]
  | false =>
    have hsame : Ord.compare false false = .eq := rfl
    by_cases hless : p < q <;> simp only [hsame, hless] <;> grind

end Pattern

namespace Transition

/-! ## Broader rules in a table -/

variable {rules : List Transition} {t u : Transition}

theorem exists_append_of_precedes (hd : Distinct rules) (ht : t ∈ rules) (hu : u ∈ rules)
    (h : Pattern.precedes t.pattern u.pattern = true) :
    ∃ before after, table rules = before ++ t :: after ∧ u ∈ after := by
  obtain ⟨before, after, htable⟩ := List.append_of_mem (mem_table.mpr ht)
  have hs := table_pairwise hd
  have hu' := mem_table.mpr hu
  rw [htable] at hs hu'
  refine ⟨before, after, htable, ?_⟩
  rcases List.mem_append.mp hu' with hbefore | hu'
  · have hut := (List.pairwise_append.mp hs).2.2 u hbefore t List.mem_cons_self
    rw [Pattern.precedes_asymm hut] at h
    cases h
  · rcases List.mem_cons.mp hu' with rfl | hafter
    · rw [Pattern.precedes_irrefl] at h
      cases h
    · exact hafter

/-- A rule takes no code that one before it accepts. -/
theorem choose_ne_of_precedes (hd : Distinct rules) (ht : t ∈ rules) {code : String} (haccepts : t.accepts code = true)
    (h : Pattern.precedes t.pattern u.pattern = true) : choose code (table rules) ≠ some u := by
  intro hchosen
  have hfirst := ((choose_table_eq_some_iff hd).mp hchosen).first t ht haccepts
  by_cases hsame : t = u
  · rw [hsame, Pattern.precedes_irrefl] at h
    cases h
  · rw [Pattern.precedes_asymm (hfirst hsame)] at h
    cases h

/-- What a rule takes: the codes it accepts that no rule before it does. -/
theorem choose_append_iff {before after : List Transition} {code : String}
    (hnot : t ∉ before) (haccepts : t.accepts code = true) :
    choose code (before ++ t :: after) = some t ↔ ∀ w ∈ before, w.accepts code = false := by
  unfold choose
  rw [List.find?_append]
  cases hbefore : before.find? (·.accepts code) with
  | none =>
    simp only [Option.none_or, List.find?_cons, haccepts, true_iff]
    intro w hw
    simpa using List.find?_eq_none.mp hbefore w hw
  | some w =>
    have hw := List.mem_of_find?_eq_some hbefore
    have hwaccepts := List.find?_some hbefore
    simp only [Option.some_or, Option.some.injEq]
    constructor
    · rintro rfl
      exact absurd hw hnot
    · intro hall
      rw [hall w hw] at hwaccepts
      cases hwaccepts

end Transition

namespace Pattern

open Specificity (of)
open Transition (choose)

variable {p q : String}

/-- The narrower of two patterns asks for no less than the broader one, and comes before
    it exactly if it is `Ahead`. In every built graph the rule for it then stands before
    the rule for the broader one, which takes none of its codes, and it takes each code
    that no rule before it accepts. Otherwise it stands after the broader one, and no code
    is left for it. -/
theorem Narrower.tried_first_iff (h : Narrower p q) :
    (of q).literals ≤ (of p).literals ∧
      (of q).literals + (of q).questions ≤ (of p).literals + (of p).questions ∧
      (of q).literalStart ≤ (of p).literalStart ∧
      (precedes p q = true ↔ Ahead p q) ∧
      ∀ (d : Graph.Declaration) (g : Graph), d.build = .ok g →
        ∀ n ∈ g.nodes, ∀ t ∈ n.transitions, t.pattern = p → ∀ u ∈ n.transitions, u.pattern = q →
          (Ahead p q → ∃ before after, n.transitions = before ++ t :: after ∧ u ∈ after ∧
            ∀ code, t.accepts code = true → choose code n.transitions ≠ some u ∧
              (choose code n.transitions = some t ↔ ∀ w ∈ before, w.accepts code = false)) ∧
          (¬ Ahead p q → ∃ before after, n.transitions = before ++ u :: after ∧ t ∈ after ∧
            ∀ code, choose code n.transitions ≠ some t) := by
  refine ⟨h.literals_le, h.length_le, h.literalStart_le, h.precedes_iff, fun d g hg n hn => ?_⟩
  have hb := Graph.built hg
  rw [hb.nodes] at hn
  obtain ⟨m, hm, rfl⟩ := List.mem_map.mp hn
  have hd := hb.distinct hm
  rintro t ht rfl u hu rfl
  have ht' := Transition.mem_table.mp ht
  have hu' := Transition.mem_table.mp hu
  constructor
  · intro hahead
    have htu := h.precedes_iff.mpr hahead
    obtain ⟨before, after, htable, hafter⟩ := Transition.exists_append_of_precedes hd ht' hu' htu
    refine ⟨before, after, htable, hafter, fun code haccepts => ⟨?_, ?_⟩⟩
    · exact Transition.choose_ne_of_precedes hd ht' haccepts htu
    · have hs := Transition.table_pairwise hd
      rw [htable] at hs
      show choose code (Transition.table m.transitions) = some t ↔ _
      rw [htable]
      refine Transition.choose_append_iff (fun hbefore => ?_) haccepts
      have hself := (List.pairwise_append.mp hs).2.2 t hbefore t List.mem_cons_self
      rw [precedes_irrefl] at hself
      cases hself
  · intro hnot
    have hne : t.pattern ≠ u.pattern := by
      intro hsame
      obtain ⟨text, haccepts, hrefused⟩ := h.more
      rw [hsame, haccepts] at hrefused
      cases hrefused
    have hut := (precedes_total hne).resolve_left (mt h.precedes_iff.mp hnot)
    obtain ⟨before, after, htable, hafter⟩ := Transition.exists_append_of_precedes hd hu' ht' hut
    refine ⟨before, after, htable, hafter, fun code hchosen => ?_⟩
    have haccepts := h.within code (Transition.choose_eq_some hchosen).2
    exact Transition.choose_ne_of_precedes hd hu' haccepts hut hchosen

end Pattern

/-! ### A narrower rule after the broader one -/

namespace Reminders

open Switchyard.Graph (Declaration)
open Switchyard.Pattern (Narrower accepts precedes)

def reminders (rules : List Transition) : Declaration :=
  { name := "reminders", nodes := [⟨"check", .step "check", rules⟩, ⟨"remind", .step "remind", []⟩] }

def rules : List Transition := [.goto "LATE_*" "remind", .goto "LATE?*" "remind", .complete "LATE*"]

def sorted : List Transition := [.goto "LATE_*" "remind", .complete "LATE*", .goto "LATE?*" "remind"]

theorem days_narrower : Narrower "LATE_*" "LATE*" := by
  refine ⟨fun text h => ?_, "LATE", by decide, by decide⟩
  rw [accepts, Pattern.matchesChars_iff] at h ⊢
  simp [Pattern.Matches] at h ⊢
  obtain ⟨rest, hrest⟩ := h
  exact ⟨_, hrest⟩

theorem later_narrower : Narrower "LATE?*" "LATE*" := by
  refine ⟨fun text h => ?_, "LATE", by decide, by decide⟩
  rw [accepts, Pattern.matchesChars_iff] at h ⊢
  simp [Pattern.Matches] at h ⊢
  obtain ⟨x, rest, hrest⟩ := h
  exact ⟨_, hrest⟩

/-- `LATE?*` accepts less than `LATE*` and is the larger all the same. So a rule for it is
    never taken in a graph that has both. -/
theorem later_reminder_never_taken :
    Narrower "LATE?*" "LATE*" ∧ precedes "LATE?*" "LATE*" = false ∧
      (reminders [.goto "LATE?*" "remind", .complete "LATE*"]).build =
        .ok ⟨"reminders", "check", (reminders [.complete "LATE*", .goto "LATE?*" "remind"]).nodes⟩ ∧
      ∀ code, Transition.choose code [.complete "LATE*", .goto "LATE?*" "remind"] ≠ some (.goto "LATE?*" "remind") := by
  refine ⟨later_narrower, by decide, by rfl, fun code hchosen => ?_⟩
  have hwithin := later_narrower.within code (Transition.choose_eq_some hchosen).2
  have hdistinct : Transition.Distinct [.complete "LATE*", .goto "LATE?*" "remind"] := by
    unfold Transition.Distinct
    decide
  exact Transition.choose_ne_of_precedes (t := .complete "LATE*") hdistinct (by decide) hwithin (by decide) hchosen

/-- The same rules and one more: `LATE_*` has the underscore on top of `LATE*`. -/
theorem reminders_tried_first :
    (reminders rules).build = .ok ⟨"reminders", "check", (reminders sorted).nodes⟩ ∧
      (∀ code, accepts "LATE_*" code = true → Transition.choose code sorted = some (.goto "LATE_*" "remind")) ∧
      ∀ code, Transition.choose code sorted ≠ some (.goto "LATE?*" "remind") := by
  have hbuild : (reminders rules).build = .ok ⟨"reminders", "check", (reminders sorted).nodes⟩ := by rfl
  have hcheck : (⟨"check", .step "check", sorted⟩ : Node Graph) ∈ (reminders sorted).nodes := List.mem_cons_self
  obtain ⟨-, -, -, -, hdays⟩ := days_narrower.tried_first_iff
  obtain ⟨-, -, -, -, hlater⟩ := later_narrower.tried_first_iff
  obtain ⟨hdays, -⟩ := hdays _ _ hbuild _ hcheck (.goto "LATE_*" "remind") (by decide) rfl (.complete "LATE*")
    (by decide) rfl
  obtain ⟨-, hlater⟩ := hlater _ _ hbuild _ hcheck (.goto "LATE?*" "remind") (by decide) rfl (.complete "LATE*")
    (by decide) rfl
  refine ⟨hbuild, fun code haccepts => ?_, ?_⟩
  · obtain ⟨before, after, hsorted, -, htaken⟩ := hdays (by decide)
    refine (htaken code haccepts).2.mpr ?_
    cases before with
    | nil => exact nofun
    | cons w before =>
      have hagain : Transition.goto "LATE_*" "remind" ∈ sorted.tail := by
        rw [show sorted = _ from hsorted]
        exact List.mem_append_right _ List.mem_cons_self
      exact absurd hagain (by decide)
  · obtain ⟨-, -, -, -, hnever⟩ := hlater (by decide)
    exact hnever

end Reminders

end Switchyard
