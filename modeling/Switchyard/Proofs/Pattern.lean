import Mathlib.Data.List.Forall2
import Switchyard.Pattern

/-
  Switchyard.Proofs.Pattern — the matcher comes to an answer for every pattern and text, and
  answers whether the text is in the pattern's language.

  A `Scan` is a matcher that goes turn by turn: what is left of the pattern and of the
  text, and the last star it passed, by the pattern after the star and the text it is
  tried at. It forgets every earlier star. Nothing is lost by that: what stands between
  two stars has no star in it, so the earlier one would have to take at least what the
  first fit took, and the text that the later star is tried at ends with all the text it
  could then be tried at (`found_append_star`).

  - `Scan.Sound.turn`: a turn answers, or leaves the question as it was and comes nearer
    to its end: a retry shortens the text that the star is tried at, and every other turn
    shortens the pattern.
  - `Scan.Sound.answers`: so a scan answers within a number of turns that is told
    beforehand.
  - `comes_matchesChars`: the matcher answers as the scan does.
-/

namespace Switchyard.Pattern

/-! ## The language -/

theorem matches_star {p t : List Char} : Matches ('*' :: p) t ↔ ∃ rest, rest <:+ t ∧ Matches p rest := by
  simp [Matches]

theorem matches_cons_of_ne {c : Char} {p t : List Char} (h : c ≠ '*') :
    Matches (c :: p) t ↔ ∃ x rest, t = x :: rest ∧ (c = '?' ∨ c = x) ∧ Matches p rest := by
  simp [Matches, h]

/-- No text is left for anything but stars. -/
theorem matches_nil_right {p : List Char} : Matches p [] ↔ p.all (· = '*') = true := by
  induction p with
  | nil => simp [Matches]
  | cons c p ih =>
    by_cases hc : c = '*'
    · subst hc
      rw [matches_star]
      simp [ih]
    · rw [matches_cons_of_ne hc]
      simp [hc]

/-- A piece of a pattern with no star in it, and a text that it fits one by one. -/
def Fits : List Char → List Char → Prop := List.Forall₂ fun c x => c ≠ '*' ∧ (c = '?' ∨ c = x)

theorem Fits.length_eq {run seen : List Char} (h : Fits run seen) : run.length = seen.length := List.Forall₂.length_eq h

theorem matches_append {run seen : List Char} (h : Fits run seen) (p t : List Char) :
    Matches (run ++ p) (seen ++ t) ↔ Matches p t := by
  induction h with
  | nil => rfl
  | cons hhead _ ih =>
    rw [List.cons_append, List.cons_append, matches_cons_of_ne hhead.1]
    constructor
    · rintro ⟨x, rest, heq, -, hrest⟩
      obtain ⟨rfl, rfl⟩ := List.cons_eq_cons.mp heq
      exact ih.mp hrest
    · intro ht
      exact ⟨_, _, rfl, hhead.2, ih.mpr ht⟩

/-- A piece without stars takes as many characters as it has. -/
theorem exists_of_matches_append {run seen : List Char} (h : Fits run seen) {p t : List Char}
    (hmatches : Matches (run ++ p) t) :
    ∃ front rest, t = front ++ rest ∧ front.length = run.length ∧ Matches p rest := by
  induction h generalizing t with
  | nil => exact ⟨[], t, rfl, rfl, hmatches⟩
  | cons hhead _ ih =>
    rw [List.cons_append, matches_cons_of_ne hhead.1] at hmatches
    obtain ⟨x, rest, rfl, -, hrest⟩ := hmatches
    obtain ⟨front, rest, rfl, hlength, hp⟩ := ih hrest
    exact ⟨x :: front, rest, rfl, congrArg (· + 1) hlength, hp⟩

def Found (p t : List Char) : Prop := ∃ rest, rest <:+ t ∧ Matches p rest

theorem found_cons {p t : List Char} {x : Char} : Found p (x :: t) ↔ Matches p (x :: t) ∨ Found p t := by
  unfold Found
  constructor
  · rintro ⟨rest, hrest, hp⟩
    rcases List.suffix_cons_iff.mp hrest with rfl | hrest
    · exact Or.inl hp
    · exact Or.inr ⟨rest, hrest, hp⟩
  · rintro (hp | ⟨rest, hrest, hp⟩)
    · exact ⟨_, List.suffix_refl _, hp⟩
    · exact ⟨rest, hrest.trans (List.suffix_cons _ _), hp⟩

/-- Once the piece after a star fits, the star need not be tried further right: the next
    one can take whatever that would skip. -/
theorem found_append_star {run seen : List Char} (h : Fits run seen) (p t : List Char) :
    Found (run ++ '*' :: p) (seen ++ t) ↔ Found p t := by
  constructor
  · rintro ⟨text, htext, hmatches⟩
    obtain ⟨front, rest, rfl, hlength, hstar⟩ := exists_of_matches_append h hmatches
    obtain ⟨found, hfound, hp⟩ := matches_star.mp hstar
    have hrest : rest <:+ t := by
      have hsuffix : rest <:+ seen ++ t := (List.suffix_append front rest).trans htext
      refine List.suffix_of_suffix_length_le hsuffix (List.suffix_append seen t) ?_
      have hle := htext.length_le
      have heq := h.length_eq
      simp only [List.length_append] at hle
      omega
    exact ⟨found, hfound.trans hrest, hp⟩
  · intro hfound
    exact ⟨seen ++ t, List.suffix_refl _, (matches_append h _ _).mpr (matches_star.mpr hfound)⟩

/-- A piece that fits up to the end of the text fits nowhere else with text to spare. -/
theorem found_append_end {run seen : List Char} (h : Fits run seen) (p : List Char) :
    Found (run ++ p) seen ↔ p.all (· = '*') = true := by
  rw [← matches_nil_right]
  constructor
  · rintro ⟨text, htext, hmatches⟩
    obtain ⟨front, rest, rfl, hlength, hp⟩ := exists_of_matches_append h hmatches
    have hnil : rest = [] := by
      have hle := htext.length_le
      have heq := h.length_eq
      simp only [List.length_append] at hle
      exact List.eq_nil_of_length_eq_zero (by omega)
    rwa [hnil] at hp
  · intro hp
    refine ⟨seen, List.suffix_refl _, ?_⟩
    have hmatches := (matches_append h p []).mpr hp
    rwa [List.append_nil] at hmatches

/-! ## The matcher turn by turn -/

/-- What is left of the pattern and of the text, and the last star passed: the pattern
    after it, and the text that is tried against that. -/
structure Scan where
  pattern : List Char
  text : List Char
  star : Option (List Char × List Char) := none

namespace Scan

def retry (s : Scan) : Bool ⊕ Scan :=
  match s.star with
  | some (p, t) => .inr ⟨p, t.tail, some (p, t.tail)⟩
  | none => .inl false

def turn (s : Scan) : Bool ⊕ Scan :=
  match s.pattern, s.text with
  | p, [] => .inl (p.all (· = '*'))
  | [], _ :: _ => s.retry
  | c :: p, x :: t =>
    if c = '*' then .inr ⟨p, x :: t, some (p, x :: t)⟩
    else if c = '?' ∨ c = x then .inr ⟨p, t, s.star⟩
    else s.retry

def answer? : (turns : Nat) → Scan → Option Bool
  | 0, _ => none
  | turns + 1, s =>
    match s.turn with
    | .inl answer => some answer
    | .inr s => s.answer? turns

def Open (s : Scan) : Prop :=
  match s.star with
  | some (p, t) => Found p t
  | none => Matches s.pattern s.text

/-- How much text the star is still tried at; all there is if none was passed. -/
def tried (s : Scan) : Nat :=
  match s.star with
  | some (_, t) => t.length
  | none => s.text.length

/-- More than the turns that are still taken, for a pattern of at most `n` characters. -/
def ahead (n : Nat) (s : Scan) : Nat := s.tried * (n + 1) + s.pattern.length

/-- A scan under way: from the last star on the pattern has fitted the text. -/
structure Sound (n : Nat) (s : Scan) : Prop where
  pattern : s.pattern.length ≤ n
  star : ∀ p t, s.star = some (p, t) →
    p.length ≤ n ∧ ∃ run seen, Fits run seen ∧ p = run ++ s.pattern ∧ t = seen ++ s.text

variable {n : Nat} {s s' : Scan}

theorem Sound.text_le (h : s.Sound n) : s.text.length ≤ s.tried := by
  unfold tried
  split
  next p t hstar =>
    obtain ⟨-, run, seen, -, -, rfl⟩ := h.star p t hstar
    simp
  next => exact Nat.le_refl _

def Turned (n : Nat) (s : Scan) : Bool ⊕ Scan → Prop
  | .inl answer => answer = true ↔ s.Open
  | .inr s' => s'.Sound n ∧ (s'.Open ↔ s.Open) ∧ s'.ahead n < s.ahead n

/-- The text is not at its end and the pattern does not match it here. -/
theorem Sound.retry (h : s.Sound n) (htext : s.text ≠ []) (hnot : ¬ Matches s.pattern s.text) :
    s.Turned n s.retry := by
  unfold Scan.retry
  split
  next p t hstar =>
    obtain ⟨hp, run, seen, hfits, hpattern, ht⟩ := h.star p t hstar
    obtain ⟨x, rest, rfl⟩ : ∃ x rest, t = x :: rest :=
      List.exists_cons_of_ne_nil (by simp [ht, htext])
    have hmiss : ¬ Matches p (x :: rest) := by
      rw [hpattern, ht, matches_append hfits]
      exact hnot
    refine ⟨⟨hp, ?_⟩, ?_, ?_⟩
    · rintro p' t' ⟨⟩
      exact ⟨hp, [], [], .nil, rfl, rfl⟩
    · simp only [Open, hstar, List.tail_cons, found_cons, hmiss, false_or]
    · simp only [ahead, tried, hstar, List.tail_cons, List.length_cons, Nat.succ_mul]
      omega
  next hstar =>
    unfold Turned Open
    simp [hstar, hnot]

/-- The star found last is the one to be tried from now on. -/
theorem Sound.pass {p t : List Char} {star : Option (List Char × List Char)} (h : Sound n ⟨'*' :: p, t, star⟩) :
    Turned n ⟨'*' :: p, t, star⟩ (.inr ⟨p, t, some (p, t)⟩) := by
  have hp : p.length + 1 ≤ n := h.pattern
  have hle : t.length * (n + 1) ≤ tried ⟨'*' :: p, t, star⟩ * (n + 1) := Nat.mul_le_mul_right _ h.text_le
  refine ⟨⟨Nat.le_of_succ_le hp, ?_⟩, ?_, ?_⟩
  · rintro p t ⟨⟩
    exact ⟨Nat.le_of_succ_le hp, [], [], .nil, rfl, rfl⟩
  · cases star with
    | none => exact matches_star.symm
    | some last =>
      obtain ⟨-, run, seen, hfits, hlast, ht⟩ := h.star last.1 last.2 rfl
      simp only [Open, hlast, ht]
      exact (found_append_star hfits p t).symm
  · show t.length * (n + 1) + p.length < tried ⟨'*' :: p, t, star⟩ * (n + 1) + (p.length + 1)
    omega

/-- A character that fits is passed in the pattern and in the text. -/
theorem Sound.take {c x : Char} {p t : List Char} {star : Option (List Char × List Char)}
    (h : Sound n ⟨c :: p, x :: t, star⟩) (hc : c ≠ '*') (hfit : c = '?' ∨ c = x) :
    Turned n ⟨c :: p, x :: t, star⟩ (.inr ⟨p, t, star⟩) := by
  have hp : p.length + 1 ≤ n := h.pattern
  refine ⟨⟨Nat.le_of_succ_le hp, ?_⟩, ?_, ?_⟩
  · intro q tried hstar
    obtain ⟨hq, run, seen, hfits, rfl, rfl⟩ := h.star q tried hstar
    exact ⟨hq, run ++ [c], seen ++ [x], List.rel_append hfits (.cons ⟨hc, hfit⟩ .nil), by simp, by simp⟩
  · cases star with
    | none => exact (matches_append (.cons ⟨hc, hfit⟩ .nil) p t).symm
    | some last => rfl
  · have hless : tried ⟨p, t, star⟩ ≤ tried ⟨c :: p, x :: t, star⟩ := by
      cases star with
      | none => exact Nat.le_succ _
      | some last => exact Nat.le_refl _
    have hle := Nat.mul_le_mul_right (n + 1) hless
    show tried ⟨p, t, star⟩ * (n + 1) + p.length < tried ⟨c :: p, x :: t, star⟩ * (n + 1) + (p.length + 1)
    omega

/-- At the end of the text only stars may be left. -/
theorem Sound.stop {p : List Char} {star : Option (List Char × List Char)} (h : Sound n ⟨p, [], star⟩) :
    Turned n ⟨p, [], star⟩ (.inl (p.all (· = '*'))) := by
  cases star with
  | none => exact matches_nil_right.symm
  | some last =>
    obtain ⟨-, run, seen, hfits, hlast, ht⟩ := h.star last.1 last.2 rfl
    simp only [Turned, Open, hlast, ht, List.append_nil]
    exact (found_append_end hfits p).symm

/-- A turn answers, or leaves the question as it was and comes nearer to its end. -/
theorem Sound.turn (h : s.Sound n) : s.Turned n s.turn := by
  obtain ⟨pattern, text, star⟩ := s
  unfold Scan.turn
  cases text with
  | nil => exact h.stop
  | cons x t =>
    cases pattern with
    | nil => exact h.retry nofun nofun
    | cons c p =>
      by_cases hc : c = '*'
      · subst hc
        exact h.pass
      by_cases hfit : c = '?' ∨ c = x
      · simp only [if_neg hc, if_pos hfit]
        exact h.take hc hfit
      · simp only [if_neg hc, if_neg hfit]
        refine h.retry nofun fun hmatches => ?_
        obtain ⟨x', rest, heq, hx, -⟩ := (matches_cons_of_ne hc).mp hmatches
        obtain ⟨rfl, -⟩ := List.cons_eq_cons.mp heq
        exact hfit hx

/-- A scan comes to the answer within the turns that are ahead of it. -/
theorem Sound.answers {turns : Nat} (h : s.Sound n) (hturns : s.ahead n < turns) :
    ∃ answer, s.answer? turns = some answer ∧ (answer = true ↔ s.Open) := by
  induction turns generalizing s with
  | zero => omega
  | succ turns ih =>
    have hturn := h.turn
    unfold answer?
    cases hnext : s.turn with
    | inl answer =>
      rw [hnext] at hturn
      exact ⟨answer, rfl, hturn⟩
    | inr s' =>
      rw [hnext] at hturn
      obtain ⟨hsound, hopen, hless⟩ := hturn
      obtain ⟨answer, hanswer, hiff⟩ := ih hsound (by omega)
      exact ⟨answer, hanswer, hiff.trans hopen⟩

def start (p t : List Char) : Scan := ⟨p, t, none⟩

theorem sound_start (p t : List Char) : (start p t).Sound p.length := ⟨Nat.le_refl _, nofun⟩

theorem ahead_start (p t : List Char) : (start p t).ahead p.length < (p.length + 1) * (t.length + 1) := by
  show t.length * (p.length + 1) + p.length < _
  rw [Nat.mul_comm (p.length + 1), Nat.succ_mul]
  omega

/-! ## The matcher answers as the scan does -/

def Comes (s : Scan) (answer : Bool) : Prop := ∃ turns, s.answer? turns = some answer

theorem comes_of_turn {answer : Bool} (h : s.turn = .inl answer) : s.Comes answer :=
  ⟨1, by rw [answer?, h]⟩

theorem Comes.of_turn {answer : Bool} (h : s'.Comes answer) (hturn : s.turn = .inr s') : s.Comes answer := by
  obtain ⟨turns, hturns⟩ := h
  refine ⟨turns + 1, ?_⟩
  rw [answer?, hturn]
  exact hturns

/-- There is one answer, however many turns it is waited for. -/
theorem Comes.unique {a b : Bool} (ha : s.Comes a) (hb : s.Comes b) : a = b := by
  obtain ⟨m, hm⟩ := ha
  obtain ⟨k, hk⟩ := hb
  induction m generalizing s k with
  | zero => cases hm
  | succ m ih =>
    cases k with
    | zero => cases hk
    | succ k =>
      unfold answer? at hm hk
      cases hturn : s.turn with
      | inl answer =>
        rw [hturn] at hm hk
        exact Option.some.inj (hm.symm.trans hk)
      | inr next =>
        rw [hturn] at hm hk
        exact ih hm k hk

def Reads (s : Scan) : Piece → Prop
  | .ended accepted => s.Comes accepted
  | .star p t => p.length < s.pattern.length ∧ t.length ≤ s.text.length ∧
      ∀ answer, Comes ⟨p, t, some (p, t)⟩ answer → s.Comes answer
  | .mismatch => s.text ≠ [] ∧ (s.star = none → s.Comes false) ∧
      ∀ p t, s.star = some (p, t) → ∀ answer, Comes ⟨p, t.tail, some (p, t.tail)⟩ answer → s.Comes answer

/-- A mismatch sends the scan back to its star. -/
theorem reads_of_retry (htext : s.text ≠ []) (h : s.turn = s.retry) : s.Reads .mismatch := by
  refine ⟨htext, fun hstar => comes_of_turn ?_, fun p t hstar answer hnext => hnext.of_turn ?_⟩
  · rw [h, retry, hstar]
  · rw [h, retry, hstar]

theorem reads_piece (p t : List Char) (star : Option (List Char × List Char)) :
    Reads ⟨p, t, star⟩ (piece p t) := by
  induction p generalizing t with
  | nil =>
    cases t with
    | nil => exact comes_of_turn rfl
    | cons x t => exact reads_of_retry nofun rfl
  | cons c p ih =>
    cases t with
    | nil => exact comes_of_turn rfl
    | cons x t =>
      by_cases hc : c = '*'
      · subst hc
        exact ⟨Nat.lt_succ_self _, Nat.le_refl _, fun answer hnext => hnext.of_turn rfl⟩
      by_cases hfit : c = '?' ∨ c = x
      · have hturn : turn ⟨c :: p, x :: t, star⟩ = .inr ⟨p, t, star⟩ := by
          simp only [turn, if_neg hc, if_pos hfit]
        have hrest := ih t
        rw [piece, if_neg hc, if_pos hfit]
        cases hpiece : piece p t with
        | ended accepted =>
          rw [hpiece] at hrest
          exact Comes.of_turn hrest hturn
        | star p' t' =>
          rw [hpiece] at hrest
          obtain ⟨hp, ht, hnext⟩ := hrest
          exact ⟨Nat.lt_succ_of_lt hp, Nat.le_succ_of_le ht, fun answer ha => (hnext answer ha).of_turn hturn⟩
        | mismatch =>
          rw [hpiece] at hrest
          obtain ⟨-, hnone, hsome⟩ := hrest
          exact ⟨nofun, fun hstar => (hnone hstar).of_turn hturn,
            fun p' t' hstar answer ha => (hsome p' t' hstar answer ha).of_turn hturn⟩
      · rw [piece, if_neg hc, if_neg hfit]
        refine reads_of_retry nofun ?_
        simp only [turn, if_neg hc, if_neg hfit]

/-- The tries that the matcher has room for are enough. -/
theorem comes_afterStar {fuel : Nat} (p t : List Char) (h : p.length + t.length < fuel) :
    Comes ⟨p, t, some (p, t)⟩ (afterStar fuel p t) := by
  induction fuel generalizing p t with
  | zero => omega
  | succ fuel ih =>
    have hread := reads_piece p t (some (p, t))
    unfold afterStar
    cases hpiece : piece p t with
    | ended accepted =>
      rw [hpiece] at hread
      exact hread
    | star p' t' =>
      rw [hpiece] at hread
      obtain ⟨hp, ht, hnext⟩ := hread
      dsimp only at hp ht
      exact hnext _ (ih p' t' (by omega))
    | mismatch =>
      rw [hpiece] at hread
      obtain ⟨htext, -, hnext⟩ := hread
      obtain ⟨x, rest, rfl⟩ := List.exists_cons_of_ne_nil htext
      rw [List.length_cons] at h
      exact hnext p (x :: rest) rfl _ (ih p rest (by omega))

theorem comes_matchesChars (p t : List Char) : (start p t).Comes (matchesChars p t) := by
  have hread := reads_piece p t none
  unfold matchesChars
  cases hpiece : piece p t with
  | ended accepted =>
    rw [hpiece] at hread
    exact hread
  | star p' t' =>
    rw [hpiece] at hread
    obtain ⟨hp, ht, hnext⟩ := hread
    dsimp only at hp ht
    exact hnext _ (comes_afterStar p' t' (by omega))
  | mismatch =>
    rw [hpiece] at hread
    exact hread.2.1 rfl

/-- The scan comes to the matcher's answer, which is whether the text is in the language. -/
theorem answer?_start (p t : List Char) :
    (start p t).answer? ((p.length + 1) * (t.length + 1)) = some (matchesChars p t) ∧
      (matchesChars p t = true ↔ Matches p t) := by
  obtain ⟨answer, hanswer, hiff⟩ := (sound_start p t).answers (ahead_start p t)
  obtain rfl : answer = matchesChars p t := Comes.unique ⟨_, hanswer⟩ (comes_matchesChars p t)
  exact ⟨hanswer, hiff⟩

end Scan

theorem matchesChars_iff {p t : List Char} : matchesChars p t = true ↔ Matches p t := (Scan.answer?_start p t).2

/-- For every pattern and text the scan, which goes back to no star but the last, comes to
    an answer within as many turns as the two lengths allow; it is the matcher's, and it
    is yes just if the whole text is in the pattern's language. -/
theorem accepts_exactly_language (pattern text : String) :
    (Scan.start pattern.toList text.toList).answer? ((pattern.length + 1) * (text.length + 1)) =
        some (accepts pattern text) ∧
      (accepts pattern text = true ↔ Matches pattern.toList text.toList) :=
  Scan.answer?_start pattern.toList text.toList

/-- The first `ED` that fits is the wrong one for the star before it. -/
example : accepts "*ED*ED" "FAILED_RETRIED" = true ∧ accepts "*ED*ED" "FAILED" = false := by decide

end Switchyard.Pattern
