import Mathlib.Algebra.Group.Nat.Defs
import Switchyard.Instant

/-
  Switchyard.Proofs.Instant — an instant is read back from its written forms.

  A field of fixed width is read as the number it was written from
  (`readNumber_padded`), and a fraction is read to the nanosecond whichever of its four
  lengths it was given (`readOptionalFraction_fractionText`). So either written form tells
  the instant to the reader it is for (`parse?_offset`, `parseLoose?_zulu`) as long as its
  year takes four digits and a second is longer than a billion nanoseconds only at the
  end of a minute, as leap seconds are.
-/

namespace Switchyard

/-! ## Digits -/

namespace Text

theorem digitValue?_of_isDigit {c : Char} (h : c.isDigit = true) : digitValue? c = some (c.toNat - '0'.toNat) := by
  simp only [Char.isDigit, Bool.and_eq_true, decide_eq_true_eq] at h
  exact if_pos h

theorem toList_padded (width n : Nat) :
    (padded width n).toList =
      List.replicate (width - (Nat.toDigits 10 n).length) '0' ++ Nat.toDigits 10 n := by
  have hlength : (toString n).length = (Nat.toDigits 10 n).length := by
    rw [← String.length_toList]
    exact congrArg List.length Nat.toList_repr
  rw [padded, String.toList_append, String.toList_ofList, hlength]
  exact congrArg _ Nat.toList_repr

theorem isDigit_of_mem_padded {width n : Nat} {c : Char} (h : c ∈ (padded width n).toList) : c.isDigit = true := by
  rw [toList_padded] at h
  rcases List.mem_append.mp h with h | h
  · rw [(List.mem_replicate.mp h).2]
    rfl
  · exact Nat.isDigit_of_mem_toDigits (by decide) (by decide) h

theorem length_padded {width n : Nat} (hwidth : 0 < width) (hn : n < 10 ^ width) : (padded width n).toList.length = width := by
  have hle : (Nat.toDigits 10 n).length ≤ width := (Nat.length_toDigits_le_iff (by decide) hwidth).mpr hn
  rw [toList_padded, List.length_append, List.length_replicate, Nat.sub_add_cancel hle]

theorem ofDigitChars_padded (width n : Nat) : Nat.ofDigitChars 10 (padded width n).toList 0 = n := by
  rw [toList_padded, Nat.ofDigitChars_append, Nat.ofDigitChars_replicate_zero, Nat.mul_zero, Nat.ofDigitChars_ten_toDigits]

end Text

namespace Instant

open Text (padded)

def Ends (rest : List Char) : Prop := ∀ c ∈ rest.head?, (Text.digitValue? c).isSome = false

theorem takeWhile_digits {ds rest : List Char} (hds : ∀ c ∈ ds, c.isDigit = true) (hend : Ends rest) :
    (ds ++ rest).takeWhile (fun c => (Text.digitValue? c).isSome) = ds := by
  rw [List.takeWhile_append_of_pos fun c hc => by rw [Text.digitValue?_of_isDigit (hds c hc)]; rfl]
  cases rest with
  | nil => simp
  | cons c rest => simp [hend c rfl]

theorem foldl_digits {ds : List Char} (hds : ∀ c ∈ ds, c.isDigit = true) (acc : Nat) :
    ds.foldl (fun acc c => acc * 10 + (Text.digitValue? c).getD 0) acc = Nat.ofDigitChars 10 ds acc := by
  induction ds generalizing acc with
  | nil => rfl
  | cons c rest ih =>
    rw [List.foldl_cons, Nat.ofDigitChars_cons, ih fun c hc => hds c (List.mem_cons_of_mem _ hc),
      Text.digitValue?_of_isDigit (hds c List.mem_cons_self), Option.getD_some, Nat.mul_comm]

/-- Digits are read as far as they go, or as many as are wanted. -/
theorem readNumber_digits {least most : Nat} {ds rest : List Char} (hds : ∀ c ∈ ds, c.isDigit = true)
    (hleast : least ≤ ds.length) (hmost : ds.length = most ∨ (ds.length ≤ most ∧ Ends rest)) :
    readNumber least most (ds ++ rest) = some (Nat.ofDigitChars 10 ds 0, rest) := by
  have htaken : ((ds ++ rest).take most).takeWhile (fun c => (Text.digitValue? c).isSome) = ds := by
    rcases hmost with rfl | ⟨hmost, hend⟩
    · rw [List.take_left]
      have hall : (ds ++ []).takeWhile (fun c => (Text.digitValue? c).isSome) = ds := takeWhile_digits hds nofun
      rwa [List.append_nil] at hall
    · rw [List.take_append, List.take_of_length_le hmost]
      refine takeWhile_digits hds fun c hc => hend c ?_
      cases rest with
      | nil => simp at hc
      | cons x rest => cases h : most - ds.length <;> simp_all
  rw [readNumber, htaken, if_neg (Nat.not_lt.mpr hleast), foldl_digits hds, List.drop_left]

/-- A number of fixed width is read back. -/
theorem readNumber_padded {width n : Nat} (hwidth : 0 < width) (hn : n < 10 ^ width) (rest : List Char) :
    readNumber width width ((padded width n).toList ++ rest) = some (n, rest) := by
  have hlength := Text.length_padded hwidth hn
  rw [readNumber_digits (fun c => Text.isDigit_of_mem_padded) (Nat.le_of_eq hlength.symm) (Or.inl hlength),
    Text.ofDigitChars_padded]

/-! ## Fractions of a second -/

theorem readFraction_padded {width n : Nat} (hwidth : 0 < width) (hwidth' : width ≤ 9) (hn : n < 10 ^ width)
    {rest : List Char} (hend : Ends rest) :
    readFraction ((padded width n).toList ++ rest) = some (n * 10 ^ (9 - width), rest) := by
  have hlength := Text.length_padded hwidth hn
  have hread : readNumber 1 9 ((padded width n).toList ++ rest) = some (n, rest) := by
    rw [readNumber_digits (fun c => Text.isDigit_of_mem_padded) (by omega) (Or.inr ⟨by omega, hend⟩),
      Text.ofDigitChars_padded]
  have hdrop : rest.dropWhile (fun c => (Text.digitValue? c).isSome) = rest := by
    cases rest with
    | nil => rfl
    | cons c rest => simp [hend c rfl]
  simp only [readFraction, hread, Option.bind_eq_bind, Option.bind_some, hdrop, List.length_append, hlength,
    Nat.add_sub_cancel]
  rfl

/-- A fraction is read back to the nanosecond, whatever its length is. -/
theorem readOptionalFraction_fractionText {nano : Nat} (hnano : nano < nanosPerSecond) {c : Char} {rest : List Char}
    (hc : (Text.digitValue? c).isSome = false) (hpoint : c ≠ '.') :
    readOptionalFraction ((fractionText nano).toList ++ c :: rest) = some (nano, c :: rest) := by
  have hend : Ends (c :: rest) := fun x hx => by cases hx; exact hc
  have hdigits {width n : Nat} (hwidth : 0 < width) (hwidth' : width ≤ 9) (hn : n < 10 ^ width) :
      readOptionalFraction (("." ++ padded width n).toList ++ c :: rest) = some (n * 10 ^ (9 - width), c :: rest) := by
    rw [String.toList_append]
    exact readFraction_padded hwidth hwidth' hn hend
  simp only [nanosPerSecond] at hnano
  by_cases hzero : nano = 0
  · rw [fractionText, if_pos hzero, hzero]
    exact readOptionalFraction.eq_2 (c :: rest) fun rest' heq => hpoint (List.head_eq_of_cons_eq heq)
  by_cases hmillis : nano % nanosPerMilli = 0
  · rw [fractionText, if_neg hzero, if_pos hmillis]
    simp only [nanosPerMilli] at hmillis ⊢
    rw [hdigits (by decide) (by decide) (by omega)]
    congr 2
    omega
  by_cases hmicros : nano % nanosPerMicro = 0
  · rw [fractionText, if_neg hzero, if_neg hmillis, if_pos hmicros]
    simp only [nanosPerMicro] at hmicros ⊢
    rw [hdigits (by decide) (by decide) (by omega)]
    congr 2
    omega
  · rw [fractionText, if_neg hzero, if_neg hmillis, if_neg hmicros]
    rw [hdigits (by decide) (by decide) hnano, Nat.sub_self, Nat.pow_zero, Nat.mul_one]

/-! ## Instants -/

/-- A real time of a year of four digits: a second that is longer than the others is a
    leap second, at the end of its minute. -/
structure Regular (t : Instant) : Prop where
  valid : t.isValid = true
  early : 0 ≤ t.year
  late : t.year ≤ 9999
  leap : nanosPerSecond ≤ t.nano → t.second = 59

theorem Regular.ofFields_eq {t : Instant} (h : t.Regular) :
    ofFields t.year t.month t.day t.hour t.minute (t.second + t.nano / nanosPerSecond) (t.nano % nanosPerSecond) 0 =
      some t := by
  have hvalid := h.valid
  have hearly := h.early
  have hlate := h.late
  have hleap := h.leap
  simp only [isValid, Bool.and_eq_true, decide_eq_true_eq] at hvalid
  obtain ⟨⟨-, hsecond⟩, hnano⟩ := hvalid
  have hyear : t.year.natAbs ≤ 262142 := by omega
  simp only [nanosPerSecond] at hnano hleap ⊢
  simp only [ofFields, atOffset, if_true]
  by_cases hlong : 1000000000 ≤ t.nano
  · have hsixty : t.second + t.nano / 1000000000 = 60 := by omega
    have hfull : (⟨t.year, t.month, t.day, t.hour, t.minute, 59, t.nano % 1000000000 + 1000000000⟩ : Instant) = t := by
      rw [← hleap hlong, show t.nano % 1000000000 + 1000000000 = t.nano by omega]
    simp [hsixty, nanosPerSecond, hfull, h.valid, hyear]
  · have hsame : t.second + t.nano / 1000000000 = t.second := by omega
    have hrest : t.nano % 1000000000 = t.nano := by omega
    simp only [hsame, hrest, if_neg (show ¬ 60 < t.second by omega), if_neg (show t.second ≠ 60 by omega), h.valid, hyear]
    simp

/-- The fields of a real time have two digits each. -/
theorem Regular.fields_lt {t : Instant} (h : t.Regular) :
    t.month < 100 ∧ t.day < 100 ∧ t.hour < 100 ∧ t.minute < 100 ∧ t.second + t.nano / nanosPerSecond < 100 := by
  have hvalid := h.valid
  simp only [isValid, Bool.and_eq_true, decide_eq_true_eq] at hvalid
  obtain ⟨⟨⟨⟨⟨⟨⟨-, hmonth⟩, -⟩, hday⟩, hhour⟩, hminute⟩, hsecond⟩, hnano⟩ := hvalid
  have hdays : daysInMonth t.year t.month ≤ 31 := by
    unfold daysInMonth
    split <;> try split
    all_goals decide
  simp only [nanosPerSecond] at hnano ⊢
  omega

theorem Regular.yearText_eq {t : Instant} (h : t.Regular) : yearText t.year = padded 4 t.year.toNat :=
  if_pos ⟨h.early, h.late⟩

theorem Regular.year_lt {t : Instant} (h : t.Regular) : t.year.toNat < 10 ^ 4 := by
  have hlate := h.late
  omega

/-- The form with an offset tells the instant. -/
theorem parse?_offset {t : Instant} (h : t.Regular) : parse? t.offset = some t := by
  obtain ⟨hmonth, hday, hhour, hminute, hsecond⟩ := h.fields_lt
  have hyear : ((t.year.toNat : Nat) : Int) = t.year := Int.toNat_of_nonneg h.early
  have hoffset : readOffset (readChar ':') "+00:00".toList = some (0, []) := by decide
  have hfraction : readOptionalFraction ((fractionText (t.nano % nanosPerSecond)).toList ++ "+00:00".toList) =
      some (t.nano % nanosPerSecond, "+00:00".toList) :=
    readOptionalFraction_fractionText (Nat.mod_lt _ (by decide)) (by decide) (by decide)
  have htwo {n : Nat} (hn : n < 100) (rest : List Char) : readNumber 2 2 ((padded 2 n).toList ++ rest) = some (n, rest) :=
    readNumber_padded (by decide) hn rest
  have hfour (rest : List Char) : readNumber 4 4 ((padded 4 t.year.toNat).toList ++ rest) = some (t.year.toNat, rest) :=
    readNumber_padded (by decide) h.year_lt rest
  have hdash (rest : List Char) : readChar '-' ("-".toList ++ rest) = some rest := rfl
  have hcolon (rest : List Char) : readChar ':' (":".toList ++ rest) = some rest := rfl
  have hletter (rest : List Char) : separator ("T".toList ++ rest) = some rest := rfl
  rw [parse?, offset, plain, dateText, clockText, h.yearText_eq]
  simp only [String.toList_append, List.append_assoc, Option.bind_eq_bind, Option.bind_some, hfour, hdash, hcolon, hletter,
    htwo hmonth, htwo hday, htwo hhour, htwo hminute, htwo hsecond, hfraction, hoffset]
  rw [if_pos List.isEmpty_nil, hyear]
  exact h.ofFields_eq

/-! ## The loose reader

It also takes fields in their full width, with nothing between them. -/

theorem trimStart_digits {ds rest : List Char} (hds : ∀ c ∈ ds, c.isDigit = true) (hlength : 0 < ds.length) :
    Text.trimStart (ds ++ rest) = ds ++ rest := by
  cases ds with
  | nil => cases hlength
  | cons c ds =>
    have hdigit := hds c List.mem_cons_self
    have hblank : Text.isBlank c = false := by
      simp only [Char.isDigit, Bool.and_eq_true, decide_eq_true_eq, ge_iff_le, UInt32.le_iff_toNat_le] at hdigit
      obtain ⟨hlow, hhigh⟩ := hdigit
      change 48 ≤ c.toNat at hlow
      change c.toNat ≤ 57 at hhigh
      simp [Text.isBlank, Text.blankRanges]
      omega
    simp [Text.trimStart, hblank]

theorem readLoose_padded {width n : Nat} (hwidth : 0 < width) (hn : n < 10 ^ width) (rest : List Char) :
    readNumber 1 width (Text.trimStart ((padded width n).toList ++ rest)) = some (n, rest) := by
  have hlength := Text.length_padded hwidth hn
  rw [trimStart_digits (fun c => Text.isDigit_of_mem_padded) (by omega),
    readNumber_digits (fun c => Text.isDigit_of_mem_padded) (by omega) (Or.inl hlength), Text.ofDigitChars_padded]

theorem readLooseYear_padded {n : Nat} (hn : n < 10 ^ 4) (rest : List Char) :
    readLooseYear ((padded 4 n).toList ++ rest) = some ((n : Int), rest) := by
  have hlength : (padded 4 n).toList.length = 4 := Text.length_padded (by decide) hn
  have hread := readLoose_padded (by decide) hn rest
  have htrim : Text.trimStart ((padded 4 n).toList ++ rest) = (padded 4 n).toList ++ rest :=
    trimStart_digits (fun c => Text.isDigit_of_mem_padded) (by omega)
  have hsign {c : Char} {tail : List Char} (h : Text.trimStart ((padded 4 n).toList ++ rest) = c :: tail) :
      c.isDigit = true := by
    obtain ⟨d, ds, hds⟩ := List.exists_cons_of_length_pos (l := (padded 4 n).toList) (by omega)
    rw [htrim, hds, List.cons_append] at h
    have hmem : c ∈ (padded 4 n).toList := hds ▸ List.head_eq_of_cons_eq h ▸ List.mem_cons_self
    exact Text.isDigit_of_mem_padded hmem
  unfold readLooseYear
  split
  next heq => exact absurd (hsign heq) (by decide)
  next heq => exact absurd (hsign heq) (by decide)
  next => rw [hread]; rfl

/-- The form that ends in the letter tells the instant. -/
theorem parseLoose?_zulu {t : Instant} (h : t.Regular) : parseLoose? t.zulu = some t := by
  obtain ⟨hmonth, hday, hhour, hminute, hsecond⟩ := h.fields_lt
  have hyear : ((t.year.toNat : Nat) : Int) = t.year := Int.toNat_of_nonneg h.early
  have hoffset : readLooseOffset (Text.trimStart "Z".toList) = some (0, []) := by decide
  have hfraction : readOptionalFraction ((fractionText (t.nano % nanosPerSecond)).toList ++ "Z".toList) =
      some (t.nano % nanosPerSecond, "Z".toList) :=
    readOptionalFraction_fractionText (Nat.mod_lt _ (by decide)) (by decide) (by decide)
  have htwo {n : Nat} (hn : n < 100) (rest : List Char) : readLooseField ((padded 2 n).toList ++ rest) = some (n, rest) :=
    readLoose_padded (by decide) hn rest
  have hfour (rest : List Char) : readLooseYear ((padded 4 t.year.toNat).toList ++ rest) = some (t.year, rest) := by
    rw [readLooseYear_padded h.year_lt, hyear]
  have hdash (rest : List Char) : readChar '-' (Text.trimStart ("-".toList ++ rest)) = some rest := rfl
  have hcolon (rest : List Char) : readChar ':' (Text.trimStart (":".toList ++ rest)) = some rest := rfl
  have hletter (rest : List Char) : separator ("T".toList ++ rest) = some rest := rfl
  rw [parseLoose?, zulu, plain, dateText, clockText, h.yearText_eq]
  simp only [String.toList_append, List.append_assoc, Option.bind_eq_bind, Option.bind_some, hfour, hdash, hcolon, hletter,
    htwo hmonth, htwo hday, htwo hhour, htwo hminute, htwo hsecond, hfraction, hoffset]
  rw [if_pos (by rfl)]
  exact h.ofFields_eq

end Instant

end Switchyard
