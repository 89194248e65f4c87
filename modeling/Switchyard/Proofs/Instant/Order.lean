import Switchyard.Proofs.Identity.Encoding
import Switchyard.Proofs.Instant

/-
  Switchyard.Proofs.Instant.Order — the text of an instant sorts as the instant does.

  A field of fixed width sorts as its number (`compare_padded`), so the text of an instant
  sorts field by field, from the year down, as the instant does. The fraction of a second is
  the one part whose width differs. It is written in groups of three digits, up to the last
  one that is not zero (`toList_fractionText`), and what stands behind it is the sign of the
  offset, which sorts below the point and below every digit. So a fraction that ends sooner
  sorts below one that goes on (`compare_groups`).

  - `compare_offset`: the texts of two instants compare as the instants.
  - `compare_bytes_offset`: so do the bytes of the texts.
-/

namespace Switchyard

/-! ## Comparing lists and numbers -/

section Comparing

variable {α β : Type} [Ord α] [Ord β]

/-- Of lists that begin with parts of one length, those parts are compared first. -/
theorem compare_append {l l' : List α} (h : l.length = l'.length) (r r' : List α) :
    Ord.compare (l ++ r) (l' ++ r') = (Ord.compare l l').then (Ord.compare r r') := by
  induction l generalizing l' with
  | nil =>
    cases l' with
    | nil => simp
    | cons y l' => cases h
  | cons x l ih =>
    cases l' with
    | nil => cases h
    | cons y l' =>
      rw [List.cons_append, List.cons_append, List.compare_cons_cons, List.compare_cons_cons, ih (Nat.succ.inj h),
        Ordering.then_assoc]

/-- Lists compare as their images under what keeps the order of their elements. -/
theorem compare_map {f : α → β} {l l' : List α} (h : ∀ x ∈ l, ∀ y ∈ l', Ord.compare (f x) (f y) = Ord.compare x y) :
    Ord.compare (l.map f) (l'.map f) = Ord.compare l l' := by
  induction l generalizing l' with
  | nil => cases l' <;> simp
  | cons x l ih =>
    cases l' with
    | nil => simp
    | cons y l' =>
      rw [List.map_cons, List.map_cons, List.compare_cons_cons, List.compare_cons_cons,
        h x List.mem_cons_self y List.mem_cons_self,
        ih fun x hx y hy => h x (List.mem_cons_of_mem _ hx) y (List.mem_cons_of_mem _ hy)]

end Comparing

/-- Numbers compare alike if what is said of them by the one pair is said by the other. -/
theorem compare_nat_congr {m n m' n' : Nat} (hlt : m < n ↔ m' < n') (heq : m = n ↔ m' = n') :
    Ord.compare m n = Ord.compare m' n' := by
  show compareOfLessAndEq m n = compareOfLessAndEq m' n'
  simp only [compareOfLessAndEq, hlt, heq]

/-- A number in two places compares by the higher place first. -/
theorem compare_places {k v w x y : Nat} (hx : x < k) (hy : y < k) :
    Ord.compare (k * v + x) (k * w + y) = (Ord.compare v w).then (Ord.compare x y) := by
  rcases Nat.lt_trichotomy v w with h | rfl | h
  · have hk : k * (v + 1) ≤ k * w := Nat.mul_le_mul_left k h
    rw [Nat.mul_add] at hk
    rw [Nat.compare_eq_lt.mpr h, Ordering.lt_then, Nat.compare_eq_lt]
    omega
  · rw [Nat.compare_eq_eq.mpr rfl, Ordering.eq_then]
    exact compare_nat_congr (by omega) (by omega)
  · have hk : k * (w + 1) ≤ k * v := Nat.mul_le_mul_left k h
    rw [Nat.mul_add] at hk
    rw [Nat.compare_eq_gt.mpr h, Ordering.gt_then, Nat.compare_eq_gt]
    omega

/-! ## Bytes -/

namespace Text

theorem compare_char (c d : Char) : Ord.compare c d = Ord.compare c.toNat d.toNat := by
  have hlt : c < d ↔ c.toNat < d.toNat := Iff.rfl
  have heq : c = d ↔ c.toNat = d.toNat := Char.toNat_inj.symm
  show compareOfLessAndEq c d = compareOfLessAndEq c.toNat d.toNat
  simp only [compareOfLessAndEq, hlt, heq]

/-- A text is less than another if it comes first character by character. -/
theorem compare_toList_lt_iff {l l' : List Char} : Ord.compare l l' = .lt ↔ l < l' := by
  induction l generalizing l' with
  | nil => cases l' <;> simp
  | cons c l ih =>
    cases l' with
    | nil => simp
    | cons d l' =>
      have hlt : Ord.compare c d = .lt ↔ c < d := by rw [compare_char, Nat.compare_eq_lt]; exact Iff.rfl
      have heq : Ord.compare c d = .eq ↔ c = d := by rw [compare_char, Nat.compare_eq_eq]; exact Char.toNat_inj
      rw [List.compare_cons_cons, Ordering.then_eq_lt, hlt, heq, ih, List.cons_lt_cons_iff]

def Narrow (s : String) : Prop := ∀ c ∈ s.toList, c.toNat ≤ 127

theorem toList_toUTF8_of_narrow {s : String} (h : Narrow s) :
    s.toUTF8.toList = s.toList.map fun c => UInt8.ofNat c.toNat := by
  have hbytes {l : List Char} (hl : ∀ c ∈ l, c.toNat ≤ 127) :
      l.flatMap String.utf8EncodeChar = l.map fun c => UInt8.ofNat c.toNat := by
    induction l with
    | nil => rfl
    | cons c l ih =>
      rw [List.flatMap_cons, List.map_cons, ih fun d hd => hl d (List.mem_cons_of_mem _ hd)]
      exact congrArg (· ++ _) (if_pos (hl c List.mem_cons_self))
  rw [InstanceId.toList_toUTF8, ← String.utf8Encode_toList, List.utf8Encode, List.data_toByteArray, hbytes h]

/-- Texts of which every character is one byte compare as their bytes. -/
theorem compare_toUTF8 {s t : String} (hs : Narrow s) (ht : Narrow t) :
    Ord.compare s.toUTF8.toList t.toUTF8.toList = Ord.compare s.toList t.toList := by
  rw [toList_toUTF8_of_narrow hs, toList_toUTF8_of_narrow ht]
  refine compare_map fun c hc d hd => ?_
  have hc' : (UInt8.ofNat c.toNat).toNat = c.toNat := UInt8.toNat_ofNat_of_lt' (Nat.lt_of_le_of_lt (hs c hc) (by decide))
  have hd' : (UInt8.ofNat d.toNat).toNat = d.toNat := UInt8.toNat_ofNat_of_lt' (Nat.lt_of_le_of_lt (ht d hd) (by decide))
  have hlt : UInt8.ofNat c.toNat < UInt8.ofNat d.toNat ↔ c.toNat < d.toNat := by rw [UInt8.lt_iff_toNat_lt, hc', hd']
  have heq : UInt8.ofNat c.toNat = UInt8.ofNat d.toNat ↔ c.toNat = d.toNat := by rw [← UInt8.toNat_inj, hc', hd']
  rw [compare_char]
  show compareOfLessAndEq _ _ = compareOfLessAndEq c.toNat d.toNat
  simp only [compareOfLessAndEq, hlt, heq]

end Text

/-! ## Digits -/

namespace Text

/-- The code of a digit. -/
theorem toNat_of_isDigit {c : Char} (h : c.isDigit = true) : 48 ≤ c.toNat ∧ c.toNat ≤ 57 := by
  simpa [Char.isDigit, UInt32.le_iff_toNat_le] using h

/-- The first digit counts by the place that it stands in. -/
theorem ofDigitChars_place (d : Char) (ds : List Char) :
    Nat.ofDigitChars 10 (d :: ds) 0 = 10 ^ ds.length * (d.toNat - 48) + Nat.ofDigitChars 10 ds 0 := by
  rw [Nat.ofDigitChars_cons, Nat.ofDigitChars_eq_ofDigitChars_zero, Nat.mul_zero, Nat.zero_add]
  rfl

theorem ofDigitChars_lt {ds : List Char} (h : ∀ c ∈ ds, c.isDigit = true) : Nat.ofDigitChars 10 ds 0 < 10 ^ ds.length := by
  induction ds with
  | nil => decide
  | cons d ds ih =>
    have hd := toNat_of_isDigit (h d List.mem_cons_self)
    have hds := ih fun c hc => h c (List.mem_cons_of_mem _ hc)
    have hvalue : 10 ^ ds.length * (d.toNat - 48) ≤ 10 ^ ds.length * 9 := Nat.mul_le_mul_left _ (by omega)
    rw [ofDigitChars_place, List.length_cons, Nat.pow_succ]
    omega

/-- As many digits compare as the numbers that they stand for. -/
theorem compare_digits {ds es : List Char} (hds : ∀ c ∈ ds, c.isDigit = true) (hes : ∀ c ∈ es, c.isDigit = true)
    (hlength : ds.length = es.length) :
    Ord.compare ds es = Ord.compare (Nat.ofDigitChars 10 ds 0) (Nat.ofDigitChars 10 es 0) := by
  induction ds generalizing es with
  | nil =>
    cases es with
    | nil => rfl
    | cons e es => cases hlength
  | cons d ds ih =>
    cases es with
    | nil => cases hlength
    | cons e es =>
      have hd := toNat_of_isDigit (hds d List.mem_cons_self)
      have he := toNat_of_isDigit (hes e List.mem_cons_self)
      have hds' := fun c hc => hds c (List.mem_cons_of_mem _ hc)
      have hes' := fun c hc => hes c (List.mem_cons_of_mem _ hc)
      have hlength' : ds.length = es.length := Nat.succ.inj hlength
      have hvalues : Ord.compare d e = Ord.compare (d.toNat - 48) (e.toNat - 48) :=
        (compare_char d e).trans (compare_nat_congr (by omega) (by omega))
      rw [List.compare_cons_cons, hvalues, ih hds' hes' hlength', ofDigitChars_place, ofDigitChars_place, hlength',
        compare_places (hlength' ▸ ofDigitChars_lt hds') (ofDigitChars_lt hes')]

variable {width m n : Nat}

theorem compare_padded (hwidth : 0 < width) (hm : m < 10 ^ width) (hn : n < 10 ^ width) :
    Ord.compare (padded width m).toList (padded width n).toList = Ord.compare m n := by
  rw [compare_digits (fun c => isDigit_of_mem_padded) (fun c => isDigit_of_mem_padded)
    ((length_padded hwidth hm).trans (length_padded hwidth hn).symm), ofDigitChars_padded, ofDigitChars_padded]

/-- A field of fixed width in front of the rest of a text. -/
theorem compare_field (hwidth : 0 < width) (hm : m < 10 ^ width) (hn : n < 10 ^ width) (r r' : List Char) :
    Ord.compare ((padded width m).toList ++ r) ((padded width n).toList ++ r') =
      (Ord.compare m n).then (Ord.compare r r') := by
  rw [compare_append ((length_padded hwidth hm).trans (length_padded hwidth hn).symm), compare_padded hwidth hm hn]

/-- A number of fixed width is its higher and its lower places. -/
theorem toList_padded_add {high low : Nat} (hhigh : 0 < high) (hlow : 0 < low) (hn : n < 10 ^ (high + low)) :
    (padded (high + low) n).toList = (padded high (n / 10 ^ low)).toList ++ (padded low (n % 10 ^ low)).toList := by
  have hupper : n / 10 ^ low < 10 ^ high := by
    rw [Nat.div_lt_iff_lt_mul (Nat.pos_of_ne_zero (by simp)), ← Nat.pow_add]
    exact hn
  have hlower : n % 10 ^ low < 10 ^ low := Nat.mod_lt _ (Nat.pos_of_ne_zero (by simp))
  have hdigits : ∀ c ∈ (padded high (n / 10 ^ low)).toList ++ (padded low (n % 10 ^ low)).toList, c.isDigit = true := by
    intro c hc
    rcases List.mem_append.mp hc with hc | hc <;> exact isDigit_of_mem_padded hc
  refine Std.LawfulEqOrd.eq_of_compare ?_
  rw [compare_digits (fun c => isDigit_of_mem_padded) hdigits, ofDigitChars_padded, Nat.ofDigitChars_append,
    ofDigitChars_padded, Nat.ofDigitChars_eq_ofDigitChars_zero, ofDigitChars_padded, length_padded hlow hlower,
    Nat.div_add_mod, Nat.compare_eq_eq]
  rw [List.length_append, length_padded (by omega) hn, length_padded hhigh hupper, length_padded hlow hlower]

end Text

namespace Instant

open Text (padded)

/-! ## Fractions of a second -/

/-- What begins with a character behind the plus sign sorts behind what begins with the
    plus sign. -/
theorem compare_plus {c : Char} (h : '+'.toNat < c.toNat) (r l : List Char) :
    Ord.compare ('+' :: r) (c :: l) = .lt ∧ Ord.compare (c :: l) ('+' :: r) = .gt := by
  rw [List.compare_cons_cons, List.compare_cons_cons, Text.compare_char, Text.compare_char, Nat.compare_eq_lt.mpr h,
    Nat.compare_eq_gt.mpr h]
  exact ⟨rfl, rfl⟩

/-- The places of a number by threes, up to the last three that are not all zero. -/
def groups : Nat → Nat → List Char
  | 0, _ => []
  | count + 1, n =>
    if n = 0 then [] else (padded 3 (n / 1000 ^ count)).toList ++ groups count (n % 1000 ^ count)

/-- Between no fraction and a fraction that begins behind the plus sign, the text decides as
    the numbers do; `h` is for two fractions. -/
theorem compare_fractions {m n : Nat} {x y r : List Char} (hx : m ≠ 0 → ∃ c l, x = c :: l ∧ '+'.toNat < c.toNat)
    (hy : n ≠ 0 → ∃ c l, y = c :: l ∧ '+'.toNat < c.toNat)
    (h : m ≠ 0 → n ≠ 0 → Ord.compare (x ++ '+' :: r) (y ++ '+' :: r) = Ord.compare m n) :
    Ord.compare ((if m = 0 then [] else x) ++ '+' :: r) ((if n = 0 then [] else y) ++ '+' :: r) = Ord.compare m n := by
  by_cases hm : m = 0 <;> by_cases hn : n = 0
  · rw [if_pos hm, if_pos hn, hm, hn, Std.compare_self, Std.compare_self]
  · obtain ⟨c, l, rfl, hc⟩ := hy hn
    rw [if_pos hm, if_neg hn, hm, Nat.compare_eq_lt.mpr (Nat.pos_of_ne_zero hn)]
    exact (compare_plus hc _ _).1
  · obtain ⟨c, l, rfl, hc⟩ := hx hm
    rw [if_neg hm, if_pos hn, hn, Nat.compare_eq_gt.mpr (Nat.pos_of_ne_zero hm)]
    exact (compare_plus hc _ _).2
  · rw [if_neg hm, if_neg hn]
    exact h hm hn

theorem head_padded {width n : Nat} (hwidth : 0 < width) (hn : n < 10 ^ width) (rest : List Char) :
    ∃ c l, (padded width n).toList ++ rest = c :: l ∧ '+'.toNat < c.toNat := by
  have hlength := Text.length_padded hwidth hn
  obtain ⟨c, l, hl⟩ := List.exists_cons_of_length_pos (l := (padded width n).toList) (by omega)
  have hc : c.isDigit = true := @Text.isDigit_of_mem_padded width n c (hl ▸ List.mem_cons_self)
  refine ⟨c, l ++ rest, by rw [hl, List.cons_append], ?_⟩
  show 43 < c.toNat
  have := Text.toNat_of_isDigit hc
  omega

/-- Groups that end sooner sort below those that go on, for the plus sign behind them is below
    every digit. -/
theorem compare_groups (count : Nat) {m n : Nat} (hm : m < 1000 ^ count) (hn : n < 1000 ^ count) (r : List Char) :
    Ord.compare (groups count m ++ '+' :: r) (groups count n ++ '+' :: r) = Ord.compare m n := by
  induction count generalizing m n with
  | zero =>
    obtain rfl : m = 0 := by omega
    obtain rfl : n = 0 := by omega
    rw [Std.compare_self, Std.compare_self]
  | succ count ih =>
    have hpos : 0 < 1000 ^ count := Nat.pow_pos (by decide)
    have hupper {k : Nat} (hk : k < 1000 ^ (count + 1)) : k / 1000 ^ count < 10 ^ 3 :=
      Nat.div_lt_of_lt_mul hk
    have hlower {k : Nat} : k % 1000 ^ count < 1000 ^ count := Nat.mod_lt _ hpos
    refine compare_fractions (fun _ => head_padded (by decide) (hupper hm) _)
      (fun _ => head_padded (by decide) (hupper hn) _) fun _ _ => ?_
    rw [List.append_assoc, List.append_assoc, Text.compare_field (by decide) (hupper hm) (hupper hn), ih hlower hlower,
      ← compare_places hlower hlower, Nat.div_add_mod, Nat.div_add_mod]

theorem groups_three (n : Nat) : groups 3 n = if n = 0 then [] else (padded 3 (n / 1000000)).toList ++
    if n % 1000000 = 0 then [] else (padded 3 (n % 1000000 / 1000)).toList ++
      if n % 1000000 % 1000 = 0 then [] else (padded 3 (n % 1000000 % 1000)).toList := by
  simp only [groups, Nat.reducePow, Nat.pow_zero, Nat.div_one, List.append_nil]

/-- Six places are two groups. -/
theorem toList_padded_six {n : Nat} (hn : n < 1000000) :
    (padded 6 n).toList = (padded 3 (n / 1000)).toList ++ (padded 3 (n % 1000)).toList :=
  @Text.toList_padded_add n 3 3 (by decide) (by decide) hn

/-- A fraction is its point and its groups. -/
theorem toList_fractionText {nano : Nat} (hnano : nano < nanosPerSecond) :
    (fractionText nano).toList = if nano = 0 then [] else '.' :: groups 3 nano := by
  have hpoint (s : String) : ("." ++ s).toList = '.' :: s.toList := by rw [String.toList_append]; rfl
  simp only [nanosPerSecond] at hnano
  rw [groups_three, fractionText]
  by_cases hzero : nano = 0
  · rw [if_pos hzero, if_pos hzero]
    rfl
  by_cases hmillis : nano % nanosPerMilli = 0
  · have hdone : nano % 1000000 = 0 := hmillis
    rw [if_neg hzero, if_pos hmillis, if_neg hzero, if_neg hzero, if_pos hdone, List.append_nil, hpoint]
    rfl
  have hrest : nano % 1000000 ≠ 0 := hmillis
  by_cases hmicros : nano % nanosPerMicro = 0
  · have hzeros : nano % 1000 = 0 := hmicros
    have hupper : nano / 1000 / 1000 = nano / 1000000 := by omega
    have hlower : nano / 1000 % 1000 = nano % 1000000 / 1000 := by omega
    have hdone : nano % 1000000 % 1000 = 0 := by omega
    rw [if_neg hzero, if_neg hmillis, if_pos hmicros, if_neg hzero, if_neg hzero, if_neg hrest, if_pos hdone, hpoint,
      List.append_nil, nanosPerMicro, toList_padded_six (by omega), hupper, hlower]
  · have hlast : nano % 1000000 % 1000 ≠ 0 := by
      have hsome : nano % 1000 ≠ 0 := hmicros
      omega
    have hnine : (padded 9 nano).toList = (padded 3 (nano / 1000000)).toList ++ (padded 6 (nano % 1000000)).toList :=
      @Text.toList_padded_add nano 3 6 (by decide) (by decide) hnano
    rw [if_neg hzero, if_neg hmillis, if_neg hmicros, if_neg hzero, if_neg hzero, if_neg hrest, if_neg hlast, hpoint,
      hnine, toList_padded_six (Nat.mod_lt _ (by decide))]

/-- The fractions of two seconds sort as their nanoseconds. -/
theorem compare_fractionText {m n : Nat} (hm : m < nanosPerSecond) (hn : n < nanosPerSecond) (r : List Char) :
    Ord.compare ((fractionText m).toList ++ '+' :: r) ((fractionText n).toList ++ '+' :: r) = Ord.compare m n := by
  rw [toList_fractionText hm, toList_fractionText hn]
  refine compare_fractions (fun _ => ⟨_, _, rfl, by decide⟩) (fun _ => ⟨_, _, rfl, by decide⟩) fun _ _ => ?_
  rw [List.cons_append, List.cons_append, List.compare_cons_cons, Std.compare_self, Ordering.eq_then]
  exact compare_groups 3 hm hn r

/-! ## Instants -/

variable {a b : Instant}

/-- The texts of two instants that are in no leap second compare as the instants. -/
theorem compare_offset (ha : a.Regular) (hb : b.Regular) (hacalm : a.nano < nanosPerSecond)
    (hbcalm : b.nano < nanosPerSecond) : Ord.compare a.offset.toList b.offset.toList = a.compare b := by
  obtain ⟨hmonth, hday, hhour, hminute, hsecond⟩ := ha.fields_lt
  obtain ⟨hmonth', hday', hhour', hminute', hsecond'⟩ := hb.fields_lt
  have hnone : a.nano / nanosPerSecond = 0 := Nat.div_eq_of_lt hacalm
  have hnone' : b.nano / nanosPerSecond = 0 := Nat.div_eq_of_lt hbcalm
  rw [hnone, Nat.add_zero] at hsecond
  rw [hnone', Nat.add_zero] at hsecond'
  have htwo {m n : Nat} (hm : m < 100) (hn : n < 100) (r r' : List Char) := Text.compare_field Nat.two_pos hm hn r r'
  have hmark (mark : String) (r r' : List Char) :
      Ord.compare (mark.toList ++ r) (mark.toList ++ r') = Ord.compare r r' := by
    rw [compare_append rfl, Std.compare_self, Ordering.eq_then]
  have hyear : Ord.compare a.year.toNat b.year.toNat = Ord.compare a.year b.year := by
    have hearly := ha.early
    have hearly' := hb.early
    show compareOfLessAndEq _ _ = compareOfLessAndEq _ _
    simp only [compareOfLessAndEq, show a.year.toNat < b.year.toNat ↔ a.year < b.year by omega,
      show a.year.toNat = b.year.toNat ↔ a.year = b.year by omega]
  simp only [offset, plain, dateText, clockText, ha.yearText_eq, hb.yearText_eq, hnone, hnone', Nat.add_zero,
    Nat.mod_eq_of_lt hacalm, Nat.mod_eq_of_lt hbcalm, String.toList_append, List.append_assoc,
    Text.compare_field (by decide) ha.year_lt hb.year_lt, hmark, htwo hmonth hmonth', htwo hday hday', htwo hhour hhour',
    htwo hminute hminute', htwo hsecond hsecond', hyear]
  rw [compare]
  exact congrArg _ (congrArg _ (congrArg _ (congrArg _ (congrArg _ (congrArg _
    (compare_fractionText hacalm hbcalm "00:00".toList))))))

theorem narrow_offset (ha : a.Regular) : Text.Narrow a.offset := by
  have happend {s t : String} (hs : Text.Narrow s) (ht : Text.Narrow t) : Text.Narrow (s ++ t) := by
    intro c hc
    rw [String.toList_append] at hc
    rcases List.mem_append.mp hc with hc | hc
    · exact hs c hc
    · exact ht c hc
  have hpadded (width n : Nat) : Text.Narrow (padded width n) := by
    intro c hc
    have := Text.toNat_of_isDigit (Text.isDigit_of_mem_padded hc)
    omega
  have hmark {s : String} (h : s.toList.all (·.toNat ≤ 127) = true) : Text.Narrow s := by simpa [Text.Narrow] using h
  have hfraction : Text.Narrow (fractionText (a.nano % nanosPerSecond)) := by
    unfold fractionText
    split
    · exact hmark rfl
    · split
      · exact happend (hmark rfl) (hpadded _ _)
      · split <;> exact happend (hmark rfl) (hpadded _ _)
  have hdate : Text.Narrow a.dateText := by
    rw [dateText, ha.yearText_eq]
    exact happend (happend (happend (happend (hpadded _ _) (hmark rfl)) (hpadded _ _)) (hmark rfl)) (hpadded _ _)
  have hclock : Text.Narrow a.clockText :=
    happend (happend (happend (happend (hpadded _ _) (hmark rfl)) (hpadded _ _)) (hmark rfl)) (hpadded _ _)
  exact happend (happend (happend (happend hdate (hmark rfl)) hclock) hfraction) (hmark rfl)

/-- The bytes of the texts compare as the instants, too. -/
theorem compare_bytes_offset (ha : a.Regular) (hb : b.Regular) (hacalm : a.nano < nanosPerSecond)
    (hbcalm : b.nano < nanosPerSecond) :
    Ord.compare a.offset.toUTF8.toList b.offset.toUTF8.toList = a.compare b := by
  rw [Text.compare_toUTF8 (narrow_offset ha) (narrow_offset hb), compare_offset ha hb hacalm hbcalm]

end Instant

end Switchyard
