import Switchyard.Json.Printer
import Switchyard.Json.Reader
import Switchyard.Proofs.Instant

/-
  Switchyard.Proofs.Json.Text — compact JSON text tells its value.

  A reader takes a token off the front of a text and leaves the rest, so every lemma
  here reads a written part with more text behind it: a string to its closing quote
  (`readString_quote`), a whole number of 64 bits to whatever is no part of a number
  (`readNumber_digits`), and by induction on the fuel a value, the items of an array
  and the members of an object together (`reads`). The reader nests 127 deep, and text
  that stays within that is read back (`parse?_compact`).

  Numbers with a fraction or an exponent are left out: their text is a rounding.
-/

namespace Switchyard.Json

/-! ## Strings -/

theorem hex4?_control {n : Nat} (h : n < 0x20) :
    hex4? '0' '0' (Text.hexDigit (n / 16)) (Text.hexDigit (n % 16)) = some n := by
  revert n
  decide

theorem readString_control {c : Char} (h : c.toNat < 0x20) (acc tail : List Char) :
    readString acc ('\\' :: 'u' :: '0' :: '0' :: Text.hexDigit (c.toNat / 16) :: Text.hexDigit (c.toNat % 16) :: tail) =
      readString (c :: acc) tail := by
  have hlow : isLowSurrogate c.toNat = false := by simp [isLowSurrogate]; omega
  have hhigh : isHighSurrogate c.toNat = false := by simp [isHighSurrogate]; omega
  rw [readString, hex4?_control h]
  simp [hlow, hhigh]

/-- A character is read as itself from what it is escaped to. -/
theorem readString_escapeChar (c : Char) (acc tail : List Char) :
    readString acc (escapeChar c ++ tail) = readString (c :: acc) tail := by
  unfold escapeChar
  by_cases h1 : c = '"'
  · subst h1; simp [readString, simpleEscape?]
  by_cases h2 : c = '\\'
  · subst h2; simp [readString, simpleEscape?]
  by_cases h3 : c = '\x08'
  · subst h3; simp [readString, simpleEscape?]
  by_cases h4 : c = '\x0c'
  · subst h4; simp [readString, simpleEscape?]
  by_cases h5 : c = '\n'
  · subst h5; simp [readString, simpleEscape?]
  by_cases h6 : c = '\r'
  · subst h6; simp [readString, simpleEscape?]
  by_cases h7 : c = '\t'
  · subst h7; simp [readString, simpleEscape?]
  simp only [h1, h2, h3, h4, h5, h6, h7, if_false]
  by_cases h8 : c.toNat < 0x20
  · rw [if_pos h8]
    exact readString_control h8 acc tail
  · rw [if_neg h8]
    simp [readString, h2, h8]

theorem readString_escaped (cs acc rest : List Char) :
    readString acc (cs.flatMap escapeChar ++ '"' :: rest) = some (String.ofList (acc.reverse ++ cs), rest) := by
  induction cs generalizing acc with
  | nil => simp [readString]
  | cons c cs ih =>
    rw [List.flatMap_cons, List.append_assoc, readString_escapeChar, ih]
    simp

theorem readString_quote (s : String) (rest : List Char) :
    readString [] (s.toList.flatMap escapeChar ++ '"' :: rest) = some (s, rest) := by
  rw [readString_escaped]
  simp

/-! ## Whole numbers -/

/-- What may stand behind a number and is no part of it. -/
def Stops (rest : List Char) : Prop :=
  ∀ c ∈ rest.head?, (Text.digitValue? c).isSome = false ∧ c ≠ '.' ∧ c ≠ 'e' ∧ c ≠ 'E'

theorem takeDigits_append {ds rest : List Char} (hds : ∀ c ∈ ds, c.isDigit = true) (hrest : Stops rest) :
    takeDigits (ds ++ rest) = (ds.map fun c => c.toNat - '0'.toNat, rest) := by
  induction ds with
  | nil =>
    cases rest with
    | nil => rfl
    | cons c rest =>
      have hnone : Text.digitValue? c = none := by simpa using (hrest c rfl).1
      simp [takeDigits, hnone]
  | cons c ds ih =>
    have hdigit := Text.digitValue?_of_isDigit (hds c List.mem_cons_self)
    have ih := ih fun x hx => hds x (List.mem_cons_of_mem _ hx)
    simp [takeDigits, hdigit, ih]

theorem le_foldl_digits (ds : List Nat) (acc : Nat) : acc ≤ ds.foldl (fun acc d => acc * 10 + d) acc := by
  induction ds generalizing acc with
  | nil => exact Nat.le_refl _
  | cons d ds ih =>
    have := ih (acc * 10 + d)
    rw [List.foldl_cons]
    omega

/-- Digits that make a number of 64 bits all go into the significand. -/
theorem foldl_push {ds : List Nat} {s : Significand} (hs : s.full = false)
    (hfits : ds.foldl (fun acc d => acc * 10 + d) s.value ≤ Text.maxU64) :
    ds.foldl (fun s d => s.push false d) s = { s with value := ds.foldl (fun acc d => acc * 10 + d) s.value } := by
  induction ds generalizing s with
  | nil => rfl
  | cons d ds ih =>
    rw [List.foldl_cons] at hfits ⊢
    have hle : s.value * 10 + d ≤ Text.maxU64 := Nat.le_trans (le_foldl_digits ds _) hfits
    have hpush : s.push false d = { s with value := s.value * 10 + d } := by
      have hno : ¬ (s.full = true ∨ Text.maxU64 < s.value * 10 + d) := by simp [hs]; omega
      simp [Significand.push, hno]
    rw [hpush, ih (s := { s with value := s.value * 10 + d }) hs hfits]
    rfl

theorem foldl_digits_eq (ds : List Char) (acc : Nat) :
    (ds.map fun c => c.toNat - '0'.toNat).foldl (fun acc d => acc * 10 + d) acc = Nat.ofDigitChars 10 ds acc := by
  induction ds generalizing acc with
  | nil => rfl
  | cons c ds ih =>
    rw [List.map_cons, List.foldl_cons, ih, Nat.ofDigitChars_cons, Nat.mul_comm]

/-- Only the number zero begins with the digit zero. -/
theorem toDigits_head {n : Nat} (h : 0 < n) : ∃ c cs, Nat.toDigits 10 n = c :: cs ∧ c.toNat - '0'.toNat ≠ 0 := by
  induction n using Nat.strongRecOn with
  | ind n ih =>
    by_cases hn : n < 10
    · refine ⟨n.digitChar, [], Nat.toDigits_of_lt_base hn, ?_⟩
      have hall : ∀ m < 10, 0 < m → m.digitChar.toNat - '0'.toNat ≠ 0 := by decide
      exact hall n hn h
    · obtain ⟨c, cs, heq, hc⟩ := ih (n / 10) (by omega) (by omega)
      refine ⟨c, cs ++ [(n % 10).digitChar], ?_, hc⟩
      rw [Nat.toDigits_eq_if (by decide), if_neg hn, heq]
      rfl

theorem startsExponent_of_stops {rest : List Char} (h : Stops rest) : startsExponent rest = false := by
  cases rest with
  | nil => rfl
  | cons c rest =>
    obtain ⟨-, -, hlower, hupper⟩ := h c rfl
    simp [startsExponent, hlower, hupper]

def digitsOf (n : Nat) : List Nat := (Nat.toDigits 10 n).map fun c => c.toNat - '0'.toNat

theorem digitsOf_cons (n : Nat) : ∃ d ds, digitsOf n = d :: ds ∧ (d = 0 → ds = []) := by
  by_cases hn : n = 0
  · subst hn
    exact ⟨0, [], rfl, fun _ => rfl⟩
  · obtain ⟨c, cs, heq, hc⟩ := toDigits_head (Nat.pos_of_ne_zero hn)
    refine ⟨c.toNat - '0'.toNat, cs.map fun c => c.toNat - '0'.toNat, ?_, fun h => absurd h hc⟩
    rw [digitsOf, heq, List.map_cons]

theorem foldl_digitsOf (n : Nat) : (digitsOf n).foldl (fun acc d => acc * 10 + d) 0 = n := by
  rw [digitsOf, foldl_digits_eq, Nat.ofDigitChars_ten_toDigits]

/-- A number of 64 bits is read from its digits. -/
theorem readNumber_digits {n : Nat} (hn : n ≤ Text.maxU64) {rest : List Char} (hrest : Stops rest) (negative : Bool)
    (hneg : negative = true → 0 < n ∧ n ≤ Text.maxI64 + 1) :
    readNumber negative (Nat.toDigits 10 n ++ rest) = some (.int (if negative then -(n : Int) else n), rest) := by
  have htake : takeDigits (Nat.toDigits 10 n ++ rest) = (digitsOf n, rest) :=
    takeDigits_append (fun c hc => Nat.isDigit_of_mem_toDigits (by decide) (by decide) hc) hrest
  have hfold : (digitsOf n).foldl (fun s d => Significand.push s false d) ({} : Significand) = { value := n } := by
    have hfits : (digitsOf n).foldl (fun acc d => acc * 10 + d) 0 ≤ Text.maxU64 := by rw [foldl_digitsOf]; exact hn
    rw [foldl_push (s := {}) rfl hfits, foldl_digitsOf]
  obtain ⟨d, ds, hds, hlead⟩ := digitsOf_cons n
  have hstarts := startsExponent_of_stops hrest
  unfold readNumber
  rw [htake, hds]
  rw [hds] at hfold
  split
  next heq => cases heq
  next heq =>
    cases heq
    exact absurd (hlead rfl) (by simp)
  next heq =>
    cases heq
    simp only [hfold]
    split
    next => exact absurd rfl (hrest '.' rfl).2.1
    next =>
      simp only [hstarts]
      cases negative with
      | false => simp
      | true =>
        obtain ⟨hpos, hlow⟩ := hneg rfl
        have hno : ¬ (n = 0 ∨ Text.maxI64 + 1 < n) := by omega
        simp [hno]

/-! ## Values -/

/-- A value that its text tells: its numbers are whole and have 64 bits, signed or not. -/
inductive Plain : Json → Prop
  | null : Plain .null
  | bool (b : Bool) : Plain (.bool b)
  | int {n : Int} (low : -(Text.maxI64 + 1 : Int) ≤ n) (high : n ≤ Text.maxU64) : Plain (.int n)
  | str (s : String) : Plain (.str s)
  | arr {items : List Json} (each : ∀ j ∈ items, Plain j) : Plain (.arr items)
  | obj {members : List (String × Json)} (each : ∀ m ∈ members, Plain m.2) : Plain (.obj members)

def chars (j : Json) : List Char := j.compact.toList

def memberChars (m : String × Json) : List Char := (quote m.1).toList ++ ':' :: m.2.chars

theorem toList_quote (s : String) : (quote s).toList = '"' :: (s.toList.flatMap escapeChar ++ ['"']) := by simp [quote]

theorem compactItems_eq (items : List Json) : compactItems items = items.map compact := by
  induction items with
  | nil => rfl
  | cons j rest ih => simp [compactItems, ih]

theorem compactMembers_eq (members : List (String × Json)) :
    compactMembers members = members.map fun m => quote m.1 ++ ":" ++ m.2.compact := by
  induction members with
  | nil => rfl
  | cons m rest ih => simp [compactMembers, ih]

theorem intercalate_cons {α : Type} (sep : α) (l : List α) (rest : List (List α)) :
    [sep].intercalate (l :: rest) = l ++ rest.flatMap (sep :: ·) := by
  induction rest generalizing l with
  | nil => simp
  | cons m rest ih => rw [List.intercalate_cons_cons, ih]; simp

theorem chars_arr_cons (j : Json) (rest : List Json) :
    (Json.arr (j :: rest)).chars = '[' :: (j.chars ++ (rest.flatMap (',' :: ·.chars) ++ [']'])) := by
  simp only [chars, compact, compactItems_eq, String.toList_append, String.toList_intercalate, List.map_cons]
  rw [show ",".toList = [','] from rfl, intercalate_cons]
  simp [List.flatMap_map]

theorem chars_obj_cons (m : String × Json) (rest : List (String × Json)) :
    (Json.obj (m :: rest)).chars =
      '\x7b' :: (memberChars m ++ (rest.flatMap (',' :: memberChars ·) ++ ['\x7d'])) := by
  simp only [chars, compact, compactMembers_eq, String.toList_append, String.toList_intercalate, List.map_cons]
  rw [show ",".toList = [','] from rfl, intercalate_cons]
  simp [List.flatMap_map, memberChars, chars]

theorem chars_int_ofNat (n : Nat) : (Json.int n).chars = Nat.toDigits 10 n := Nat.toList_repr

theorem chars_int_negSucc (n : Nat) : (Json.int (Int.negSucc n)).chars = '-' :: Nat.toDigits 10 (n + 1) := by
  show (Int.repr (Int.negSucc n)).toList = _
  rw [Int.repr, String.toList_append, Nat.toList_repr]
  rfl

theorem isSpace_of_isDigit {c : Char} (h : c.isDigit = true) : isSpace c = false := by
  by_cases hspace : isSpace c = true
  · simp only [isSpace, Bool.or_eq_true, decide_eq_true_eq] at hspace
    rcases hspace with ((rfl | rfl) | rfl) | rfl <;> exact absurd h (by decide)
  · simpa using hspace

theorem exists_digits (n : Nat) : ∃ c cs, Nat.toDigits 10 n = c :: cs ∧ c.isDigit = true := by
  obtain ⟨c, cs, heq⟩ := List.exists_cons_of_length_pos (Nat.length_toDigits_pos (b := 10) (n := n))
  exact ⟨c, cs, heq, Nat.isDigit_of_mem_toDigits (b := 10) (n := n) (by decide) (by decide) (by simp [heq])⟩

/-- What a value's text begins with is no white space and no closing bracket. -/
theorem exists_chars {j : Json} (h : j.Plain) :
    ∃ c cs, j.chars = c :: cs ∧ isSpace c = false ∧ c ≠ ']' ∧ c ≠ '\x7d' := by
  have hdigits (n : Nat) : ∃ c cs, Nat.toDigits 10 n = c :: cs ∧ isSpace c = false ∧ c ≠ ']' ∧ c ≠ '\x7d' := by
    obtain ⟨c, cs, heq, hdigit⟩ := exists_digits n
    refine ⟨c, cs, heq, isSpace_of_isDigit hdigit, ?_, ?_⟩
    · intro hc
      subst hc
      exact absurd hdigit (by decide)
    · intro hc
      subst hc
      exact absurd hdigit (by decide)
  cases h with
  | null => exact ⟨'n', "ull".toList, rfl, by decide, by decide, by decide⟩
  | bool b =>
    cases b
    · exact ⟨'f', "alse".toList, rfl, by decide, by decide, by decide⟩
    · exact ⟨'t', "rue".toList, rfl, by decide, by decide, by decide⟩
  | @int n low high =>
    cases n with
    | ofNat n =>
      obtain ⟨c, cs, heq, hc⟩ := hdigits n
      exact ⟨c, cs, (chars_int_ofNat n).trans heq, hc⟩
    | negSucc n => exact ⟨'-', _, chars_int_negSucc n, by decide, by decide, by decide⟩
  | str s => exact ⟨'"', _, toList_quote s, by decide, by decide, by decide⟩
  | @arr items each =>
    cases items with
    | nil => exact ⟨'[', [']'], rfl, by decide, by decide, by decide⟩
    | cons j rest => exact ⟨'[', _, chars_arr_cons j rest, by decide, by decide, by decide⟩
  | @obj members each =>
    cases members with
    | nil => exact ⟨'\x7b', ['\x7d'], rfl, by decide, by decide, by decide⟩
    | cons m rest => exact ⟨'\x7b', _, chars_obj_cons m rest, by decide, by decide, by decide⟩

theorem depth_le_depthItems {j : Json} {items : List Json} (h : j ∈ items) : j.depth ≤ depthItems items := by
  induction items with
  | nil => cases h
  | cons k rest ih =>
    rw [depthItems]
    rcases List.mem_cons.mp h with rfl | h
    · omega
    · have := ih h
      omega

theorem depth_le_depthMembers {m : String × Json} {members : List (String × Json)} (h : m ∈ members) :
    m.2.depth ≤ depthMembers members := by
  induction members with
  | nil => cases h
  | cons k rest ih =>
    rw [depthMembers]
    rcases List.mem_cons.mp h with rfl | h
    · omega
    · have := ih h
      omega

theorem depthItems_le {items : List Json} {n : Nat} (h : ∀ j ∈ items, j.depth ≤ n) : depthItems items ≤ n := by
  induction items with
  | nil => exact Nat.zero_le n
  | cons j rest ih =>
    have hj := h j List.mem_cons_self
    have hrest := ih fun k hk => h k (List.mem_cons_of_mem _ hk)
    rw [depthItems]
    omega

theorem depthMembers_le {members : List (String × Json)} {n : Nat} (h : ∀ m ∈ members, m.2.depth ≤ n) :
    depthMembers members ≤ n := by
  induction members with
  | nil => exact Nat.zero_le n
  | cons m rest ih =>
    have hm := h m List.mem_cons_self
    have hrest := ih fun k hk => h k (List.mem_cons_of_mem _ hk)
    rw [depthMembers]
    omega

theorem length_lt_flatMap {α : Type} (write : α → List Char) {a : α} {l : List α} (h : a ∈ l) :
    (write a).length < (l.flatMap (',' :: write ·)).length := by
  have hsub : (',' :: write a).Sublist (l.map (',' :: write ·)).flatten :=
    List.sublist_flatten_of_mem (List.mem_map_of_mem (f := (',' :: write ·)) h)
  exact hsub.length_le

/-- Each array and each object takes a character of its own to open. -/
theorem depth_le_length {j : Json} (h : j.Plain) : j.depth ≤ j.chars.length := by
  induction h with
  | @arr items each ih =>
    cases items with
    | nil => decide
    | cons j rest =>
      rw [chars_arr_cons, depth, List.length_cons]
      refine Nat.succ_le_succ (depthItems_le fun k hk => ?_)
      have hk' := ih k hk
      rcases List.mem_cons.mp hk with rfl | hk
      · simp only [List.length_append]
        omega
      · have hlt := length_lt_flatMap chars hk
        simp only [List.length_append]
        omega
  | @obj members each ih =>
    cases members with
    | nil => decide
    | cons m rest =>
      rw [chars_obj_cons, depth, List.length_cons]
      refine Nat.succ_le_succ (depthMembers_le fun k hk => ?_)
      have hk' := ih k hk
      have hmember : k.2.chars.length ≤ (memberChars k).length := by simp [memberChars]; omega
      rcases List.mem_cons.mp hk with rfl | hk
      · simp only [List.length_append]
        omega
      · have hlt := length_lt_flatMap memberChars hk
        simp only [List.length_append]
        omega
  | _ => exact Nat.zero_le _

/-! ## Reading what was written

The fuel goes down by one with every value, item and member, and each of them has a
character of its own at least; so twice the length of a text is enough for it. -/

def ReadsValues (fuel : Nat) : Prop :=
  ∀ (room : Nat) (j : Json) (rest : List Char), j.Plain → j.depth ≤ room → Stops rest → 2 * j.chars.length ≤ fuel →
    readValue room fuel (j.chars ++ rest) = some (j, rest)

def ReadsItems (fuel : Nat) : Prop :=
  ∀ (room : Nat) (j : Json) (items : List Json) (rest : List Char), (∀ k ∈ j :: items, k.Plain ∧ k.depth ≤ room) →
    2 * (j.chars ++ items.flatMap (',' :: ·.chars)).length < fuel →
      readItems room fuel (j.chars ++ (items.flatMap (',' :: ·.chars) ++ ']' :: rest)) = some (j :: items, rest)

def ReadsMembers (fuel : Nat) : Prop :=
  ∀ (room : Nat) (m : String × Json) (members : List (String × Json)) (rest : List Char),
    (∀ k ∈ m :: members, k.2.Plain ∧ k.2.depth ≤ room) →
      2 * (memberChars m ++ members.flatMap (',' :: memberChars ·)).length < fuel →
        readMembers room fuel (memberChars m ++ (members.flatMap (',' :: memberChars ·) ++ '\x7d' :: rest)) =
          some (m :: members, rest)

theorem stops_of_head {c : Char} {rest : List Char}
    (h : (Text.digitValue? c).isSome = false ∧ c ≠ '.' ∧ c ≠ 'e' ∧ c ≠ 'E') : Stops (c :: rest) := by
  intro x hx
  cases hx
  exact h

theorem stops_flatMap {α : Type} (write : α → List Char) (l : List α) {c : Char} {rest : List Char}
    (h : (Text.digitValue? c).isSome = false ∧ c ≠ '.' ∧ c ≠ 'e' ∧ c ≠ 'E') :
    Stops (l.flatMap (',' :: write ·) ++ c :: rest) := by
  cases l with
  | nil => exact stops_of_head h
  | cons a l => exact stops_of_head (by decide)

theorem skipSpace_of_head {c : Char} {rest : List Char} (h : isSpace c = false) : skipSpace (c :: rest) = c :: rest := by
  simp [skipSpace, h]

theorem readsItems_succ {fuel : Nat} (hvalues : ReadsValues fuel) (hitems : ReadsItems fuel) : ReadsItems (fuel + 1) := by
  intro room j items rest heach hfuel
  obtain ⟨hplain, hdepth⟩ := heach j List.mem_cons_self
  have hvalue := hvalues room j (items.flatMap (',' :: ·.chars) ++ ']' :: rest) hplain hdepth
    (stops_flatMap chars items (by decide)) (by simp at hfuel; omega)
  unfold readItems
  rw [hvalue]
  cases items with
  | nil => simp [skipSpace, isSpace]
  | cons k items =>
    have hrest := hitems room k items rest (fun x hx => heach x (List.mem_cons_of_mem _ hx))
      (by simp at hfuel ⊢; omega)
    simp [skipSpace, isSpace, hrest]

theorem memberChars_append (m : String × Json) (tail : List Char) :
    memberChars m ++ tail = '"' :: (m.1.toList.flatMap escapeChar ++ '"' :: ':' :: (m.2.chars ++ tail)) := by
  simp [memberChars, toList_quote]

theorem readsMembers_succ {fuel : Nat} (hvalues : ReadsValues fuel) (hmembers : ReadsMembers fuel) :
    ReadsMembers (fuel + 1) := by
  intro room m members rest heach hfuel
  obtain ⟨hplain, hdepth⟩ := heach m List.mem_cons_self
  have hvalue := hvalues room m.2 (members.flatMap (',' :: memberChars ·) ++ '\x7d' :: rest) hplain hdepth
    (stops_flatMap memberChars members (by decide)) (by simp [memberChars] at hfuel; omega)
  rw [memberChars_append, readMembers, skipSpace_of_head (by decide)]
  simp only [readString_quote, Option.bind_eq_bind, Option.bind_some, skipSpace_of_head (show isSpace ':' = false by decide),
    hvalue]
  cases members with
  | nil => simp [skipSpace, isSpace]
  | cons k members =>
    have hrest := hmembers room k members rest (fun x hx => heach x (List.mem_cons_of_mem _ hx))
      (by simp at hfuel ⊢; omega)
    rw [List.flatMap_cons, List.cons_append, List.cons_append, skipSpace_of_head (by decide), List.append_assoc]
    simp only [hrest, Option.bind_some]

theorem readValue_of_isDigit {c : Char} (h : c.isDigit = true) (room fuel : Nat) (cs : List Char) :
    readValue room (fuel + 1) (c :: cs) = readNumber false (c :: cs) := by
  unfold readValue
  rw [skipSpace_of_head (isSpace_of_isDigit h)]
  split
  next heq => cases heq; exact absurd h (by decide)
  next heq => cases heq; exact absurd h (by decide)
  next heq => cases heq; exact absurd h (by decide)
  next heq => cases heq; exact absurd h (by decide)
  next heq => cases heq; exact absurd h (by decide)
  next heq => cases heq; exact absurd h (by decide)
  next heq => cases heq; exact absurd h (by decide)
  next => rfl

theorem readsValues_succ {fuel : Nat} (hitems : ReadsItems fuel) (hmembers : ReadsMembers fuel) :
    ReadsValues (fuel + 1) := by
  intro room j rest hplain hdepth hstops hfuel
  cases hplain with
  | null => rfl
  | bool b => cases b <;> rfl
  | str s =>
    have htext : (Json.str s).chars ++ rest = '"' :: (s.toList.flatMap escapeChar ++ '"' :: rest) := by
      simp [chars, compact, toList_quote]
    rw [htext, readValue, skipSpace_of_head (by decide)]
    simp only [readString_quote, Option.map_some]
  | @int n low high =>
    cases n with
    | ofNat n =>
      have htext : (Json.int (Int.ofNat n)).chars = Nat.toDigits 10 n := chars_int_ofNat n
      have hread := readNumber_digits (n := n) (Int.ofNat_le.mp high) hstops false nofun
      obtain ⟨c, cs, heq, hdigit⟩ := exists_digits n
      rw [htext, heq, List.cons_append, readValue_of_isDigit hdigit, ← List.cons_append, ← heq, hread]
      rfl
    | negSucc n =>
      have hlow : n + 1 ≤ Text.maxI64 + 1 := by simp only [Int.negSucc_eq] at low; omega
      have hfits : n + 1 ≤ Text.maxU64 := Nat.le_trans hlow (by decide)
      have hread := readNumber_digits (n := n + 1) hfits hstops true fun _ => ⟨Nat.succ_pos n, hlow⟩
      rw [chars_int_negSucc, List.cons_append, readValue, skipSpace_of_head (by decide)]
      exact hread
  | @arr items each =>
    cases items with
    | nil =>
      cases room with
      | zero => exact absurd hdepth (by simp [depth])
      | succ room => rfl
    | cons j items =>
      cases room with
      | zero => exact absurd hdepth (by simp [depth])
      | succ room =>
        have heach : ∀ k ∈ j :: items, k.Plain ∧ k.depth ≤ room := by
          intro k hk
          have hle := depth_le_depthItems hk
          simp only [depth] at hdepth
          exact ⟨each k hk, by omega⟩
        have hread := hitems room j items rest heach (by rw [chars_arr_cons] at hfuel; simp at hfuel ⊢; omega)
        obtain ⟨c, cs, hchars, hspace, hbracket, -⟩ := exists_chars (each j List.mem_cons_self)
        rw [hchars, List.cons_append] at hread
        rw [chars_arr_cons, hchars]
        simp only [List.cons_append, List.append_assoc, List.nil_append]
        rw [readValue, skipSpace_of_head (by decide)]
        simp only [skipSpace_of_head hspace]
        split
        next heq => cases heq; exact absurd rfl hbracket
        next => rw [hread]; rfl
  | @obj members each =>
    cases members with
    | nil =>
      cases room with
      | zero => exact absurd hdepth (by simp [depth])
      | succ room => rfl
    | cons m members =>
      cases room with
      | zero => exact absurd hdepth (by simp [depth])
      | succ room =>
        have heach : ∀ k ∈ m :: members, k.2.Plain ∧ k.2.depth ≤ room := by
          intro k hk
          have hle := depth_le_depthMembers hk
          simp only [depth] at hdepth
          exact ⟨each k hk, by omega⟩
        have hread := hmembers room m members rest heach (by rw [chars_obj_cons] at hfuel; simp at hfuel ⊢; omega)
        rw [memberChars_append] at hread
        rw [chars_obj_cons]
        simp only [List.cons_append, List.append_assoc, List.nil_append]
        rw [readValue, skipSpace_of_head (by decide), memberChars_append]
        simp only [skipSpace_of_head (show isSpace '"' = false by decide)]
        split
        next heq => cases heq
        next => rw [hread]; rfl

/-- With enough fuel, every value, list of items and list of members is read back. -/
theorem reads (fuel : Nat) : ReadsValues fuel ∧ ReadsItems fuel ∧ ReadsMembers fuel := by
  induction fuel with
  | zero =>
    refine ⟨?_, nofun, nofun⟩
    intro room j rest hplain _ _ hfuel
    obtain ⟨c, cs, hchars, -⟩ := exists_chars hplain
    simp [hchars] at hfuel
  | succ fuel ih =>
    obtain ⟨hvalues, hitems, hmembers⟩ := ih
    exact ⟨readsValues_succ hitems hmembers, readsItems_succ hvalues hitems, readsMembers_succ hvalues hmembers⟩

theorem readValue_compact {j : Json} (h : j.Plain) {room : Nat} (hroom : j.depth ≤ room) :
    readValue room (2 * j.chars.length + 2) j.chars = some (j, []) := by
  have hread := (reads (2 * j.chars.length + 2)).1 room j [] h hroom nofun (by omega)
  rwa [List.append_nil] at hread

/-- A plain value that nests no deeper than the reader goes is read back from its text. -/
theorem parse?_compact {j : Json} (h : j.Plain) (hdepth : j.depth ≤ maxDepth) : parse? j.compact = some j := by
  have hread : readValue maxDepth (2 * j.compact.toList.length + 2) j.compact.toList = some (j, []) :=
    readValue_compact h hdepth
  simp only [parse?, hread]
  rfl

end Switchyard.Json
