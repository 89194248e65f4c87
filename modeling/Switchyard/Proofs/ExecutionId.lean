import Switchyard.ExecutionId

/-
  Switchyard.Proofs.ExecutionId — an identifier is read back from its text, so no two
  have one text, and the identifiers of one clock tick differ.

  - `parse?_text`: reading what was written.
  - `text_injective`: two identifiers with one text are one.
  - `numbered_injective`: of the first `room` identifiers of a tick no two are equal.
-/

namespace Switchyard.ExecutionId

def room : Nat := Nat.pow 2 128

theorem hexValue?_hexDigit : ∀ n < 16, Text.hexValue? (Text.hexDigit n) = some n := by decide

theorem length_digits (id : ExecutionId) : id.digits.length = 32 := by simp [digits]

/-- The digits read from the left come to the number without the digits not read yet. -/
theorem foldlM_digits (n : Nat) {count : Nat} (hcount : count ≤ 32) :
    ((List.range count).map fun i => Text.hexDigit (n / Nat.pow 16 (31 - i) % 16)).foldlM
      (fun acc c => (Text.hexValue? c).map (acc * 16 + ·)) (n / Nat.pow 16 32)
      = some (n / Nat.pow 16 (32 - count)) := by
  induction count with
  | zero => rfl
  | succ count ih =>
    rw [List.range_succ, List.map_append, List.foldlM_append, ih (by omega)]
    have hdigit := hexValue?_hexDigit (n / Nat.pow 16 (31 - count) % 16) (Nat.mod_lt _ (by decide))
    have hexp : 32 - count = 31 - count + 1 := by omega
    have hdiv : n / Nat.pow 16 (32 - count) * 16 + n / Nat.pow 16 (31 - count) % 16 = n / Nat.pow 16 (31 - count) := by
      rw [hexp, show Nat.pow 16 (31 - count + 1) = Nat.pow 16 (31 - count) * 16 from rfl, ← Nat.div_div_eq_div_mul]
      omega
    have hleft : 32 - (count + 1) = 31 - count := by omega
    rw [hleft, Option.bind_eq_bind, Option.bind_some, List.map_singleton, List.foldlM_cons, hdigit]
    exact congrArg some hdiv

theorem ofDigits?_digits (id : ExecutionId) : ofDigits? id.digits = some id := by
  have hlt : id.bits.toNat < Nat.pow 16 32 := id.bits.isLt
  have hfold := foldlM_digits id.bits.toNat (Nat.le_refl 32)
  rw [Nat.div_eq_of_lt hlt, Nat.sub_self, show Nat.pow 16 0 = 1 from rfl, Nat.div_one] at hfold
  unfold ofDigits?
  rw [if_pos id.length_digits, digits, hfold]
  simp

theorem length_group {ds : List Char} (h : ds.length = 32) : (group ds).length = 36 := by
  simp [group, h]

theorem ungroup?_group {ds : List Char} (h : ds.length = 32) : ungroup? (group ds) = some ds := by
  have hsplit : ds.take 8 ++ (ds.drop 8).take 4 ++ (ds.drop 12).take 4 ++ (ds.drop 16).take 4 ++ ds.drop 20 = ds := by
    simp only [← List.take_add, List.take_append_drop]
  have hhyphens : (group ds)[8]? = some '-' ∧ (group ds)[13]? = some '-' ∧ (group ds)[18]? = some '-' ∧
      (group ds)[23]? = some '-' := by
    simp [group, h]
  unfold ungroup?
  rw [if_pos ⟨length_group h, hhyphens⟩]
  simpa [group, h, List.take_append, List.drop_append, List.drop_take] using hsplit

theorem parse?_text (id : ExecutionId) : parse? id.text = some id := by
  have hlen := length_group id.length_digits
  simp only [parse?, text, String.toList_ofList, hlen]
  simp [ungroup?_group id.length_digits, ofDigits?_digits]

theorem text_injective {a b : ExecutionId} (h : a.text = b.text) : a = b :=
  Option.some.inj (by rw [← parse?_text a, h, parse?_text])

theorem numbered_injective {millis a b : Nat} (ha : a < room) (hb : b < room)
    (h : numbered millis a = numbered millis b) : a = b := by
  have hbits := congrArg (fun id => id.bits.toNat) h
  simp only [numbered, BitVec.toNat_ofNat] at hbits
  generalize millis <<< 80 + 7 <<< 76 + 2 <<< 62 = tick at hbits
  have hroom : room = 2 ^ 128 := rfl
  omega

end Switchyard.ExecutionId
