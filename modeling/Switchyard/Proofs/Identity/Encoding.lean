import Switchyard.Identity
import Switchyard.Proofs.Dict
import Switchyard.Text.Digits

/-
  Switchyard.Proofs.Identity.Encoding — the bytes whose digest identifies an instance
  stand for one instance only.

  Every text stands behind its length in eight bytes, so the front of an encoding tells
  its first text and what comes after it (`field_append_inj`), whatever characters the
  text is made of. No count of the parameters is written; but a field is never empty, so
  the pairs are told one after the other up to the end of the bytes
  (`pairs_eq_of_fields`). Eight bytes are enough for the length of any text that fits
  into memory (`Measured`).

  - `encoding_eq_iff`: two encodings are equal just if the jobs have one name and the
    identifying parameters are one map, and the order in which parameters were put in
    does not tell.
-/

namespace Switchyard

namespace Parameters

def identifying? (p : Parameters) (key : String) : Option String :=
  ((p.get? key).filter (·.identifying)).map (·.value)

theorem findEntry_identifying {p : Parameters} (hp : p.Sorted) (key : String) :
    Dict.findEntry key p.identifying = p.identifying? key := by
  obtain ⟨es⟩ := p
  unfold identifying identifying? Dict.get?
  induction es with
  | nil => rfl
  | cons e rest ih =>
    obtain ⟨hkey, hrest⟩ := List.pairwise_cons.mp hp
    have ih := ih hrest
    obtain ⟨k, v⟩ := e
    by_cases hk : key = k
    · subst hk
      by_cases hv : v.identifying = true
      · simp [Dict.findEntry, Option.filter_some, hv]
      · -- An option: none of the entries behind it has its key.
        have hnone : Dict.findEntry key rest = none :=
          Dict.findEntry_eq_none fun x hx heq => String.lt_irrefl key (heq ▸ hkey x hx)
        simp only [hnone, Option.filter_none, Option.map_none] at ih
        simp [Dict.findEntry, Option.filter_some, hv, ih]
    · by_cases hv : v.identifying = true
      · simp [Dict.findEntry, hk, hv, ih]
      · simp [Dict.findEntry, hk, hv, ih]

theorem sorted_identifying {p : Parameters} (hp : p.Sorted) : (Dict.mk p.identifying).Sorted := by
  show p.identifying.Pairwise fun a b => a.1 < b.1
  unfold identifying
  rw [List.pairwise_map]
  exact List.Pairwise.filter _ hp

theorem identifying_eq_iff {p q : Parameters} (hp : p.Sorted) (hq : q.Sorted) :
    p.identifying = q.identifying ↔ ∀ key, p.identifying? key = q.identifying? key := by
  constructor
  · intro h key
    rw [← findEntry_identifying hp, ← findEntry_identifying hq, h]
  · intro h
    have heq := Dict.eq_of_get? (sorted_identifying hp) (sorted_identifying hq) fun key => by
      show Dict.findEntry key p.identifying = Dict.findEntry key q.identifying
      rw [findEntry_identifying hp, findEntry_identifying hq, h]
    exact congrArg Dict.entries heq

end Parameters

namespace InstanceId

/-! ## Bytes of a number and of a text -/

theorem length_littleEndian (n value : Nat) : (littleEndian n value).length = n := by simp [littleEndian]

/-- The bytes tell the number as far as they go. -/
theorem mod_eq_of_littleEndian {n a b : Nat} (h : littleEndian n a = littleEndian n b) :
    a % Nat.pow 256 n = b % Nat.pow 256 n := by
  induction n with
  | zero => simp [Nat.mod_one]
  | succ n ih =>
    unfold littleEndian at h ih
    rw [List.range_succ, List.map_append, List.map_append] at h
    obtain ⟨hfront, hlast⟩ := List.append_inj h (by simp)
    have hbyte : a / Nat.pow 256 n % 256 = b / Nat.pow 256 n % 256 := by
      simpa using congrArg (fun l => l.map UInt8.toNat) hlast
    have hsucc (c : Nat) : c % Nat.pow 256 (n + 1) = c % Nat.pow 256 n + Nat.pow 256 n * (c / Nat.pow 256 n % 256) :=
      Nat.mod_mul
    rw [hsucc, hsucc, ih hfront, hbyte]

theorem toList_loop (bytes : ByteArray) {left i : Nat} (h : bytes.size - i = left) (acc : List UInt8) :
    ByteArray.toList.loop bytes i acc = acc.reverse ++ bytes.data.toList.drop i := by
  induction left generalizing i acc with
  | zero =>
    have hend : ¬ i < bytes.size := by omega
    have hdrop : bytes.data.toList.length ≤ i := by simpa using (by omega : bytes.size ≤ i)
    rw [ByteArray.toList.loop, if_neg hend, List.drop_eq_nil_of_le hdrop, List.append_nil]
  | succ left ih =>
    have hi : i < bytes.size := by omega
    have hi' : i < bytes.data.toList.length := by simpa using hi
    have hget : bytes.get! i = bytes.data.toList[i] := by simp [ByteArray.get!, hi]
    rw [ByteArray.toList.loop, if_pos hi, ih (by omega), List.drop_eq_getElem_cons hi', hget]
    simp

theorem toList_toUTF8 (s : String) : s.toUTF8.toList = s.toByteArray.data.toList := toList_loop _ rfl []

theorem length_toUTF8 (s : String) : s.toUTF8.toList.length = s.utf8ByteSize := by
  rw [toList_toUTF8]
  simp

/-- Its length can be written in eight bytes. -/
def Measured (s : String) : Prop := s.utf8ByteSize ≤ Text.maxU64

instance (s : String) : Decidable (Measured s) := inferInstanceAs (Decidable (_ ≤ _))

theorem length_field (s : String) : (field s).length = 8 + s.utf8ByteSize := by
  rw [field, List.length_append, length_littleEndian, length_toUTF8]

/-- What begins with a text's field tells the text and what comes after it. -/
theorem field_append_inj {s t : String} {xs ys : List UInt8} (hs : Measured s) (ht : Measured t)
    (h : field s ++ xs = field t ++ ys) : s = t ∧ xs = ys := by
  unfold field at h
  rw [List.append_assoc, List.append_assoc] at h
  obtain ⟨hcount, hrest⟩ := List.append_inj h (by rw [length_littleEndian, length_littleEndian])
  have hsize : s.utf8ByteSize = t.utf8ByteSize := by
    have hmod := mod_eq_of_littleEndian hcount
    have hroom : Nat.pow 256 8 = Text.maxU64 + 1 := rfl
    unfold Measured at hs ht
    rwa [hroom, Nat.mod_eq_of_lt (Nat.lt_succ_of_le hs), Nat.mod_eq_of_lt (Nat.lt_succ_of_le ht)] at hmod
  obtain ⟨hbytes, hrest⟩ := List.append_inj hrest (by rw [length_toUTF8, length_toUTF8, hsize])
  rw [toList_toUTF8, toList_toUTF8] at hbytes
  have hdata : s.toByteArray = t.toByteArray := ByteArray.ext (Array.ext' hbytes)
  exact ⟨String.toByteArray_inj.mp hdata, hrest⟩

/-! ## Encodings -/

def fields (pairs : List (String × String)) : List UInt8 := pairs.flatMap fun e => field e.1 ++ field e.2

theorem fields_cons_ne_nil (e : String × String) (rest : List (String × String)) : fields (e :: rest) ≠ [] := by
  intro h
  have hlength := congrArg List.length h
  simp only [fields, List.flatMap_cons, List.length_append, length_field, List.length_nil] at hlength
  omega

theorem pairs_eq_of_fields {l m : List (String × String)} (hl : ∀ e ∈ l, Measured e.1 ∧ Measured e.2)
    (hm : ∀ e ∈ m, Measured e.1 ∧ Measured e.2) (h : fields l = fields m) : l = m := by
  induction l generalizing m with
  | nil =>
    cases m with
    | nil => rfl
    | cons f rest => exact absurd h.symm (fields_cons_ne_nil f rest)
  | cons e rest ih =>
    cases m with
    | nil => exact absurd h (fields_cons_ne_nil e rest)
    | cons f rest' =>
      simp only [fields, List.flatMap_cons, List.append_assoc] at h
      obtain ⟨hek, hev⟩ := hl e List.mem_cons_self
      obtain ⟨hfk, hfv⟩ := hm f List.mem_cons_self
      obtain ⟨hkey, h⟩ := field_append_inj hek hfk h
      obtain ⟨hvalue, h⟩ := field_append_inj hev hfv h
      have hrest : rest = rest' :=
        ih (fun x hx => hl x (List.mem_cons_of_mem _ hx)) (fun x hx => hm x (List.mem_cons_of_mem _ hx)) h
      rw [Prod.ext hkey hvalue, hrest]

structure Writable (job : String) (p : Parameters) : Prop where
  job : Measured job
  pairs : ∀ e ∈ p.identifying, Measured e.1 ∧ Measured e.2

/-- Two instances have one encoding just if their jobs have one name and their
    identifying parameters are one map. In which order parameters were put in is not
    told by the encoding, nor by the identifier. -/
theorem encoding_eq_iff {job job' : String} {p q : Parameters} (hp : p.Sorted) (hq : q.Sorted)
    (h : Writable job p) (h' : Writable job' q) :
    (encoding job p = encoding job' q ↔ job = job' ∧ ∀ key, p.identifying? key = q.identifying? key) ∧
      ∀ inserted : List (String × Parameter), inserted.Perm p.entries →
        encoding job (Dict.ofList inserted) = encoding job p ∧ derive job (Dict.ofList inserted) = derive job p := by
  refine ⟨?_, ?_⟩
  · rw [← Parameters.identifying_eq_iff hp hq]
    constructor
    · intro heq
      obtain ⟨hjob, hpairs⟩ := field_append_inj h.job h'.job heq
      exact ⟨hjob, pairs_eq_of_fields h.pairs h'.pairs hpairs⟩
    · intro ⟨hjob, hpairs⟩
      unfold encoding
      rw [hjob, hpairs]
  · intro inserted hperm
    have hsame : Dict.ofList inserted = p := Dict.ofList_of_perm hp hperm
    rw [hsame]
    exact ⟨rfl, rfl⟩

/-- A line of a job's name that looks like a parameter is none. -/
theorem name_holds_no_parameter :
    let p : Parameters := (Dict.empty.insert "größe" ⟨"", true⟩).insert "b" ⟨"größe", true⟩
    let q : Parameters := (Dict.empty.insert "größe" ⟨"", true⟩).insert "chunk" ⟨"500", false⟩
    p.Sorted ∧ q.Sorted ∧ Writable "job" p ∧ Writable "job\nb=größe" q ∧
      [("größe", (⟨"", true⟩ : Parameter)), ("b", ⟨"größe", true⟩)].Perm p.entries ∧
      encoding "job" p ≠ encoding "job\nb=größe" q ∧
      derive "job" (Dict.ofList [("größe", ⟨"", true⟩), ("b", ⟨"größe", true⟩)]) = derive "job" p := by
  intro p q
  have hp : p.Sorted := (Dict.sorted_empty.insert _ _).insert _ _
  have hq : q.Sorted := (Dict.sorted_empty.insert _ _).insert _ _
  have h : Writable "job" p := ⟨by decide, by decide⟩
  have h' : Writable "job\nb=größe" q := ⟨by decide, by decide⟩
  have hperm : [("größe", (⟨"", true⟩ : Parameter)), ("b", ⟨"größe", true⟩)].Perm p.entries := by decide
  have htold := encoding_eq_iff hp hq h h'
  refine ⟨hp, hq, h, h', hperm, ?_, (htold.2 _ hperm).2⟩
  intro heq
  exact absurd (htold.1.mp heq).1 (by decide)

end InstanceId

end Switchyard
