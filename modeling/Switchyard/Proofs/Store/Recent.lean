import Mathlib.Data.Prod.Lex
import Mathlib.Data.String.Basic
import Switchyard.Proofs.Instant.Order
import Switchyard.Proofs.Store.Agreement

/-
  Switchyard.Proofs.Store.Recent — the newest attempts that a table lists.

  A table sorts its rows by the text of their start, for it does not read it. Between
  records that started in a year of four digits and in no leap second that is the order of
  their starts (`newer_ofRecord`), whatever fraction of a second each start has.

  - `newest_first`: any number of the newest records of a table, in order, with none left
    out that is newer.
  - `holds_of_puts`: whatever records are appended to a table, it holds rows of records, each
    with the start that one of them has.
-/

namespace Switchyard

/-- A start in a year of four digits and in no leap second. -/
structure Instant.Plain (t : Instant) : Prop where
  regular : t.Regular
  calm : t.nano < nanosPerSecond

/-- It started later, or at the same time with no lower number. -/
def Record.Precedes (a b : Record) : Prop :=
  b.started.compare a.started = .lt ∨ a.started = b.started ∧ b.attempt ≤ a.attempt

namespace Table

/-- Starts are told apart by their texts. -/
theorem offset_eq_iff {a b : Instant} (ha : a.Plain) (hb : b.Plain) : a.offset = b.offset ↔ a = b := by
  constructor
  · intro h
    have hread := Instant.parse?_offset ha.regular
    rw [h, Instant.parse?_offset hb.regular] at hread
    exact (Option.some.inj hread).symm
  · rintro rfl
    rfl

theorem offset_lt_iff {a b : Instant} (ha : a.Plain) (hb : b.Plain) : a.offset < b.offset ↔ a.compare b = .lt := by
  rw [← Instant.compare_offset ha.regular hb.regular ha.calm hb.calm, Text.compare_toList_lt_iff]
  exact Iff.rfl

theorem newer_iff {a b : Row} :
    newer a b = true ↔ b.started < a.started ∨ a.started = b.started ∧ b.attempt < a.attempt := by
  unfold newer
  split
  next h => simp [h]
  next h => simp [h]

theorem newer_iff_toLex {a b : Row} :
    newer a b = true ↔ toLex (b.started, b.attempt) < toLex (a.started, a.attempt) := by
  rw [newer_iff, Prod.Lex.toLex_lt_toLex, eq_comm]

theorem newer_asymm {a b : Row} (h : newer a b = true) : newer b a = false := by
  rw [← Bool.not_eq_true, newer_iff_toLex] at *
  exact lt_asymm h

theorem newer_trans {a b c : Row} (hba : newer b a = false) (hcb : newer c b = false) : newer c a = false := by
  rw [← Bool.not_eq_true, newer_iff_toLex, not_lt] at *
  exact hcb.trans hba

/-- A row is sorted in front of another if its record started later, or at the same time with
    the higher number. -/
theorem newer_ofRecord {a b : Record} (ha : a.started.Plain) (hb : b.started.Plain) :
    newer (.ofRecord a) (.ofRecord b) = true ↔
      b.started.compare a.started = .lt ∨ a.started = b.started ∧ b.attempt < a.attempt := by
  have hlt : (Row.ofRecord b).started < (Row.ofRecord a).started ↔ b.started.compare a.started = .lt :=
    offset_lt_iff hb ha
  have heq : (Row.ofRecord a).started = (Row.ofRecord b).started ↔ a.started = b.started := offset_eq_iff ha hb
  have hattempt : (Row.ofRecord b).attempt < (Row.ofRecord a).attempt ↔ b.attempt < a.attempt := Int.ofNat_lt
  rw [newer_iff, hlt, heq, hattempt]

/-- What no row is sorted in front of started later, or at the same time with no lower
    number. -/
theorem precedes_of_not_newer {a b : Record} (ha : a.started.Plain) (hb : b.started.Plain)
    (h : newer (.ofRecord b) (.ofRecord a) = false) : a.Precedes b := by
  rw [← Bool.not_eq_true, newer_ofRecord hb ha, not_or] at h
  obtain ⟨hlater, hnumber⟩ := h
  rcases lt_trichotomy a.started.offset b.started.offset with hlt | heq | hgt
  · exact absurd ((offset_lt_iff ha hb).mp hlt) hlater
  · have hsame := (offset_eq_iff ha hb).mp heq
    exact Or.inr ⟨hsame, Nat.le_of_not_lt fun hlt => hnumber ⟨hsame.symm, hlt⟩⟩
  · exact Or.inl ((offset_lt_iff hb ha).mp hgt)

variable {t : Table} {stored : List Record}

/-- The newest records of a table whose rows are those of records that started in a year of
    four digits and in no leap second. The bytes of the starts sort as the starts do. For any
    limit the table lists the latest records, as many as there are within the limit: a later
    start comes first, of equal starts the higher attempt, and none that is left out would
    come in front of one that is listed. Each is read from its row. -/
theorem newest_first (hrows : t.rows = stored.map Row.ofRecord) (hplain : ∀ r ∈ stored, r.started.Plain) :
    (∀ a ∈ stored, ∀ b ∈ stored,
      Ord.compare (Row.ofRecord a).started.toUTF8.toList (Row.ofRecord b).started.toUTF8.toList =
        a.started.compare b.started) ∧
      ∀ limit, ∃ listed omitted, (listed ++ omitted).Perm stored ∧ listed.length = min limit stored.length ∧
        listed.Pairwise Record.Precedes ∧ (∀ a ∈ listed, ∀ b ∈ omitted, a.Precedes b) ∧
        t.recent limit = listed.mapM (fun r => (Row.ofRecord r).toRecord) ∧
        ((∀ r ∈ listed, r.Legible) → t.recent limit = .ok listed) := by
  refine ⟨fun a ha b hb => ?_, fun limit => ?_⟩
  · obtain ⟨hregular, hcalm⟩ := hplain a ha
    obtain ⟨hregular', hcalm'⟩ := hplain b hb
    exact Instant.compare_bytes_offset hregular hregular' hcalm hcalm'
  let sorted := sortBy (fun a b => newer (.ofRecord a) (.ofRecord b)) stored.reverse
  have hperm : sorted.Perm stored := (sortBy_perm _).trans stored.reverse_perm
  have hsorted : sorted.Pairwise Record.Precedes := by
    have hpairs := @sortBy_pairwise _ (fun a b : Record => newer (.ofRecord a) (.ofRecord b)) (fun _ _ => newer_asymm)
      (fun _ _ _ => newer_trans) stored.reverse
    refine hpairs.imp_of_mem fun {a b} ha hb hnot => ?_
    exact precedes_of_not_newer (hplain a (hperm.mem_iff.mp ha)) (hplain b (hperm.mem_iff.mp hb)) hnot
  have hrecent : t.recent limit = (sorted.take limit).mapM fun r => (Row.ofRecord r).toRecord := by
    rw [recent, hrows, ← List.map_reverse, sortBy_map (fun _ _ => rfl), ← List.map_take, List.mapM_map]
    rfl
  have hsplit := List.pairwise_append.mp (sorted.take_append_drop limit ▸ hsorted)
  refine ⟨sorted.take limit, sorted.drop limit, ?_, ?_, hsplit.1, hsplit.2.2, hrecent, fun hlegible => ?_⟩
  · rw [List.take_append_drop]
    exact hperm
  · rw [List.length_take, hperm.length_eq]
  · have hread := mapM_eq_ok fun r hr => Row.toRecord_ofRecord (hlegible r hr)
    rw [List.mapM_map] at hread
    exact hrecent.trans hread

/-! ## What appends make of a table -/

/-- The table after records were appended, those that it refuses left out. -/
def puts (t : Table) (rs : List Record) : Table := rs.foldl (fun t r => (t.append r).toOption.getD t) t

def onto (r old : Record) : Record :=
  { r with
    id := old.id
    instanceId := old.instanceId
    job := old.job
    attempt := old.attempt
    parameters := old.parameters
    started := old.started }

theorem put_ofRecord (old r : Record) :
    put r (.ofRecord old) = .ofRecord (if old.id.text = r.id.text then onto r old else old) := by
  rw [apply_ite Row.ofRecord]
  rfl

/-- The rows of a table are those of records whose starts are among these. -/
def Holds (t : Table) (starts : List Instant) : Prop :=
  ∃ stored : List Record, t.rows = stored.map Row.ofRecord ∧ ∀ r ∈ stored, r.started ∈ starts

theorem Holds.append {starts : List Instant} {r : Record} {t' : Table} (h : t.Holds starts) (hr : r.started ∈ starts)
    (happend : t.append r = .ok t') : t'.Holds starts := by
  obtain ⟨stored, hrows, hstarts⟩ := h
  simp only [Table.append] at happend
  split at happend
  · cases happend
  split at happend
  · cases happend
    refine ⟨stored.map fun old => if old.id.text = r.id.text then onto r old else old, ?_, fun x hx => ?_⟩
    · rw [hrows, List.map_map, List.map_map]
      exact List.map_congr_left fun old _ => put_ofRecord old r
    · obtain ⟨old, hold, rfl⟩ := List.mem_map.mp hx
      split <;> exact hstarts old hold
  split at happend
  · cases happend
  · cases happend
    refine ⟨stored ++ [r], by rw [hrows, List.map_append, List.map_singleton], fun x hx => ?_⟩
    rcases List.mem_append.mp hx with hx | hx
    · exact hstarts x hx
    · exact List.mem_singleton.mp hx ▸ hr

theorem Holds.puts {starts : List Instant} (h : t.Holds starts) {rs : List Record} (hrs : ∀ r ∈ rs, r.started ∈ starts) :
    (t.puts rs).Holds starts := by
  induction rs generalizing t with
  | nil => exact h
  | cons r rest ih =>
    rw [puts, List.foldl_cons]
    refine ih ?_ fun x hx => hrs x (List.mem_cons_of_mem _ hx)
    cases happend : t.append r with
    | error e => exact h
    | ok t' => exact h.append (hrs r List.mem_cons_self) happend

/-- Whatever is appended to an empty table and whatever of it is refused, the rows are those of
    records that started when appended ones did. -/
theorem holds_of_puts (rs : List Record) : (Table.empty.puts rs).Holds (rs.map (·.started)) := by
  have hempty : Table.empty.Holds (rs.map (·.started)) := ⟨[], rfl, List.forall_mem_nil _⟩
  exact hempty.puts fun r hr => List.mem_map_of_mem hr

end Table

/-! ## Starts within one second -/

namespace Arrivals

def attempt (id nano number : Nat) : Record :=
  Record.start ⟨BitVec.ofNat 128 id⟩ ⟨2024, 3, 2, 1, 30, 0, nano⟩ Ledger.instanceId "nightly" number Dict.empty Dict.empty

def arrivals : List Record :=
  [attempt 1 0 1, attempt 2 1000 2, attempt 3 999 3, attempt 4 1000000 4, attempt 5 500000000 5, attempt 6 500000000 6]

def table : Table := ⟨arrivals.map Row.ofRecord⟩

theorem plain_attempt (id : Nat) {nano : Nat} (hnano : nano < nanosPerSecond) (number : Nat) :
    (attempt id nano number).started.Plain where
  regular :=
    { valid := by
        have hlong : nano < 2 * nanosPerSecond := Nat.lt_of_lt_of_le hnano (by decide)
        simp [attempt, Record.start, Instant.isValid, Instant.daysInMonth, hlong]
      early := by show (0 : Int) ≤ 2024; decide
      late := by show (2024 : Int) ≤ 9999; decide
      leap := fun h => absurd hnano (Nat.not_lt.mpr h) }
  calm := hnano

theorem legible_attempt (id : Nat) {nano number : Nat} (hnano : nano < nanosPerSecond) (hnumber : number ≤ Text.maxU32) :
    (attempt id nano number).Legible :=
  have h : (attempt id nano number).Storable :=
    { attempt := hnumber
      started := (plain_attempt id hnano number).regular
      ended := nofun
      parameters := Dict.sorted_empty
      failure := nofun
      splits := Dict.sorted_empty
      branches := nofun
      context := ⟨Dict.sorted_empty, nofun, nofun⟩ }
  h.legible_compact (Nat.le_of_ble_eq_true rfl)

theorem plain_arrivals : ∀ r ∈ arrivals, r.started.Plain ∧ r.Legible := by
  simp only [arrivals, List.mem_cons, List.not_mem_nil, or_false]
  rintro r (rfl | rfl | rfl | rfl | rfl | rfl)
  all_goals exact ⟨plain_attempt _ (by decide) _, legible_attempt _ (by decide) (by decide)⟩

/-- The two newest of the six are listed, in order. -/
theorem arrivals_listed :
    table.rows = arrivals.map Row.ofRecord ∧ (∀ r ∈ arrivals, r.started.Plain) ∧
      ∃ listed omitted, (listed ++ omitted).Perm arrivals ∧ listed.length = 2 ∧ listed.Pairwise Record.Precedes ∧
        (∀ a ∈ listed, ∀ b ∈ omitted, a.Precedes b) ∧ table.recent 2 = .ok listed := by
  have hplain : ∀ r ∈ arrivals, r.started.Plain := fun r hr => (plain_arrivals r hr).1
  obtain ⟨listed, omitted, hperm, hlength, hpairs, homitted, -, hread⟩ := (Table.newest_first rfl hplain).2 2
  have hlegible : ∀ r ∈ listed, r.Legible := fun r hr =>
    (plain_arrivals r (hperm.mem_iff.mp (List.mem_append_left _ hr))).2
  exact ⟨rfl, hplain, listed, omitted, hperm, hlength, hpairs, homitted, hread hlegible⟩

end Arrivals

end Switchyard
