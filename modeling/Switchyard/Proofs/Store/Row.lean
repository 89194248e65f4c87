import Switchyard.Proofs.ExecutionId
import Switchyard.Proofs.Instant
import Switchyard.Store.Row

/-
  Switchyard.Proofs.Store.Row — a record is read back from its row.

  The columns that hold no JSON give back what was written into them: an identifier, an
  attempt number of 32 bits, the name of a status, and a time of a year of four digits.
  Of the JSON columns it is supposed (`Lossless`): what is written into one is read
  there. Then the row tells the record (`Row.toRecord_ofRecord`).
-/

namespace Switchyard

namespace Record

/-- Each JSON column of the record's row reads as what was written into it. -/
structure Lossless (r : Record) (form : Json.Form := .compact) : Prop where
  parameters : form.read? (form.write (Parameters.toJson r.parameters)) >>= Parameters.ofJson? = some r.parameters
  completed : form.read? (form.write (Codec.ofTexts r.completed)) >>= Codec.listOf? Codec.text? = some r.completed
  branches : form.read? (form.write (.obj (FlowOutcome.entriesJson r.branches.entries))) >>= FlowOutcome.splitsOfJson? =
    some r.branches
  context : form.read? (form.write (Context.toJson r.context)) >>= Context.ofJson? = some r.context
  lastExit : ∀ e ∈ r.lastExit, form.read? (form.write e.toJson) >>= Exit.ofJson? = some e
  finalExit : ∀ e ∈ r.finalExit, form.read? (form.write e.toJson) >>= Exit.ofJson? = some e
  failure : ∀ f ∈ r.failure, form.read? (form.write f.toJson) >>= Failure.ofJson? = some f

structure Legible (r : Record) (form : Json.Form := .compact) : Prop where
  attempt : r.attempt ≤ Text.maxU32
  started : r.started.Regular
  ended : ∀ t ∈ r.ended, t.Regular
  columns : r.Lossless form

end Record

namespace Row

variable {form : Json.Form}

theorem structured_eq_ok {α : Type} {read : Json → Option α} {raw : String} {v : α} (column : String)
    (h : form.read? raw >>= read = some v) : structured form column read raw = .ok v := by
  rw [structured, h]

theorem structured?_eq_ok {α : Type} {read : Json → Option α} {write : α → Json} {v : Option α} (column : String)
    (h : ∀ a ∈ v, form.read? (form.write (write a)) >>= read = some a) :
    structured? form column read (v.map fun a => form.write (write a)) = .ok v := by
  cases v with
  | none => rfl
  | some a =>
    simp only [structured?, Option.map_some, structured_eq_ok column (h a rfl)]
    rfl

theorem statusColumn_name (status : Option Status) : statusColumn (status.map Status.name) = .ok status := by
  cases status with
  | none => rfl
  | some s => simp only [statusColumn, Option.map_some, Status.ofName?_name]

theorem idColumn_text (id : ExecutionId) : idColumn id.text = .ok id := by
  rw [idColumn, ExecutionId.parse?_text]

theorem attemptColumn_ofNat {n : Nat} (h : n ≤ Text.maxU32) : attemptColumn n = .ok n := by
  rw [attemptColumn, if_pos ⟨Int.natCast_nonneg n, Int.ofNat_le.mpr h⟩, Int.toNat_natCast]

theorem timeColumn_offset {t : Instant} (h : t.Regular) : timeColumn t.offset = .ok t := by
  rw [timeColumn, Instant.parse?_offset h]

theorem timeColumn?_offset {t : Option Instant} (h : ∀ i ∈ t, i.Regular) : timeColumn? (t.map Instant.offset) = .ok t := by
  cases t with
  | none => rfl
  | some i =>
    simp only [timeColumn?, Option.map_some, timeColumn_offset (h i rfl)]
    rfl

/-- The row tells the record. -/
theorem toRecordIn_ofRecordIn {r : Record} (h : r.Legible form) : (ofRecordIn form r).toRecordIn form = .ok r := by
  simp only [toRecordIn, ofRecordIn, statusColumn_name, structured_eq_ok _ h.columns.parameters,
    structured_eq_ok _ h.columns.completed, structured_eq_ok _ h.columns.branches, structured_eq_ok _ h.columns.context,
    structured?_eq_ok _ h.columns.lastExit, structured?_eq_ok _ h.columns.finalExit,
    structured?_eq_ok _ h.columns.failure, idColumn_text, attemptColumn_ofNat h.attempt, timeColumn_offset h.started,
    timeColumn?_offset h.ended]
  rfl

theorem toRecord_ofRecord {r : Record} (h : r.Legible) : (ofRecord r).toRecord = .ok r := toRecordIn_ofRecordIn h

end Row

end Switchyard
