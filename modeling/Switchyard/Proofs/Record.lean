import Switchyard.Record

/-
  Switchyard.Proofs.Record — the life of an attempt's record, over all calls made on it.

  A record is noted in, sealed by an outcome or abandoned, in any order and with any
  outcomes. Until one of the last two it is the record it began as, with the notes in it
  (`after_of_notes`); from the first of them on no call makes any difference
  (`after_of_isSealed`), and that first one is the only call that is told it sealed.

  - `lifecycle`: what a record that began with its attempt is after any calls, and what the
    next call does.
-/

namespace Switchyard.Record

inductive Call where
  | note (o : NodeOutcome)
  | finish (o : FlowOutcome) (now : Instant)
  | abandon (now : Instant)

def Call.Seals : Call → Prop
  | .note _ => False
  | .finish _ _ | .abandon _ => True

/-- The record after a call, and what the call is told: whether it sealed the record. A note
    is told nothing. -/
def call (r : Record) : Call → Record × Option Bool
  | .note o => (r.note o, none)
  | .finish o now => told (r.sealWith? o now)
  | .abandon now => told (r.abandon? now)
where
  told (sealed? : Option Record) : Record × Option Bool := (sealed?.getD r, some sealed?.isSome)

def after (r : Record) (calls : List Call) : Record := calls.foldl (fun r c => (r.call c).1) r

def noted (calls : List Call) : List NodeOutcome :=
  calls.filterMap fun
    | .note o => some o
    | _ => none

@[simp] theorem after_nil (r : Record) : r.after [] = r := rfl

@[simp] theorem after_cons (r : Record) (c : Call) (rest : List Call) :
    r.after (c :: rest) = (r.call c).1.after rest := rfl

/-! ## One call -/

/-- What an attempt is known by, and what it was given to begin with. -/
structure SameAttempt (r first : Record) : Prop where
  id : r.id = first.id
  instanceId : r.instanceId = first.instanceId
  job : r.job = first.job
  attempt : r.attempt = first.attempt
  parameters : r.parameters = first.parameters
  started : r.started = first.started

structure Ended (r : Record) : Prop where
  finalStatus : r.finalStatus.isSome = true
  finalExit : r.finalExit.isSome = true
  ended : r.ended.isSome = true

variable {r first : Record} {c : Call}

theorem SameAttempt.call (h : r.SameAttempt first) (c : Call) : (r.call c).1.SameAttempt first := by
  obtain ⟨hid, hinstance, hjob, hattempt, hparameters, hstarted⟩ := h
  cases c with
  | note o =>
    simp only [Record.call, note]
    split <;> exact ⟨hid, hinstance, hjob, hattempt, hparameters, hstarted⟩
  | finish o now =>
    simp only [Record.call, call.told, sealWith?]
    split <;> exact ⟨hid, hinstance, hjob, hattempt, hparameters, hstarted⟩
  | abandon now =>
    simp only [Record.call, call.told, abandon?]
    split <;> exact ⟨hid, hinstance, hjob, hattempt, hparameters, hstarted⟩

/-- No call makes any difference to a sealed record, or is told that it does. -/
theorem call_of_isSealed (h : r.isSealed = true) (c : Call) :
    (r.call c).1 = r ∧ (r.call c).2 ≠ some true ∧ (c.Seals → (r.call c).2 = some false) := by
  cases c with
  | note o => simp [call, note, h, Call.Seals]
  | finish o now => simp [call, call.told, sealWith?, h]
  | abandon now => simp [call, call.told, abandon?, h]

/-- A call that is to seal an open record does, and is told so. -/
theorem call_of_seals (h : r.isSealed = false) (hc : c.Seals) :
    (r.call c).1.Ended ∧ (r.call c).2 = some true := by
  cases c with
  | note o => cases hc
  | finish o now =>
    simp only [call, call.told, sealWith?, h]
    exact ⟨⟨rfl, rfl, rfl⟩, rfl⟩
  | abandon now =>
    simp only [call, call.told, abandon?, h]
    exact ⟨⟨rfl, rfl, rfl⟩, rfl⟩

/-- Only a call that is to seal the record is told that it did. -/
theorem seals_of_told (h : (r.call c).2 = some true) : c.Seals := by
  cases c with
  | note o => cases h
  | finish o now => trivial
  | abandon now => trivial

def withNotes (first : Record) (os : List NodeOutcome) : Record :=
  { first with
    completed := (os.filter fun o => o.status ≠ .failed).map (·.node)
    lastNode := os.getLast?.map (·.node)
    lastExit := os.getLast?.map (·.exit) }

theorem note_withNotes (h : first.isSealed = false) (os : List NodeOutcome) (o : NodeOutcome) :
    (first.withNotes os).note o = first.withNotes (os ++ [o]) := by
  have hopen : (first.withNotes os).isSealed = false := h
  rw [note, hopen]
  by_cases hfailed : o.status = .failed <;> simp [withNotes, hfailed]

/-! ## Any calls -/

theorem SameAttempt.after (h : r.SameAttempt first) (calls : List Call) : (r.after calls).SameAttempt first := by
  induction calls generalizing r with
  | nil => exact h
  | cons c rest ih => exact ih (h.call c)

theorem after_of_isSealed (h : r.isSealed = true) (calls : List Call) : r.after calls = r := by
  induction calls with
  | nil => rfl
  | cons c rest ih => rw [after_cons, (call_of_isSealed h c).1, ih]

/-- As long as no call is to seal it, a record changes by what is noted in it and in no
    other way. -/
theorem after_of_notes (hopen : first.isSealed = false) {calls : List Call} (h : ∀ c ∈ calls, ¬c.Seals)
    (os : List NodeOutcome) : (first.withNotes os).after calls = first.withNotes (os ++ noted calls) := by
  induction calls generalizing os with
  | nil => simp [noted]
  | cons c rest ih =>
    have hrest := fun os => ih (fun b hb => h b (List.mem_cons_of_mem _ hb)) os
    cases c with
    | note o =>
      rw [after_cons, call, note_withNotes hopen, hrest]
      simp [noted]
    | finish o now => exact absurd trivial (h _ List.mem_cons_self)
    | abandon now => exact absurd trivial (h _ List.mem_cons_self)

/-- From the first call on that is to seal it, a record has its end. -/
theorem ended_of_seals (hopen : first.isSealed = false) {calls : List Call} (h : ∃ c ∈ calls, c.Seals)
    (os : List NodeOutcome) : ((first.withNotes os).after calls).Ended := by
  induction calls generalizing os with
  | nil =>
    obtain ⟨c, hc, -⟩ := h
    cases hc
  | cons c rest ih =>
    rw [after_cons]
    by_cases hc : c.Seals
    · have hended := (call_of_seals (r := first.withNotes os) hopen hc).1
      rwa [after_of_isSealed hended.finalStatus]
    · have hrest : ∃ b ∈ rest, b.Seals := by
        obtain ⟨b, hb, hseals⟩ := h
        rcases List.mem_cons.mp hb with rfl | hb
        · exact absurd hseals hc
        · exact ⟨b, hb, hseals⟩
      cases c with
      | note o =>
        rw [call, note_withNotes hopen]
        exact ih hrest _
      | finish o now => exact absurd trivial hc
      | abandon now => exact absurd trivial hc

/-- What an attempt is known by never changes. Before the first call that is to seal its
    record, the record has no end at all and holds what was noted; from then on it has its
    end. Only that first call is told that it sealed the record, and after it no call
    changes anything. -/
theorem lifecycle (id : ExecutionId) (started : Instant) (instanceId : InstanceId) (job : String) (attempt : Nat)
    (parameters : Parameters) (context : Context) (calls : List Call) :
    let first := Record.start id started instanceId job attempt parameters context
    let r := first.after calls
    r.SameAttempt first ∧
      ((∀ c ∈ calls, ¬c.Seals) →
        r.finalStatus = none ∧ r.finalExit = none ∧ r.ended = none ∧
          r.completed = ((noted calls).filter fun o => o.status ≠ .failed).map (·.node) ∧
          r.lastNode = (noted calls).getLast?.map (·.node) ∧ r.lastExit = (noted calls).getLast?.map (·.exit)) ∧
      ((∃ c ∈ calls, c.Seals) → r.Ended) ∧
      ∀ next : Call,
        ((r.call next).2 = some true ↔ next.Seals ∧ ∀ c ∈ calls, ¬c.Seals) ∧
        ((∃ c ∈ calls, c.Seals) → (r.call next).1 = r ∧ (next.Seals → (r.call next).2 = some false)) := by
  intro first r
  have hopen : first.isSealed = false := rfl
  have hnotes : (∀ c ∈ calls, ¬c.Seals) → r = first.withNotes (noted calls) := fun h => after_of_notes hopen h []
  have hended : (∃ c ∈ calls, c.Seals) → r.Ended := fun h => ended_of_seals hopen h []
  refine ⟨.after ⟨rfl, rfl, rfl, rfl, rfl, rfl⟩ calls, fun h => ?_, hended, fun next => ⟨⟨fun htold => ?_, ?_⟩, fun h => ?_⟩⟩
  · rw [hnotes h]
    exact ⟨rfl, rfl, rfl, rfl, rfl, rfl⟩
  · refine ⟨seals_of_told htold, fun c hc hseals => ?_⟩
    exact (call_of_isSealed (hended ⟨c, hc, hseals⟩).finalStatus next).2.1 htold
  · rintro ⟨hseals, hfree⟩
    rw [hnotes hfree]
    exact (call_of_seals (r := first.withNotes (noted calls)) hopen hseals).2
  · obtain ⟨hsame, -, hfalse⟩ := call_of_isSealed (hended h).finalStatus next
    exact ⟨hsame, hfalse⟩

end Switchyard.Record
