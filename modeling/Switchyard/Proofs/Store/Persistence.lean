import Switchyard.Flow.Start
import Switchyard.Proofs.Codec.Record
import Switchyard.Proofs.Store.Row

/-
  Switchyard.Proofs.Store.Persistence — what is stored comes back as it was, and goes on
  as it would have.

  A text form of JSON is `Faithful` if it reads back every value whose numbers are whole
  and have 64 bits, however deep the value nests. In such a form a record is read back
  from its text and from its row, a rule and an event from their text
  (`persistence_round_trip`); so the next attempt begins the same from the record that
  was stored as from the one that was not. The compact form nests 127 deep, and within
  that depth it is as good as a faithful one.
-/

namespace Switchyard

namespace Json.Form

variable {form : Form}

def Reads (form : Form) (j : Json) : Prop := form.read? (form.write j) = some j

def Faithful (form : Form) : Prop := ∀ j : Json, j.Plain → form.Reads j

theorem Reads.bind {α : Type} {j : Json} (h : form.Reads j) {read : Json → Option α} {a : α} (hread : read j = some a) :
    form.read? (form.write j) >>= read = some a := by
  rw [h, Option.bind_eq_bind, Option.bind_some, hread]

theorem compact_reads {j : Json} (h : j.Plain) (hdepth : j.depth ≤ maxDepth) : compact.Reads j := parse?_compact h hdepth

def unbounded : Form where
  write := Json.compact
  read? s :=
    let cs := s.toList
    match readValue cs.length (2 * cs.length + 2) cs with
    | some (j, []) => some j
    | _ => none

theorem unbounded_faithful : unbounded.Faithful := by
  intro j h
  have hread : readValue j.compact.toList.length (2 * j.compact.toList.length + 2) j.compact.toList = some (j, []) :=
    readValue_compact h (depth_le_length h)
  simp only [Reads, unbounded, hread]

end Json.Form

namespace Record

open Codec

theorem depth_slot_lt {r : Record} {j : Json} (h : some j ∈ r.slots.map (·.2)) : j.depth < r.toJson.depth := by
  obtain ⟨⟨k, v⟩, hs, hv⟩ := List.mem_map.mp h
  cases hv
  have hle := Json.depth_le_depthMembers (mem_written hs)
  rw [toJson_eq, Json.depth]
  exact Nat.lt_succ_of_le hle

theorem depth_branches_lt (r : Record) : (Json.obj (FlowOutcome.entriesJson r.branches.entries)).depth < r.toJson.depth := by
  have hcontext : (Context.toJson r.context).depth < r.toJson.depth := depth_slot_lt (by simp [slots])
  rw [Context.toJson, Json.depth] at hcontext
  by_cases hnone : r.branches.entries = []
  · rw [hnone, FlowOutcome.entriesJson, Json.depth, Json.depthMembers]
    omega
  · have hsome := FlowOutcome.splitsJson?_of_ne hnone
    exact depth_slot_lt (by simp [slots, hsome])

variable {form : Json.Form} {r : Record}

/-- A record is read back from its row in a form that reads what is less deep than the
    record. -/
theorem Storable.legible (h : r.Storable) (hform : ∀ j : Json, j.Plain → j.depth < r.toJson.depth → form.Reads j) :
    r.Legible form where
  attempt := h.attempt
  started := h.started
  ended := h.ended
  columns :=
    { parameters := (hform _ (Parameters.plain_toJson _) (depth_slot_lt (by simp [slots]))).bind
        (Parameters.ofJson?_toJson h.parameters)
      completed := (hform _ (plain_ofTexts _) (depth_slot_lt (by simp [slots]))).bind (listOf?_ofTexts _)
      branches := (hform _ (FlowOutcome.plain_entriesJson fun e he b hb => FlowOutcome.plain_toJson (h.branches e he b hb))
        r.depth_branches_lt).bind (FlowOutcome.splitsOfJson?_entriesJson h.splits h.branches)
      context := (hform _ (Context.plain_toJson h.context) (depth_slot_lt (by simp [slots]))).bind
        (Context.ofJson?_toJson h.context)
      lastExit := fun e he => (hform _ e.plain_toJson (depth_slot_lt (by simp [slots, Option.mem_def.mp he]))).bind
        e.ofJson?_toJson
      finalExit := fun e he => (hform _ e.plain_toJson (depth_slot_lt (by simp [slots, Option.mem_def.mp he]))).bind
        e.ofJson?_toJson
      failure := fun f hf => (hform _ (Failure.plain_toJson (h.failure f hf))
        (depth_slot_lt (by simp [slots, Option.mem_def.mp hf]))).bind (Failure.ofJson?_toJson (h.failure f hf)) }

/-- A record that nests one level deeper than the reader goes still has rows in compact
    text: its columns are one level down. -/
theorem Storable.legible_compact (h : r.Storable) (hdepth : r.toJson.depth ≤ Json.maxDepth + 1) : r.Legible :=
  h.legible fun _ hj hlt => Json.Form.compact_reads hj (by omega)

end Record

/-- A record comes back from its text and from its row, and an attempt that follows the
    one that came back begins as it would have. Rules and events come back from their
    texts. -/
theorem persistence_round_trip {form : Json.Form} (hform : form.Faithful) :
    (∀ r : Record, r.Storable →
      form.read? (form.write r.toJson) >>= Record.ofJson? = some r ∧
      (Row.ofRecordIn form r).toRecordIn form = .ok r ∧
      (∀ (g : Graph) (restartable : Bool),
        (((Row.ofRecordIn form r).toRecordIn form).map fun stored => StartPoint.resolve (some stored) g restartable) =
          .ok (StartPoint.resolve (some r) g restartable)) ∧
      (r.toJson.depth ≤ Json.maxDepth + 1 → (Row.ofRecord r).toRecord = .ok r)) ∧
    (∀ t : Transition, form.read? (form.write t.toJson) >>= Transition.ofJson? = some t) ∧
    ∀ e : Event, e.Bounded → form.read? (form.write e.toJson) >>= Event.ofJson? = some e := by
  refine ⟨fun r h => ?_, fun t => ?_, fun e h => ?_⟩
  · have hrow : (Row.ofRecordIn form r).toRecordIn form = .ok r :=
      Row.toRecordIn_ofRecordIn (h.legible fun j hj _ => hform j hj)
    have htext := (hform _ (Record.plain_toJson h)).bind (Record.ofJson?_toJson h)
    refine ⟨htext, hrow, ?_, fun hdepth => Row.toRecord_ofRecord (h.legible_compact hdepth)⟩
    intro g restartable
    rw [hrow]
    rfl
  · exact (hform _ t.plain_toJson).bind t.ofJson?_toJson
  · exact (hform _ (Event.plain_toJson h)).bind (Event.ofJson?_toJson h)

/-! ## A record with splits in splits -/

namespace Archive

def inner : FlowOutcome :=
  { flow := "part", status := .failed, exit := .failed, lastNode := some "parse", lastExit := some .failed,
    restartNode := some "parse", failure := some (.visitLimitExceeded "parse" 3) }

def outer : FlowOutcome :=
  { flow := "left", status := .failed, exit := Exit.failed.withDescription "bad row", completed := ["read"],
    splits := Dict.empty.insert "parts" [inner, { flow := "rest", status := .completed, exit := .completed }] }

def attempt : Record :=
  { id := ⟨5⟩
    instanceId := ⟨"nightly"⟩
    job := "nightly"
    attempt := 2
    parameters := Parameters.option (Parameters.identify Dict.empty "date" "2024-03-02") "run" "7"
    lastNode := some "fan"
    lastExit := some .failed
    finalStatus := some .failed
    finalExit := some .failed
    restartNode := some "fan"
    branches := Dict.empty.insert "fan" [outer]
    context := Dict.empty.insert "rows" (.obj [("bad", .int (-3)), ("good", .arr [.int 12, .str "a\nb"])])
    started := ⟨2024, 3, 2, 1, 30, 0, 125000000⟩
    ended := some ⟨2024, 3, 2, 1, 30, 9, 7⟩ }

theorem storable_inner : inner.Storable := by
  refine .intro (fun f hf => ?_) Dict.sorted_empty nofun
  cases hf
  exact Nat.le_of_ble_eq_true rfl

theorem storable_outer : outer.Storable := by
  refine .intro nofun (Dict.sorted_empty.insert _ _) fun e he b hb => ?_
  cases List.mem_singleton.mp he
  rcases List.mem_cons.mp hb with rfl | hb
  · exact storable_inner
  · cases List.mem_singleton.mp hb
    exact .intro nofun Dict.sorted_empty nofun

theorem storable_attempt : attempt.Storable where
  attempt := Nat.le_of_ble_eq_true rfl
  started := ⟨by decide, by decide, by decide, by decide⟩
  ended t ht := by
    cases ht
    exact ⟨by decide, by decide, by decide, by decide⟩
  parameters := (Dict.sorted_empty.insert _ _).insert _ _
  failure := nofun
  splits := Dict.sorted_empty.insert _ _
  branches e he b hb := by
    cases List.mem_singleton.mp he
    cases List.mem_singleton.mp hb
    exact storable_outer
  context :=
    { sorted := Dict.sorted_empty.insert _ _
      ordered := by
        intro e he
        cases List.mem_singleton.mp he
        refine .obj (by decide) ?_
        simp [Json.Ordered.int, Json.Ordered.str, Json.Ordered.arr]
      plain := by
        intro e he
        cases List.mem_singleton.mp he
        have hbad : (Json.int (-3)).Plain := .int (by decide) (by decide)
        have hnumber : (Json.int 12).Plain := .int (by decide) (by decide)
        have hgood : (Json.arr [.int 12, .str "a\nb"]).Plain := .arr (by simp [hnumber, Json.Plain.str])
        exact .obj (by simp [hbad, hgood]) }

theorem attempt_round_trip :
    Json.Form.unbounded.Faithful ∧ attempt.Storable ∧
      (Row.ofRecordIn .unbounded attempt).toRecordIn .unbounded = .ok attempt ∧ (Row.ofRecord attempt).toRecord = .ok attempt := by
  have hstored := (persistence_round_trip Json.Form.unbounded_faithful).1 attempt storable_attempt
  exact ⟨Json.Form.unbounded_faithful, storable_attempt, hstored.2.1, hstored.2.2.2 (by decide)⟩

end Archive

end Switchyard
