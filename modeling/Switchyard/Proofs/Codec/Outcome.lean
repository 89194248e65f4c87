import Switchyard.Codec.Outcome
import Switchyard.Proofs.Codec.Shape
import Switchyard.Proofs.Json.Text

/-
  Switchyard.Proofs.Codec.Outcome — exit signals, transitions, failures and outcomes are
  read back from JSON.

  Each is told as the slots of its object (`toJson_eq`), from which its fields are read
  one by one. An outcome holds the outcomes of its branches, so it is read back by
  induction on the fuel, which is more than the depth of its value and so enough for
  every outcome in it (`FlowOutcome.read?_toJson`). What is asked of an outcome is that
  its visit limits have 32 bits and its splits are in key order, at every depth
  (`FlowOutcome.Storable`).
-/

namespace Switchyard

open Codec

theorem Status.ofJson?_toJson (s : Status) : Status.ofJson? s.toJson = some s := Status.ofName?_name s

theorem Status.plain_toJson (s : Status) : s.toJson.Plain := .str _

theorem Codec.plain_ofTexts (l : List String) : (ofTexts l).Plain := by
  refine .arr fun j hj => ?_
  obtain ⟨s, -, rfl⟩ := List.mem_map.mp hj
  exact .str s

/-- An object is plain if what its slots hold is. -/
theorem Codec.plain_written {slots : List (String × Option Json)} (h : ∀ s ∈ slots, ∀ j ∈ s.2, j.Plain) :
    (Json.obj (written slots)).Plain := by
  refine .obj fun m hm => ?_
  obtain ⟨s, hs, hm⟩ := List.mem_filterMap.mp hm
  obtain ⟨j, hj, rfl⟩ := Option.map_eq_some_iff.mp hm
  exact h s hs j hj

theorem Codec.plain_some {j : Json} (h : j.Plain) : ∀ k ∈ some j, k.Plain := by
  intro k hk
  cases hk
  exact h

theorem Codec.plain_map {α : Type} {write : α → Json} {v : Option α} (h : ∀ a ∈ v, (write a).Plain) :
    ∀ j ∈ v.map write, j.Plain := by
  intro j hj
  obtain ⟨a, ha, rfl⟩ := Option.map_eq_some_iff.mp hj
  exact h a ha

theorem Json.plain_nat {n : Nat} (h : n ≤ Text.maxU64) : (Json.nat n).Plain :=
  .int (by simp only [Int.ofNat_eq_natCast]; omega) (Int.ofNat_le.mpr h)

namespace Exit

def slots (e : Exit) : List (String × Option Json) :=
  [("code", some (.str e.code)), ("description", if e.description = "" then none else some (.str e.description))]

theorem nodup_slots (e : Exit) : (e.slots.map (·.1)).Nodup := show ["code", "description"].Nodup by decide

theorem toJson_eq (e : Exit) : e.toJson = .obj (written e.slots) := by
  simp only [toJson, slots]
  split <;> rfl

theorem ofJson?_toJson (e : Exit) : ofJson? e.toJson = some e := by
  rw [toJson_eq, ofJson?, fields?_written e.nodup_slots]
  by_cases h : e.description = ""
  · simp [slotted, slots, required, defaulted, Dict.findEntry, text?, h]
    rw [← h]
  · simp [slotted, slots, required, defaulted, Dict.findEntry, text?, h]

theorem plain_toJson (e : Exit) : e.toJson.Plain := by
  rw [toJson_eq]
  refine plain_written ?_
  simp only [slots, List.forall_mem_cons]
  refine ⟨plain_some (.str _), ?_, nofun⟩
  split
  · nofun
  · exact plain_some (.str _)

end Exit

namespace Transition

def slots (t : Transition) : List (String × Option Json) :=
  [("pattern", some (.str t.pattern)),
   ("action", some (.str (match t.action with
    | .goto _ => "continue"
    | .complete => "end"
    | .fail => "fail"
    | .stop _ => "stop"))),
   ("target", match t.action with
    | .goto target => some (.str target)
    | _ => none),
   ("restart", match t.action with
    | .stop restart => some (.str restart)
    | _ => none),
   ("exit_code", t.exitCode.map .str), ("status", t.status.map Status.toJson)]

theorem nodup_slots (t : Transition) : (t.slots.map (·.1)).Nodup :=
  show ["pattern", "action", "target", "restart", "exit_code", "status"].Nodup by decide

theorem toJson_eq (t : Transition) : t.toJson = .obj (written t.slots) := by
  obtain ⟨pattern, action, exitCode, status⟩ := t
  cases action <;> simp [toJson, slots, actionJson]

/-- The action is read from its name and the field it brings along. -/
theorem action?_toJson (t : Transition) :
    ∃ name, slotted t.slots "action" = some (.str name) ∧ action? t.toJson (.str name) = some t.action := by
  have hfields (names : List String) := objectFields?_written t.nodup_slots names
  rw [toJson_eq]
  obtain ⟨pattern, action, exitCode, status⟩ := t
  cases action with
  | goto target =>
    refine ⟨"continue", by simp [slotted, slots, Dict.findEntry], ?_⟩
    rw [action?, hfields]
    simp [slotted, slots, Dict.findEntry, required, text?]
  | complete => exact ⟨"end", by simp [slotted, slots, Dict.findEntry], rfl⟩
  | fail => exact ⟨"fail", by simp [slotted, slots, Dict.findEntry], rfl⟩
  | stop restart =>
    refine ⟨"stop", by simp [slotted, slots, Dict.findEntry], ?_⟩
    rw [action?, hfields]
    simp [slotted, slots, Dict.findEntry, required, text?]

theorem ofJson?_toJson (t : Transition) : ofJson? t.toJson = some t := by
  obtain ⟨name, hname, haction⟩ := action?_toJson t
  have hexit : optional (slotted t.slots) "exit_code" text? = some t.exitCode :=
    optional_text (by simp [slotted, slots, Dict.findEntry])
  have hstatus : optional (slotted t.slots) "status" Status.ofJson? = some t.status :=
    optional_eq Status.toJson (by simp [slotted, slots, Dict.findEntry]) rfl fun s _ => s.ofJson?_toJson
  have hpattern : required (slotted t.slots) "pattern" text? = some t.pattern :=
    required_text (by simp [slotted, slots, Dict.findEntry])
  rw [ofJson?]
  conv in objectFields? _ _ => rw [toJson_eq, objectFields?_written t.nodup_slots]
  simp only [Option.bind_eq_bind, Option.bind_some, hpattern, required_eq hname haction, hexit, hstatus]

theorem plain_toJson (t : Transition) : t.toJson.Plain := by
  rw [toJson_eq]
  refine plain_written ?_
  simp only [slots, List.forall_mem_cons]
  refine ⟨plain_some (.str _), plain_some (.str _), ?_, ?_, plain_map fun _ _ => .str _,
    plain_map fun s _ => s.plain_toJson, nofun⟩
  · split
    · exact plain_some (.str _)
    · nofun
  · split
    · exact plain_some (.str _)
    · nofun

end Transition

namespace Failure

def Bounded : Failure → Prop
  | visitLimitExceeded _ limit => limit ≤ Text.maxU32
  | _ => True

theorem ofJson?_toJson {f : Failure} (h : f.Bounded) : ofJson? f.toJson = some f := by
  cases f with
  | unresolvedTransition node exitCode => rfl
  | unknownStep node step => rfl
  | unknownDecider node decider => rfl
  | visitLimitExceeded node limit =>
    have hlimit : natural? Text.maxU32 (.nat limit) = some limit := natural?_nat h
    simp [ofJson?, toJson, ofKind?, objectFields?, noFieldTwice, required, Dict.findEntry, text?, hlimit]

theorem plain_toJson {f : Failure} (h : f.Bounded) : f.toJson.Plain := by
  cases f with
  | unresolvedTransition node exitCode => exact .obj (by simp [Json.Plain.str])
  | unknownStep node step => exact .obj (by simp [Json.Plain.str])
  | unknownDecider node decider => exact .obj (by simp [Json.Plain.str])
  | visitLimitExceeded node limit =>
    have hlimit : (Json.nat limit).Plain := Json.plain_nat (Nat.le_trans h (by decide))
    exact .obj (by simp [Json.Plain.str, hlimit])

end Failure

namespace FlowOutcome

/-- The outcome and those of its branches, at every depth, can be stored. -/
inductive Storable : FlowOutcome → Prop
  | intro {o : FlowOutcome} (failure : ∀ f ∈ o.failure, f.Bounded) (sorted : o.splits.Sorted)
      (branches : ∀ e ∈ o.splits.entries, ∀ b ∈ e.2, Storable b) : Storable o

theorem branchesJson_eq (os : List FlowOutcome) : branchesJson os = os.map toJson := by
  induction os with
  | nil => rfl
  | cons o rest ih => rw [branchesJson, ih, List.map_cons]

def listJson (os : List FlowOutcome) : Json := .arr (os.map toJson)

theorem entriesJson_eq (d : Dict (List FlowOutcome)) : entriesJson d.entries = (d.map listJson).entries := by
  obtain ⟨es⟩ := d
  show entriesJson es = es.map fun e => (e.1, listJson e.2)
  induction es with
  | nil => rfl
  | cons e rest ih => rw [entriesJson, ih, branchesJson_eq, List.map_cons, listJson]

def slots (o : FlowOutcome) : List (String × Option Json) :=
  [("flow", some (.str o.flow)), ("status", some o.status.toJson), ("exit", some o.exit.toJson),
   ("completed_nodes", some (ofTexts o.completed)), ("last_node", o.lastNode.map .str),
   ("last_exit", o.lastExit.map Exit.toJson), ("restart_node", o.restartNode.map .str),
   ("failure", o.failure.map Failure.toJson), ("splits", splitsJson? o.splits)]

theorem nodup_slots (o : FlowOutcome) : (o.slots.map (·.1)).Nodup := show fieldNames.Nodup by decide

theorem toJson_eq (o : FlowOutcome) : o.toJson = .obj (written o.slots) := by
  obtain ⟨flow, status, exit, completed, lastNode, lastExit, restartNode, failure, splits⟩ := o
  simp [toJson, slots]

theorem splitsJson?_of_ne {d : Dict (List FlowOutcome)} (h : d.entries ≠ []) :
    splitsJson? d = some (.obj (entriesJson d.entries)) := by
  obtain ⟨es⟩ := d
  cases es with
  | nil => exact absurd rfl h
  | cons e rest => rfl

theorem mapOf?_splits {read : Json → Option FlowOutcome} {d : Dict (List FlowOutcome)} (hd : d.Sorted)
    (hread : ∀ e ∈ d.entries, ∀ b ∈ e.2, read b.toJson = some b) :
    mapOf? (listOf? read) (.obj (entriesJson d.entries)) = some d := by
  rw [entriesJson_eq]
  exact mapOf?_map hd fun e he => listOf?_map (hread e he)

/-- Splits are read back whether they are written or, being none, left out. -/
theorem defaulted_splits {f : Fields} {name : String} {read : Json → Option FlowOutcome} {d : Dict (List FlowOutcome)}
    (hfield : f name = splitsJson? d) (hd : d.Sorted) (hread : ∀ e ∈ d.entries, ∀ b ∈ e.2, read b.toJson = some b) :
    defaulted f name ⟨[]⟩ (mapOf? (listOf? read)) = some d := by
  have hsplits := mapOf?_splits hd hread
  obtain ⟨es⟩ := d
  cases es with
  | nil => exact defaulted_absent hfield
  | cons e rest => exact defaulted_eq hfield hsplits

theorem mem_written_splits {o : FlowOutcome} {e : String × List FlowOutcome} (he : e ∈ o.splits.entries) :
    ("splits", .obj (entriesJson o.splits.entries)) ∈ written o.slots := by
  have hsome := splitsJson?_of_ne (List.ne_nil_of_mem he)
  exact mem_written (by simp [slots, hsome])

/-- The outcome of a branch is less deep than the outcome that holds it. -/
theorem depth_branch_lt {o : FlowOutcome} {e : String × List FlowOutcome} (he : e ∈ o.splits.entries) {b : FlowOutcome}
    (hb : b ∈ e.2) : b.toJson.depth < o.toJson.depth := by
  have hitems : b.toJson.depth ≤ Json.depthItems (e.2.map toJson) := Json.depth_le_depthItems (List.mem_map_of_mem hb)
  have hentry : (e.1, listJson e.2) ∈ entriesJson o.splits.entries := by
    rw [entriesJson_eq]
    exact List.mem_map_of_mem (f := fun e => (e.1, listJson e.2)) he
  have hentries : (listJson e.2).depth ≤ Json.depthMembers (entriesJson o.splits.entries) :=
    Json.depth_le_depthMembers hentry
  have hmembers := Json.depth_le_depthMembers (mem_written_splits he)
  rw [toJson_eq o]
  simp only [listJson, Json.depth] at hentries hmembers ⊢
  omega

/-- Fuel above the depth of its value is enough to read an outcome back. -/
theorem read?_toJson {o : FlowOutcome} (h : o.Storable) {fuel : Nat} (hfuel : o.toJson.depth < fuel) :
    read? fuel o.toJson = some o := by
  induction fuel generalizing o with
  | zero => omega
  | succ fuel ih =>
    obtain ⟨hbounded, hsorted, hbranches⟩ := h
    have hflow : required (slotted o.slots) "flow" text? = some o.flow := required_text rfl
    have hstatus : required (slotted o.slots) "status" Status.ofJson? = some o.status :=
      required_eq (by simp [slotted, slots, Dict.findEntry]) o.status.ofJson?_toJson
    have hexit : required (slotted o.slots) "exit" Exit.ofJson? = some o.exit :=
      required_eq (by simp [slotted, slots, Dict.findEntry]) o.exit.ofJson?_toJson
    have hcompleted : defaulted (slotted o.slots) "completed_nodes" [] (listOf? text?) = some o.completed :=
      defaulted_eq (by simp [slotted, slots, Dict.findEntry]) (listOf?_ofTexts o.completed)
    have hlastNode : optional (slotted o.slots) "last_node" text? = some o.lastNode :=
      optional_text (by simp [slotted, slots, Dict.findEntry])
    have hlastExit : optional (slotted o.slots) "last_exit" Exit.ofJson? = some o.lastExit :=
      optional_eq Exit.toJson (by simp [slotted, slots, Dict.findEntry]) rfl fun e _ => e.ofJson?_toJson
    have hrestart : optional (slotted o.slots) "restart_node" text? = some o.restartNode :=
      optional_text (by simp [slotted, slots, Dict.findEntry])
    have hfailure : optional (slotted o.slots) "failure" Failure.ofJson? = some o.failure :=
      optional_eq Failure.toJson (by simp [slotted, slots, Dict.findEntry]) rfl fun f hf =>
        Failure.ofJson?_toJson (hbounded f hf)
    have hsplits : defaulted (slotted o.slots) "splits" ⟨[]⟩ (mapOf? (listOf? (read? fuel))) = some o.splits := by
      refine defaulted_splits (by simp [slotted, slots, Dict.findEntry]) hsorted fun e he b hb => ?_
      have hlt := depth_branch_lt he hb
      exact ih (hbranches e he b hb) (by omega)
    rw [read?]
    conv in fields? _ _ => rw [toJson_eq, fields?_written o.nodup_slots]
    simp only [Option.bind_eq_bind, Option.bind_some, hflow, hstatus, hexit, hcompleted, hlastNode, hlastExit, hrestart,
      hfailure, hsplits]
    cases o
    rfl

theorem ofJson?_toJson {o : FlowOutcome} (h : o.Storable) : ofJson? o.toJson = some o :=
  read?_toJson h (Nat.lt_succ_self _)

theorem splitsOfJson?_entriesJson {d : Dict (List FlowOutcome)} (hd : d.Sorted)
    (h : ∀ e ∈ d.entries, ∀ b ∈ e.2, Storable b) : splitsOfJson? (.obj (entriesJson d.entries)) = some d :=
  mapOf?_splits hd fun e he b hb => ofJson?_toJson (h e he b hb)

theorem plain_entriesJson {d : Dict (List FlowOutcome)} (h : ∀ e ∈ d.entries, ∀ b ∈ e.2, b.toJson.Plain) :
    (Json.obj (entriesJson d.entries)).Plain := by
  rw [entriesJson_eq]
  refine .obj fun m hm => ?_
  obtain ⟨e, he, rfl⟩ := List.mem_map.mp hm
  refine .arr fun j hj => ?_
  obtain ⟨b, hb, rfl⟩ := List.mem_map.mp hj
  exact h e he b hb

theorem plain_splitsJson? {d : Dict (List FlowOutcome)} (h : ∀ e ∈ d.entries, ∀ b ∈ e.2, b.toJson.Plain) :
    ∀ j ∈ splitsJson? d, j.Plain := by
  intro j hj
  have hplain := plain_entriesJson h
  obtain ⟨es⟩ := d
  cases es with
  | nil => cases hj
  | cons e rest =>
    cases hj
    exact hplain

theorem plain_toJson {o : FlowOutcome} (h : o.Storable) : o.toJson.Plain := by
  induction h with
  | @intro o hbounded hsorted hbranches ih =>
    rw [toJson_eq]
    refine plain_written ?_
    simp only [slots, List.forall_mem_cons]
    exact ⟨plain_some (.str _), plain_some o.status.plain_toJson, plain_some o.exit.plain_toJson,
      plain_some (plain_ofTexts _), plain_map fun _ _ => .str _, plain_map fun e _ => e.plain_toJson,
      plain_map fun _ _ => .str _, plain_map fun f hf => Failure.plain_toJson (hbounded f hf), plain_splitsJson? ih, nofun⟩

end FlowOutcome

end Switchyard
