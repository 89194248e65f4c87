import Switchyard.Codec.Record
import Switchyard.Proofs.Codec.Outcome
import Switchyard.Proofs.ExecutionId

/-
  Switchyard.Proofs.Codec.Record — parameters, contexts, records and events are read
  back from JSON.

  A context is read in its canonical form, which is the context itself where the members
  of every object are in key order (`Json.Ordered`), as they are in every value that a
  node can hand on. Of a record it is asked (`Record.Storable`) that its numbers have
  their width, its times are real and of four-digit years, its maps are in key order
  and its context holds no number with a fraction.
-/

namespace Switchyard

open Codec

namespace Json

/-- The members of every object in the value are in key order. -/
inductive Ordered : Json → Prop
  | null : Ordered .null
  | bool (b : Bool) : Ordered (.bool b)
  | int (n : Int) : Ordered (.int n)
  | real (x : Binary64) : Ordered (.real x)
  | str (s : String) : Ordered (.str s)
  | arr {items : List Json} (each : ∀ j ∈ items, Ordered j) : Ordered (.arr items)
  | obj {members : List (String × Json)} (sorted : members.Pairwise fun a b => a.1 < b.1)
      (each : ∀ m ∈ members, Ordered m.2) : Ordered (.obj members)

theorem canonicalItems_eq {items : List Json} (h : ∀ j ∈ items, j.canonical = j) : canonicalItems items = items := by
  induction items with
  | nil => rfl
  | cons j rest ih =>
    rw [canonicalItems, h j List.mem_cons_self, ih fun k hk => h k (List.mem_cons_of_mem _ hk)]

/-- Members in key order stay as they are. -/
theorem canonicalMembers_eq {members : List (String × Json)} (hsorted : members.Pairwise fun a b => a.1 < b.1)
    (h : ∀ m ∈ members, m.2.canonical = m.2) : canonicalMembers members = members := by
  induction members with
  | nil => rfl
  | cons m rest ih =>
    obtain ⟨k, j⟩ := m
    obtain ⟨hkey, hrest⟩ := List.pairwise_cons.mp hsorted
    have hj : j.canonical = j := h (k, j) List.mem_cons_self
    have htail := ih hrest fun x hx => h x (List.mem_cons_of_mem _ hx)
    have habsent : Dict.findEntry k rest = none :=
      Dict.findEntry_eq_none fun e he heq => String.lt_irrefl k (heq ▸ hkey e he)
    simp only [canonicalMembers, htail, habsent, hj]
    cases rest with
    | nil => rfl
    | cons e rest =>
      have hlt : k < e.1 := hkey e List.mem_cons_self
      have hne : k ≠ e.1 := by
        intro heq
        exact String.lt_irrefl k (heq ▸ hlt)
      simp [Dict.insertEntry, hne, hlt]

theorem Ordered.canonical_eq {j : Json} (h : j.Ordered) : j.canonical = j := by
  induction h with
  | arr each ih => exact congrArg Json.arr (canonicalItems_eq ih)
  | obj sorted each ih => exact congrArg Json.obj (canonicalMembers_eq sorted ih)
  | _ => rfl

end Json

/-! ## Parameters and contexts -/

theorem Parameter.ofJson?_toJson (p : Parameter) : ofJson? p.toJson = some p := by
  obtain ⟨value, identifying⟩ := p
  rfl

theorem Parameter.plain_toJson (p : Parameter) : p.toJson.Plain := .obj (by simp [Json.Plain.str, Json.Plain.bool])

theorem Parameters.ofJson?_toJson {p : Parameters} (h : p.Sorted) : ofJson? (toJson p) = some p :=
  mapOf?_map h fun e _ => e.2.ofJson?_toJson

theorem Parameters.plain_toJson (p : Parameters) : (toJson p).Plain := by
  refine .obj fun m hm => ?_
  obtain ⟨e, -, rfl⟩ := List.mem_map.mp hm
  exact e.2.plain_toJson

namespace Context

/-- The values can be stored: their numbers are whole and have 64 bits, and all members
    are in key order. -/
structure Storable (c : Context) : Prop where
  sorted : c.Sorted
  ordered : ∀ e ∈ c.entries, e.2.Ordered
  plain : ∀ e ∈ c.entries, e.2.Plain

theorem ofJson?_toJson {c : Context} (h : c.Storable) : ofJson? (toJson c) = some c := by
  have hsame := Json.canonicalMembers_eq h.sorted fun m hm => (h.ordered m hm).canonical_eq
  rw [toJson, ofJson?, hsame]

theorem plain_toJson {c : Context} (h : c.Storable) : (toJson c).Plain := .obj h.plain

end Context

/-! ## Identifiers and times -/

theorem ExecutionId.ofJson?_text (id : ExecutionId) : ofJson? (.str id.text) = some id := by
  simp only [ofJson?, text?, Option.bind_eq_bind, Option.bind_some, parse?_text]

theorem InstanceId.ofJson?_text (id : InstanceId) : ofJson? (.str id.text) = some id := rfl

theorem Instant.ofJson?_zulu {t : Instant} (h : t.Regular) : ofJson? (.str t.zulu) = some t := by
  simp only [ofJson?, text?, Option.bind_eq_bind, Option.bind_some, parseLoose?_zulu h]

/-! ## Records -/

namespace Record

structure Storable (r : Record) : Prop where
  attempt : r.attempt ≤ Text.maxU32
  started : r.started.Regular
  ended : ∀ t ∈ r.ended, t.Regular
  parameters : r.parameters.Sorted
  failure : ∀ f ∈ r.failure, f.Bounded
  splits : r.branches.Sorted
  branches : ∀ e ∈ r.branches.entries, ∀ b ∈ e.2, b.Storable
  context : r.context.Storable

def slots (r : Record) : List (String × Option Json) :=
  [("execution_id", some (.str r.id.text)), ("instance_id", some (.str r.instanceId.text)),
   ("job_name", some (.str r.job)), ("attempt", some (.nat r.attempt)),
   ("parameters", some (Parameters.toJson r.parameters)), ("completed_nodes", some (ofTexts r.completed)),
   ("last_node", r.lastNode.map .str), ("last_exit", r.lastExit.map Exit.toJson),
   ("final_status", r.finalStatus.map Status.toJson), ("final_exit", r.finalExit.map Exit.toJson),
   ("restart_node", r.restartNode.map .str), ("failure", r.failure.map Failure.toJson),
   ("branches", FlowOutcome.splitsJson? r.branches), ("context", some (Context.toJson r.context)),
   ("started_at", some (.str r.started.zulu)), ("ended_at", r.ended.map fun t => .str t.zulu)]

theorem nodup_slots (r : Record) : (r.slots.map (·.1)).Nodup := show fieldNames.Nodup by decide

theorem toJson_eq (r : Record) : r.toJson = .obj (written r.slots) := by
  simp [toJson, slots]

theorem ofJson?_toJson {r : Record} (h : r.Storable) : ofJson? r.toJson = some r := by
  have hid : required (slotted r.slots) "execution_id" ExecutionId.ofJson? = some r.id :=
    required_eq (by simp [slotted, slots, Dict.findEntry]) r.id.ofJson?_text
  have hinstance : required (slotted r.slots) "instance_id" InstanceId.ofJson? = some r.instanceId :=
    required_eq (by simp [slotted, slots, Dict.findEntry]) r.instanceId.ofJson?_text
  have hjob : required (slotted r.slots) "job_name" text? = some r.job :=
    required_text (by simp [slotted, slots, Dict.findEntry])
  have hattempt : required (slotted r.slots) "attempt" (natural? Text.maxU32) = some r.attempt :=
    required_eq (by simp [slotted, slots, Dict.findEntry]) (natural?_nat h.attempt)
  have hparameters : defaulted (slotted r.slots) "parameters" Dict.empty Parameters.ofJson? = some r.parameters :=
    defaulted_eq (by simp [slotted, slots, Dict.findEntry]) (Parameters.ofJson?_toJson h.parameters)
  have hcompleted : defaulted (slotted r.slots) "completed_nodes" [] (listOf? text?) = some r.completed :=
    defaulted_eq (by simp [slotted, slots, Dict.findEntry]) (listOf?_ofTexts r.completed)
  have hlastNode : optional (slotted r.slots) "last_node" text? = some r.lastNode :=
    optional_text (by simp [slotted, slots, Dict.findEntry])
  have hlastExit : optional (slotted r.slots) "last_exit" Exit.ofJson? = some r.lastExit :=
    optional_eq Exit.toJson (by simp [slotted, slots, Dict.findEntry]) rfl fun e _ => e.ofJson?_toJson
  have hfinalStatus : optional (slotted r.slots) "final_status" Status.ofJson? = some r.finalStatus :=
    optional_eq Status.toJson (by simp [slotted, slots, Dict.findEntry]) rfl fun s _ => s.ofJson?_toJson
  have hfinalExit : optional (slotted r.slots) "final_exit" Exit.ofJson? = some r.finalExit :=
    optional_eq Exit.toJson (by simp [slotted, slots, Dict.findEntry]) rfl fun e _ => e.ofJson?_toJson
  have hrestart : optional (slotted r.slots) "restart_node" text? = some r.restartNode :=
    optional_text (by simp [slotted, slots, Dict.findEntry])
  have hfailure : optional (slotted r.slots) "failure" Failure.ofJson? = some r.failure :=
    optional_eq Failure.toJson (by simp [slotted, slots, Dict.findEntry]) rfl fun f hf =>
      Failure.ofJson?_toJson (h.failure f hf)
  have hbranches : defaulted (slotted r.slots) "branches" Dict.empty FlowOutcome.splitsOfJson? = some r.branches :=
    FlowOutcome.defaulted_splits (by simp [slotted, slots, Dict.findEntry]) h.splits fun e he b hb =>
      FlowOutcome.ofJson?_toJson (h.branches e he b hb)
  have hcontext : defaulted (slotted r.slots) "context" Dict.empty Context.ofJson? = some r.context :=
    defaulted_eq (by simp [slotted, slots, Dict.findEntry]) (Context.ofJson?_toJson h.context)
  have hstarted : required (slotted r.slots) "started_at" Instant.ofJson? = some r.started :=
    required_eq (by simp [slotted, slots, Dict.findEntry]) (Instant.ofJson?_zulu h.started)
  have hended : optional (slotted r.slots) "ended_at" Instant.ofJson? = some r.ended :=
    optional_eq (fun t : Instant => .str t.zulu) (by simp [slotted, slots, Dict.findEntry]) rfl fun t ht =>
      Instant.ofJson?_zulu (h.ended t ht)
  rw [toJson_eq, ofJson?, fields?_written r.nodup_slots, Option.bind_eq_bind, Option.bind_some, hid, hinstance, hjob,
    hattempt, hparameters, hcompleted, hlastNode, hlastExit, hfinalStatus, hfinalExit, hrestart, hfailure, hbranches,
    hcontext, hstarted, hended]
  rfl

theorem plain_toJson {r : Record} (h : r.Storable) : r.toJson.Plain := by
  have hbranches : ∀ j ∈ FlowOutcome.splitsJson? r.branches, j.Plain :=
    FlowOutcome.plain_splitsJson? fun e he b hb => FlowOutcome.plain_toJson (h.branches e he b hb)
  have hattempt : (Json.nat r.attempt).Plain := Json.plain_nat (Nat.le_trans h.attempt (by decide))
  rw [toJson_eq]
  refine plain_written ?_
  simp only [slots, List.forall_mem_cons]
  exact ⟨plain_some (.str _), plain_some (.str _), plain_some (.str _), plain_some hattempt,
    plain_some (Parameters.plain_toJson _), plain_some (plain_ofTexts _), plain_map fun _ _ => .str _,
    plain_map fun e _ => e.plain_toJson, plain_map fun s _ => s.plain_toJson, plain_map fun e _ => e.plain_toJson,
    plain_map fun _ _ => .str _, plain_map fun f hf => Failure.plain_toJson (h.failure f hf), hbranches,
    plain_some (Context.plain_toJson h.context), plain_some (.str _), plain_map fun _ _ => .str _, nofun⟩

end Record

/-! ## Events -/

namespace Event

def Bounded : Event → Prop
  | jobStarted _ _ _ attempt _ => attempt ≤ Text.maxU32
  | nodeStarted _ _ _ => True
  | nodeFinished _ _ _ _ _ millis => millis ≤ Text.maxU64
  | jobFinished _ _ _ _ _ millis => millis ≤ Text.maxU64

theorem ofJson?_toJson {e : Event} (h : e.Bounded) : ofJson? e.toJson = some e := by
  cases e with
  | jobStarted id instanceId job attempt startNode =>
    have hattempt : natural? Text.maxU32 (.nat attempt) = some attempt := natural?_nat h
    simp [ofJson?, toJson, ofType?, objectFields?, noFieldTwice, required, Dict.findEntry, text?, id.ofJson?_text,
      instanceId.ofJson?_text, hattempt]
  | nodeStarted id flow node =>
    simp [ofJson?, toJson, ofType?, objectFields?, noFieldTwice, required, Dict.findEntry, text?, id.ofJson?_text]
  | nodeFinished id flow node status exit millis =>
    have hmillis : natural? Text.maxU64 (.nat millis) = some millis := natural?_nat h
    simp [ofJson?, toJson, ofType?, objectFields?, noFieldTwice, required, Dict.findEntry, text?, id.ofJson?_text,
      status.ofJson?_toJson, exit.ofJson?_toJson, hmillis]
  | jobFinished id instanceId job status exit millis =>
    have hmillis : natural? Text.maxU64 (.nat millis) = some millis := natural?_nat h
    simp [ofJson?, toJson, ofType?, objectFields?, noFieldTwice, required, Dict.findEntry, text?, id.ofJson?_text,
      instanceId.ofJson?_text, status.ofJson?_toJson, exit.ofJson?_toJson, hmillis]

theorem plain_toJson {e : Event} (h : e.Bounded) : e.toJson.Plain := by
  cases e with
  | jobStarted id instanceId job attempt startNode =>
    have hattempt : (Json.nat attempt).Plain := Json.plain_nat (Nat.le_trans h (by decide))
    exact .obj (by simp [Json.Plain.str, hattempt])
  | nodeStarted id flow node => exact .obj (by simp [Json.Plain.str])
  | nodeFinished id flow node status exit millis =>
    have hmillis : (Json.nat millis).Plain := Json.plain_nat h
    exact .obj (by simp [Json.Plain.str, status.plain_toJson, exit.plain_toJson, hmillis])
  | jobFinished id instanceId job status exit millis =>
    have hmillis : (Json.nat millis).Plain := Json.plain_nat h
    exact .obj (by simp [Json.Plain.str, status.plain_toJson, exit.plain_toJson, hmillis])

end Event

end Switchyard
