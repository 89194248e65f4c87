import Switchyard.Engine.Executor
import Switchyard.Proofs.Dict

/-
  Switchyard.Proofs.Parameters — what a launched job is given.

  The declared keys are put in one after the other, each with what is offered under it
  (`Offers`). A key that is declared again gets the same value again, and none gets in the
  way of another, so of the list only its set of keys is left, and of these only the ones
  under which something is offered (`extract_keys_eq_iff`).

  - `extract_by_keys`: the parameters of a launched job, entry by entry; and lists of the
    same keys give one child.
-/

namespace Switchyard

variable {σ : Type}

namespace Parameters

variable {c : Context} {p : Parameters} {key : String}

/-! ## One declared key -/

/-- What is offered under a key: the context's value, a string as it is and any other
    value as compact text; or, if the context does not have the key, the value of the
    launching job's parameter. -/
inductive Offers (c : Context) (p : Parameters) (key : String) : String → Prop where
  | text {s : String} : c.get? key = some (.str s) → Offers c p key s
  | value {j : Json} : c.get? key = some j → (∀ s, j ≠ .str s) → Offers c p key j.compact
  | parent {x : Parameter} : c.get? key = none → p.get? key = some x → Offers c p key x.value

theorem offers_iff {v : String} : Offers c p key v ↔ inherited? c p key = some v := by
  unfold inherited? Context.text? value?
  constructor
  · intro h
    cases h with
    | text hget => simp [hget, Json.asText]
    | @value j hget hne =>
      have hcompact : j.asText = j.compact := by
        cases j with
        | str s => exact absurd rfl (hne s)
        | _ => rfl
      simp [hget, hcompact]
    | parent hnone hget => simp [hnone, hget]
  · intro h
    cases hget : c.get? key with
    | some j =>
      simp only [hget, Option.map_some, Option.some.injEq] at h
      subst h
      cases j with
      | str s => exact .text hget
      | _ => exact .value hget nofun
    | none =>
      simp only [hget, Option.map_none, Option.map_eq_some_iff] at h
      obtain ⟨x, hx, rfl⟩ := h
      exact .parent hget hx

/-- Something is offered under the keys of the context and of the parameters. -/
theorem isSome_inherited?_iff :
    (inherited? c p key).isSome = true ↔ c.contains key = true ∨ p.contains key = true := by
  unfold inherited? Context.text? value? Dict.contains
  cases c.get? key <;> simp

def inherit (c : Context) (p acc : Parameters) (key : String) : Parameters :=
  match inherited? c p key with
  | some value => acc.identify key value
  | none => acc

theorem get?_inherit (c : Context) (p acc : Parameters) (k key : String) :
    (inherit c p acc k).get? key =
      if key = k then ((inherited? c p key).map (⟨·, true⟩)).or (acc.get? key) else acc.get? key := by
  unfold inherit
  by_cases h : key = k
  · subst h
    rw [if_pos rfl]
    cases inherited? c p key with
    | none => rfl
    | some value => exact Dict.get?_insert_self acc key _
  · rw [if_neg h]
    cases inherited? c p k with
    | none => rfl
    | some value => exact Dict.get?_insert_of_ne acc h _

theorem sorted_inherit {acc : Parameters} (h : acc.Sorted) (k : String) : (inherit c p acc k).Sorted := by
  unfold inherit
  cases inherited? c p k with
  | none => exact h
  | some value => exact h.insert k _

/-! ## All declared keys -/

theorem extract_eq_foldl (c : Context) (p : Parameters) (keys : List String) :
    extract c p keys = keys.foldl (inherit c p) Dict.empty := rfl

/-- A key that is declared twice has the value that it had already. -/
theorem get?_foldl_inherit (keys : List String) (acc : Parameters) (key : String) :
    (keys.foldl (inherit c p) acc).get? key =
      if key ∈ keys then ((inherited? c p key).map (⟨·, true⟩)).or (acc.get? key) else acc.get? key := by
  induction keys generalizing acc with
  | nil => rfl
  | cons k rest ih =>
    rw [List.foldl_cons, ih, get?_inherit]
    by_cases hk : key = k
    · subst hk
      by_cases hrest : key ∈ rest <;> cases inherited? c p key <;> simp [hrest]
    · by_cases hrest : key ∈ rest <;> simp [hk, hrest]

theorem get?_extract (c : Context) (p : Parameters) (keys : List String) (key : String) :
    (extract c p keys).get? key = if key ∈ keys then (inherited? c p key).map (⟨·, true⟩) else none := by
  rw [extract_eq_foldl, get?_foldl_inherit]
  split
  · exact Option.or_none
  · rfl

theorem sorted_extract (c : Context) (p : Parameters) (keys : List String) : (extract c p keys).Sorted := by
  have hfold : ∀ acc : Parameters, acc.Sorted → (keys.foldl (inherit c p) acc).Sorted := by
    induction keys with
    | nil => exact fun _ h => h
    | cons k rest ih => exact fun acc h => ih _ (sorted_inherit h k)
  exact hfold Dict.empty Dict.sorted_empty

theorem get?_extract_eq_some_iff {keys : List String} {x : Parameter} :
    (extract c p keys).get? key = some x ↔ key ∈ keys ∧ x.identifying = true ∧ Offers c p key x.value := by
  rw [get?_extract, offers_iff]
  obtain ⟨value, identifying⟩ := x
  by_cases hkey : key ∈ keys
  · cases inherited? c p key with
    | none => simp
    | some offered => simp [hkey, and_comm, eq_comm]
  · simp [hkey]

theorem contains_extract_iff {keys : List String} :
    (extract c p keys).contains key = true ↔ key ∈ keys ∧ (c.contains key = true ∨ p.contains key = true) := by
  rw [Dict.contains, get?_extract, ← isSome_inherited?_iff]
  by_cases hkey : key ∈ keys <;> simp [hkey]

/-- All that tells two lists of declared keys apart is which of the keys they have that
    something is offered under. -/
theorem extract_keys_eq_iff (c : Context) (p : Parameters) (keys keys' : List String) :
    extract c p keys = extract c p keys' ↔
      ∀ key, c.contains key = true ∨ p.contains key = true → (key ∈ keys ↔ key ∈ keys') := by
  constructor
  · intro h key hoffered
    have hdeclared : ∀ keys, key ∈ keys ↔ (extract c p keys).contains key = true := fun keys => by
      rw [contains_extract_iff, and_iff_left hoffered]
    rw [hdeclared, hdeclared, h]
  · intro h
    refine Dict.eq_of_get? (sorted_extract c p keys) (sorted_extract c p keys') fun key => ?_
    rw [get?_extract, get?_extract]
    cases hinherited : inherited? c p key with
    | none => simp
    | some value =>
      have hoffered := isSome_inherited?_iff.mp (Option.isSome_of_eq_some hinherited)
      simp only [h key hoffered]

theorem extract_eq_of_same_keys {keys keys' : List String} (h : ∀ key, key ∈ keys ↔ key ∈ keys') (c : Context)
    (p : Parameters) : extract c p keys = extract c p keys' :=
  (extract_keys_eq_iff c p keys keys').mpr fun key _ => h key

/-- What a launched job is given has an entry for each declared key that the context or the
    launching job's parameters have, and no other, in key order. Each is identifying, with
    the value that is offered under its key. So lists that declare the same keys, in any
    order and any number of times, give one child: a node that launches a job does the same
    with either, and the launched job is the same instance. -/
theorem extract_by_keys (c : Context) (p : Parameters) {keys keys' : List String}
    (h : ∀ key, key ∈ keys ↔ key ∈ keys') :
    extract c p keys = extract c p keys' ∧
      (extract c p keys).Sorted ∧
      (∀ key x, (key, x) ∈ (extract c p keys).entries ↔
        key ∈ keys ∧ x.identifying = true ∧ Offers c p key x.value) ∧
      (∀ key, (extract c p keys).contains key = true ↔
        key ∈ keys ∧ (c.contains key = true ∨ p.contains key = true)) ∧
      (∀ job, InstanceId.derive job (extract c p keys) = InstanceId.derive job (extract c p keys')) ∧
      ∀ (ex : Executor σ) (q : Progress) (job : String),
        Executor.visitSubJob ex q job keys = Executor.visitSubJob ex q job keys' := by
  have hsame := extract_eq_of_same_keys h
  refine ⟨hsame c p, sorted_extract c p keys, fun key x => ?_, fun key => contains_extract_iff, fun job => ?_,
    fun ex q job => ?_⟩
  · rw [← get?_extract_eq_some_iff]
    exact ⟨Dict.findEntry_of_mem (sorted_extract c p keys), Dict.mem_of_get?⟩
  · rw [hsame c p]
  · unfold Executor.visitSubJob
    simp only [hsame]

end Parameters

/-! ### A batch handed down -/

namespace Batch

open Parameters (extract Offers)

def context : Context := (Dict.empty.insert "batch" (.int 7)).insert "region" (.str "eu")

def parameters : Parameters := (Parameters.identify Dict.empty "region" "us").option "date" "2024-06-01"

def declared : List String := ["region", "batch", "date", "missing"]

def shuffled : List String := ["date", "batch", "missing", "batch", "region", "date"]

/-- The child is told of its region by the context, and its date becomes identifying. -/
theorem batch_handed_down :
    (∀ key, key ∈ declared ↔ key ∈ shuffled) ∧
      extract context parameters declared = extract context parameters shuffled ∧
      (extract context parameters shuffled).entries =
        [("batch", ⟨"7", true⟩), ("date", ⟨"2024-06-01", true⟩), ("region", ⟨"eu", true⟩)] ∧
      InstanceId.derive "load" (extract context parameters declared) =
        InstanceId.derive "load" (extract context parameters shuffled) := by
  have hkeys : ∀ key, key ∈ declared ↔ key ∈ shuffled := by
    intro key
    simp only [declared, shuffled, List.mem_cons, List.not_mem_nil, or_false]
    grind
  obtain ⟨hsame, -, -, -, hinstance, -⟩ := @Parameters.extract_by_keys Unit context parameters _ _ hkeys
  exact ⟨hkeys, hsame, by decide +kernel, hinstance "load"⟩

end Batch

end Switchyard
