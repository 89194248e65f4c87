import Mathlib.Data.List.Nodup
import Switchyard.Codec.Shape
import Switchyard.Proofs.Dict

/-
  Switchyard.Proofs.Codec.Shape — what is written in a shape is read in that shape.

  A structure is written as an object that leaves out what is absent, so its members are
  those of its slots that are filled (`written`). No two slots have one name, and then a
  reader finds no field twice and finds in each field what its slot holds
  (`objectFields?_written`, `fields?_written`). A reader that takes each part of a list
  or of a map for what it was written from takes the whole for it.
-/

namespace Switchyard

@[simp] theorem Json.optional_some (k : String) (j : Json) : Json.optional k (some j) = [(k, j)] := rfl

@[simp] theorem Json.optional_none (k : String) : Json.optional k none = [] := rfl

namespace Codec

def written (slots : List (String × Option Json)) : List (String × Json) :=
  slots.filterMap fun s => s.2.map fun j => (s.1, j)

def slotted (slots : List (String × Option Json)) : Fields := fun name => (Dict.findEntry name slots).join

@[simp] theorem written_nil : written [] = [] := rfl

@[simp] theorem written_cons (k : String) (v : Option Json) (slots : List (String × Option Json)) :
    written ((k, v) :: slots) = Json.optional k v ++ written slots := by
  cases v <;> rfl

theorem mem_written {k : String} {j : Json} {slots : List (String × Option Json)} (h : (k, some j) ∈ slots) :
    (k, j) ∈ written slots := List.mem_filterMap.mpr ⟨(k, some j), h, rfl⟩

theorem sublist_keys_written (slots : List (String × Option Json)) :
    ((written slots).map (·.1)).Sublist (slots.map (·.1)) := by
  induction slots with
  | nil => exact List.Sublist.refl _
  | cons s slots ih =>
    obtain ⟨k, v⟩ := s
    cases v with
    | none => exact ih.cons k
    | some j => exact ih.cons_cons k

theorem findEntry_written {slots : List (String × Option Json)} (h : (slots.map (·.1)).Nodup) (name : String) :
    Dict.findEntry name (written slots) = slotted slots name := by
  unfold slotted
  induction slots with
  | nil => rfl
  | cons s slots ih =>
    obtain ⟨k, v⟩ := s
    obtain ⟨hk, hslots⟩ := List.nodup_cons.mp h
    by_cases hname : name = k
    · subst hname
      cases v with
      | some j => simp [Dict.findEntry]
      | none =>
        have habsent : Dict.findEntry name (written slots) = none := by
          refine Dict.findEntry_eq_none fun e he heq => hk ?_
          exact (sublist_keys_written slots).subset (heq ▸ List.mem_map_of_mem (f := (·.1)) he)
        simp [Dict.findEntry, habsent]
    · cases v with
      | some j => simp [Dict.findEntry, hname, ih hslots]
      | none => simp [Dict.findEntry, hname, ih hslots]

theorem noFieldTwice_written {slots : List (String × Option Json)} (h : (slots.map (·.1)).Nodup) (names : List String) :
    noFieldTwice names (written slots) = true := by
  have hkeys : ((written slots).map (·.1)).Nodup := (sublist_keys_written slots).nodup h
  refine List.all_eq_true.mpr fun name _ => decide_eq_true ?_
  have hcount := List.nodup_iff_count_le_one.mp hkeys name
  rwa [List.count, List.countP_map] at hcount

/-- In each field a reader finds what the slot of that name holds. -/
theorem objectFields?_written {slots : List (String × Option Json)} (h : (slots.map (·.1)).Nodup) (names : List String) :
    objectFields? names (.obj (written slots)) = some (slotted slots) := by
  rw [objectFields?, if_pos (noFieldTwice_written h names)]
  exact congrArg some (funext (findEntry_written h))

theorem fields?_written {slots : List (String × Option Json)} (h : (slots.map (·.1)).Nodup) (names : List String) :
    fields? names (.obj (written slots)) = some (slotted slots) :=
  objectFields?_written h names

/-! ## Fields -/

variable {α : Type} {f : Fields} {name : String} {read : Json → Option α}

theorem required_eq {j : Json} {v : α} (hfield : f name = some j) (hread : read j = some v) :
    required f name read = some v := by
  rw [required, hfield]
  exact hread

theorem required_text {s : String} (hfield : f name = some (.str s)) : required f name text? = some s :=
  required_eq hfield rfl

theorem defaulted_eq {j : Json} {v default : α} (hfield : f name = some j) (hread : read j = some v) :
    defaulted f name default read = some v := by
  rw [defaulted, hfield]
  exact hread

theorem defaulted_absent {default : α} (hfield : f name = none) : defaulted f name default read = some default := by
  rw [defaulted, hfield]

theorem optional_eq (write : α → Json) {v : Option α} (hfield : f name = v.map write) (hnull : read .null = none)
    (hread : ∀ a ∈ v, read (write a) = some a) : optional f name read = some v := by
  cases v with
  | none => rw [optional, hfield]; rfl
  | some a =>
    have hread := hread a rfl
    have hne : write a ≠ .null := by
      intro heq
      rw [heq, hnull] at hread
      cases hread
    rw [optional, hfield]
    simp only [Option.map_some, hread]

theorem optional_text {v : Option String} (hfield : f name = v.map .str) : optional f name text? = some v :=
  optional_eq .str hfield rfl fun _ _ => rfl

/-! ## Lists, maps and numbers -/

theorem natural?_nat {limit n : Nat} (h : n ≤ limit) : natural? limit (.nat n) = some n :=
  if_pos ⟨Int.natCast_nonneg n, Int.ofNat_le.mpr h⟩

theorem mapM_eq_some {β : Type} {g : β → Option α} {l : List β} (make : β → α) (h : ∀ b ∈ l, g b = some (make b)) :
    l.mapM g = some (l.map make) := by
  induction l with
  | nil => rfl
  | cons b rest ih =>
    have hb := h b List.mem_cons_self
    have hrest := ih fun x hx => h x (List.mem_cons_of_mem _ hx)
    simp [List.mapM_cons, hb, hrest]

theorem listOf?_map {write : α → Json} {l : List α} (h : ∀ a ∈ l, read (write a) = some a) : listOf? read (.arr (l.map write)) = some l := by
  rw [listOf?, List.mapM_map]
  have hall := mapM_eq_some (g := fun a => read (write a)) id h
  rwa [List.map_id] at hall

theorem listOf?_ofTexts (l : List String) : listOf? text? (ofTexts l) = some l := listOf?_map fun _ _ => rfl

theorem mapOf?_map {write : α → Json} {d : Dict α} (hd : d.Sorted) (h : ∀ e ∈ d.entries, read (write e.2) = some e.2) :
    mapOf? read (.obj (d.map write).entries) = some d := by
  have hread : (d.map write).entries.mapM (fun m => (read m.2).map fun v => (m.1, v)) = some d.entries := by
    rw [Dict.map, List.mapM_map]
    have hall : d.entries.mapM (fun e => (read (write e.2)).map fun v => (e.1, v)) = some (d.entries.map id) := by
      refine mapM_eq_some id fun e he => ?_
      rw [h e he]
      rfl
    rwa [List.map_id] at hall
  rw [mapOf?, hread, Option.map_some, Dict.ofList_of_perm hd (List.Perm.refl _)]

end Codec

end Switchyard
