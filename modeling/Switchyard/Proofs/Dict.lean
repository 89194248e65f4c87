import Switchyard.Dict

/-
  Switchyard.Proofs.Dict — maps whose entries are in key order, and what a merge reads.

  A map in key order has one entry for each of its keys. Whatever is inserted into such
  a map, or merged into it, leaves it in order, so every map that was built up from the
  empty one is. `get?_merge` is the rule of a merge: the entries of the right map come
  before those of the left one.
-/

namespace Switchyard.Dict

variable {α : Type u}

def Sorted (d : Dict α) : Prop := d.entries.Pairwise fun a b => a.1 < b.1

theorem sorted_empty : (empty : Dict α).Sorted := List.Pairwise.nil

theorem mem_insertEntry {k : String} {v : α} {es : List (String × α)} {x : String × α}
    (h : x ∈ insertEntry k v es) : x = (k, v) ∨ x ∈ es := by
  induction es with
  | nil => exact Or.inl (List.mem_singleton.mp h)
  | cons e rest ih =>
    obtain ⟨key, w⟩ := e
    simp only [insertEntry] at h
    split at h
    · rcases List.mem_cons.mp h with h | h
      · exact Or.inl h
      · exact Or.inr (List.mem_cons_of_mem _ h)
    split at h
    · rcases List.mem_cons.mp h with h | h
      · exact Or.inl h
      · exact Or.inr h
    · rcases List.mem_cons.mp h with rfl | h
      · exact Or.inr List.mem_cons_self
      · exact (ih h).imp_right (List.mem_cons_of_mem _)

theorem mem_insert {d : Dict α} {k : String} {v : α} {x : String × α} (h : x ∈ (d.insert k v).entries) :
    x = (k, v) ∨ x ∈ d.entries := mem_insertEntry h

theorem mem_foldl_insert {es : List (String × α)} {d : Dict α} {x : String × α}
    (h : x ∈ (es.foldl (fun acc e => acc.insert e.1 e.2) d).entries) : x ∈ es ∨ x ∈ d.entries := by
  induction es generalizing d with
  | nil => exact Or.inr h
  | cons e rest ih =>
    rcases ih h with h | h
    · exact Or.inl (List.mem_cons_of_mem _ h)
    · rcases mem_insert h with rfl | h
      · exact Or.inl List.mem_cons_self
      · exact Or.inr h

theorem mem_of_mem_ofList {es : List (String × α)} {x : String × α} (h : x ∈ (ofList es).entries) : x ∈ es :=
  (mem_foldl_insert h).resolve_right List.not_mem_nil

/-! ## One entry changed -/

theorem get?_modify_self (d : Dict α) (k : String) (f : α → α) : (d.modify k f).get? k = (d.get? k).map f := by
  unfold modify
  cases h : d.get? k with
  | none => exact h
  | some v => exact get?_insert_self d k (f v)

theorem get?_modify_of_ne (d : Dict α) {k j : String} (h : j ≠ k) (f : α → α) : (d.modify k f).get? j = d.get? j := by
  unfold modify
  cases d.get? k with
  | none => rfl
  | some v => exact get?_insert_of_ne d h (f v)

theorem contains_insert_self (d : Dict α) (k : String) (v : α) : (d.insert k v).contains k = true := by
  rw [contains, get?_insert_self]
  rfl

theorem contains_insert_of_ne (d : Dict α) {k j : String} (h : j ≠ k) (v : α) :
    (d.insert k v).contains j = d.contains j := congrArg Option.isSome (get?_insert_of_ne d h v)

theorem contains_erase_self (d : Dict α) (k : String) : (d.erase k).contains k = false := by
  rw [contains, get?_erase_self]
  rfl

theorem contains_erase_of_ne (d : Dict α) {k j : String} (h : j ≠ k) : (d.erase k).contains j = d.contains j :=
  congrArg Option.isSome (get?_erase_of_ne d h)

theorem contains_modify (d : Dict α) (k j : String) (f : α → α) : (d.modify k f).contains j = d.contains j := by
  by_cases h : j = k
  · subst h
    rw [contains, get?_modify_self, Option.isSome_map]
    rfl
  · exact congrArg Option.isSome (get?_modify_of_ne d h f)

theorem erase_of_not_contains {d : Dict α} {k : String} (h : d.contains k = false) : d.erase k = d := by
  obtain ⟨es⟩ := d
  refine congrArg Dict.mk (List.filter_eq_self.mpr fun e he => decide_eq_true fun hk => ?_)
  have hnone : findEntry k es = none := by simpa [contains, get?] using h
  clear h
  induction es with
  | nil => cases he
  | cons x rest ih =>
    rw [findEntry] at hnone
    split at hnone
    · cases hnone
    next hne =>
      rcases List.mem_cons.mp he with rfl | he
      · exact hne hk.symm
      · exact ih he hnone

/-- An entry that is put in and taken out leaves nothing behind. -/
theorem erase_insert (d : Dict α) (k : String) (v : α) : (d.insert k v).erase k = d.erase k := by
  obtain ⟨es⟩ := d
  refine congrArg Dict.mk ?_
  show (insertEntry k v es).filter _ = es.filter _
  induction es with
  | nil => simp [insertEntry]
  | cons x rest ih =>
    obtain ⟨key, old⟩ := x
    simp only [insertEntry]
    split
    next heq => simp [heq]
    · split
      · simp
      · simp only [List.filter_cons, ih]

/-! ## Maps in key order -/

theorem pairwise_insertEntry (k : String) (v : α) {es : List (String × α)}
    (h : es.Pairwise fun a b => a.1 < b.1) : (insertEntry k v es).Pairwise fun a b => a.1 < b.1 := by
  induction es with
  | nil => exact List.pairwise_singleton _ _
  | cons e rest ih =>
    obtain ⟨key, w⟩ := e
    obtain ⟨hkey, hrest⟩ := List.pairwise_cons.mp h
    simp only [insertEntry]
    split
    next hk =>
      subst hk
      exact List.pairwise_cons.mpr ⟨hkey, hrest⟩
    next hne =>
      split
      next hlt =>
        refine List.pairwise_cons.mpr ⟨fun x hx => ?_, h⟩
        rcases List.mem_cons.mp hx with rfl | hx
        · exact hlt
        · exact String.lt_trans hlt (hkey x hx)
      next hle =>
        refine List.pairwise_cons.mpr ⟨fun x hx => ?_, ih hrest⟩
        rcases mem_insertEntry hx with rfl | hx
        · have hge : key ≤ k := String.not_lt.mp hle
          refine String.not_le.mp fun hle' => hne (String.le_antisymm hle' hge)
        · exact hkey x hx

theorem Sorted.insert {d : Dict α} (h : d.Sorted) (k : String) (v : α) : (d.insert k v).Sorted :=
  pairwise_insertEntry k v h

theorem Sorted.merge {d : Dict α} (h : d.Sorted) (other : Dict α) : (d.merge other).Sorted := by
  obtain ⟨es⟩ := other
  simp only [Dict.merge]
  induction es generalizing d with
  | nil => exact h
  | cons e rest ih => exact ih (h.insert e.1 e.2)

theorem mem_of_findEntry {k : String} {v : α} {es : List (String × α)} (h : findEntry k es = some v) :
    (k, v) ∈ es := by
  induction es with
  | nil => cases h
  | cons e rest ih =>
    obtain ⟨key, w⟩ := e
    rw [findEntry] at h
    split at h
    next hk =>
      cases h
      subst hk
      exact List.mem_cons_self
    next => exact List.mem_cons_of_mem _ (ih h)

theorem mem_of_get? {d : Dict α} {k : String} {v : α} (h : d.get? k = some v) : (k, v) ∈ d.entries :=
  mem_of_findEntry h

theorem findEntry_eq_none {k : String} {es : List (String × α)} (h : ∀ e ∈ es, e.1 ≠ k) : findEntry k es = none := by
  induction es with
  | nil => rfl
  | cons e rest ih =>
    have hne : k ≠ e.1 := fun heq => h e List.mem_cons_self heq.symm
    rw [findEntry, if_neg hne]
    exact ih fun x hx => h x (List.mem_cons_of_mem _ hx)

/-- A merge reads the right map first. -/
theorem get?_merge (d : Dict α) {other : Dict α} (h : other.Sorted) (k : String) :
    (d.merge other).get? k = (other.get? k).or (d.get? k) := by
  obtain ⟨es⟩ := other
  simp only [Dict.merge]
  induction es generalizing d with
  | nil => rfl
  | cons e rest ih =>
    obtain ⟨hkey, hrest⟩ := List.pairwise_cons.mp h
    rw [List.foldl_cons, ih _ hrest]
    by_cases hk : k = e.1
    · subst hk
      have hnone : (Dict.mk rest).get? e.1 = none :=
        findEntry_eq_none fun x hx heq => String.lt_irrefl e.1 (heq ▸ hkey x hx)
      rw [hnone, get?_insert_self]
      simp [get?, findEntry]
    · rw [get?_insert_of_ne _ hk]
      simp [get?, findEntry, hk]

/-- What a merge writes comes before what was there. -/
theorem get?_merge_empty (d other : Dict α) (k : String) :
    (d.merge other).get? k = ((empty.merge other).get? k).or (d.get? k) := by
  obtain ⟨es⟩ := other
  simp only [Dict.merge]
  induction es generalizing d with
  | nil => rfl
  | cons e rest ih =>
    rw [List.foldl_cons, List.foldl_cons, ih, ih (empty.insert e.1 e.2), Option.or_assoc]
    congr 1
    by_cases hk : k = e.1
    · subst hk
      simp
    · rw [get?_insert_of_ne _ hk, get?_insert_of_ne _ hk]
      rfl

theorem get?_foldl_insert {k : String} {v : α} (es : List (String × α)) (d : Dict α) (hd : (es.map (·.1)).Nodup)
    (h : (k, v) ∈ es ∨ d.get? k = some v ∧ k ∉ es.map (·.1)) :
    (es.foldl (fun acc e => acc.insert e.1 e.2) d).get? k = some v := by
  induction es generalizing d with
  | nil => simpa using h
  | cons e rest ih =>
    obtain ⟨he, hd⟩ := List.nodup_cons.mp hd
    refine ih _ hd ?_
    rcases h with h | ⟨hget, hkey⟩
    · rcases List.mem_cons.mp h with rfl | h
      · exact Or.inr ⟨get?_insert_self _ _ _, he⟩
      · exact Or.inl h
    · rw [List.map_cons, List.mem_cons, not_or] at hkey
      exact Or.inr ⟨(get?_insert_of_ne _ hkey.1 _).trans hget, hkey.2⟩

/-- Where no key is named twice, every entry is found. -/
theorem get?_ofList {k : String} {v : α} {es : List (String × α)} (hd : (es.map (·.1)).Nodup) (h : (k, v) ∈ es) :
    (ofList es).get? k = some v := get?_foldl_insert es empty hd (Or.inl h)

/-! ## Maps of one content -/

theorem findEntry_of_mem {k : String} {v : α} {es : List (String × α)} (h : es.Pairwise fun a b => a.1 < b.1)
    (hmem : (k, v) ∈ es) : findEntry k es = some v := by
  induction es with
  | nil => cases hmem
  | cons e rest ih =>
    obtain ⟨hkey, hrest⟩ := List.pairwise_cons.mp h
    rcases List.mem_cons.mp hmem with rfl | hmem
    · simp [findEntry]
    · have hne : k ≠ e.1 := by
        intro heq
        exact String.lt_irrefl k (heq ▸ hkey (k, v) hmem)
      simp [findEntry, hne, ih hrest hmem]

theorem Sorted.nodup_keys {d : Dict α} (h : d.Sorted) : (d.entries.map (·.1)).Nodup := by
  rw [List.Nodup, List.pairwise_map]
  refine List.Pairwise.imp (fun hlt heq => ?_) h
  exact String.lt_irrefl _ (heq ▸ hlt)

theorem Sorted.nodup {d : Dict α} (h : d.Sorted) : d.entries.Nodup := by
  refine List.Pairwise.imp (fun hlt heq => ?_) h
  subst heq
  exact String.lt_irrefl _ hlt

/-- Two maps in key order are one if they have the same entries. -/
theorem eq_of_perm {d e : Dict α} (hd : d.Sorted) (he : e.Sorted) (h : d.entries.Perm e.entries) : d = e := by
  have heq : d.entries = e.entries :=
    h.eq_of_pairwise (fun _ _ _ _ hab hba => absurd (String.lt_trans hab hba) (String.lt_irrefl _)) hd he
  cases d
  cases e
  exact congrArg Dict.mk heq

/-- Two maps in key order are one if they give the same answers. -/
theorem eq_of_get? {d e : Dict α} (hd : d.Sorted) (he : e.Sorted) (h : ∀ k, d.get? k = e.get? k) : d = e := by
  refine eq_of_perm hd he ((List.perm_ext_iff_of_nodup hd.nodup he.nodup).mpr fun x => ?_)
  constructor
  · intro hx
    exact mem_of_get? ((h x.1).symm.trans (findEntry_of_mem hd hx))
  · intro hx
    exact mem_of_get? ((h x.1).trans (findEntry_of_mem he hx))

theorem sorted_ofList (es : List (String × α)) : (ofList es).Sorted := sorted_empty.merge ⟨es⟩

/-- The entries of a map build it up again, in whatever order they come. -/
theorem ofList_of_perm {d : Dict α} (hd : d.Sorted) {es : List (String × α)} (h : es.Perm d.entries) :
    ofList es = d := by
  refine eq_of_get? (sorted_ofList es) hd fun k => ?_
  have hkeys : (es.map (·.1)).Nodup := (h.map _).nodup_iff.mpr hd.nodup_keys
  cases hget : d.get? k with
  | some v => exact get?_ofList hkeys (h.mem_iff.mpr (mem_of_get? hget))
  | none =>
    cases hmade : (ofList es).get? k with
    | none => rfl
    | some v =>
      have hmem : (k, v) ∈ d.entries := h.mem_iff.mp (mem_of_mem_ofList (mem_of_get? hmade))
      exact absurd ((findEntry_of_mem hd hmem).symm.trans hget) nofun

end Switchyard.Dict
