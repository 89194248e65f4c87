import Mathlib.Data.List.Nodup
import Switchyard.Proofs.Store.Page

/-
  Switchyard.Proofs.Store.Tidy — what an append to one instance does to the others.

  On a shelf an append changes the list of the record's own instance and no other. In a
  table it changes the row that has the record's identifier, whatever instance that row is
  of. So what is stored of an instance stays as long as no other instance's record comes
  under an identifier of one of its rows (`entries_of_append`).

  A store is `Tidy` if the records on a shelf lie with their instance, and the rows of a
  table have identifiers that are written as identifiers are and differ. Every append
  leaves it so (`Tidy.append`), whatever it appends; nothing else changes a store.

  - `Tidy.latest_apart`: the latest record of one instance is under no identifier of
    another one's rows.
  - `read_congr`: what is read of an instance is told by its entries.
-/

namespace Switchyard

def Entry.IsRow (id : ExecutionId) : Entry → Prop
  | .record _ => False
  | .row old => old.executionId = id.text

theorem Entry.IsRow.key_eq {id : ExecutionId} {x : Entry} (h : x.IsRow id) : x.line.key = id.text := by
  cases x with
  | record r => exact h.elim
  | row old => exact h

/-- Records lie with their instance, and rows have identifiers of their own. -/
def Store.Tidy : Store → Prop
  | .shelf l => ∀ id, ∀ r ∈ l.list id, r.instanceId = id
  | .table t => (t.rows.map (·.executionId)).Nodup ∧ ∀ row ∈ t.rows, ∃ id : ExecutionId, row.executionId = id.text

/-! ## The two ways to append -/

theorem Store.of_shelf_append {l : Shelf} {s' : Store} {r : Record} (h : (Store.shelf l).append r = .ok s') :
    ∃ rs, s' = .shelf ⟨l.attempts.insert r.instanceId.text rs⟩ ∧ ∀ x ∈ rs, x = r ∨ x ∈ l.list r.instanceId := by
  simp only [Store.append, Shelf.append] at h
  split at h
  · cases h
    refine ⟨_, rfl, fun x hx => ?_⟩
    obtain ⟨old, hold, rfl⟩ := List.mem_map.mp hx
    split
    · exact Or.inl rfl
    · exact Or.inr hold
  · split at h
    · cases h
    · cases h
      refine ⟨_, rfl, fun x hx => ?_⟩
      rcases List.mem_append.mp ((sortBy_perm _).mem_iff.mp hx) with hx | hx
      · exact Or.inr hx
      · exact Or.inl (List.mem_singleton.mp hx)

theorem Store.of_table_append {t : Table} {s' : Store} {r : Record} (h : (Store.table t).append r = .ok s') :
    s' = .table ⟨t.rows.map (Table.put r)⟩ ∨
      (s' = .table ⟨t.rows ++ [Row.ofRecord r]⟩ ∧ ∀ row ∈ t.rows, row.executionId ≠ r.id.text) := by
  simp only [Store.append, Table.append] at h
  split at h
  · cases h
  · split at h
    · cases h
      exact Or.inl rfl
    next hnone =>
      split at h
      · cases h
      · cases h
        refine Or.inr ⟨rfl, fun row hrow heq => hnone ?_⟩
        exact List.any_eq_true.mpr ⟨row, hrow, decide_eq_true heq⟩

theorem Table.executionId_put (r : Record) (row : Row) : (put r row).executionId = row.executionId := by
  unfold put
  split <;> rfl

namespace Store

variable {s s' : Store} {r : Record} {id other : InstanceId}

theorem tidy_of_empty (h : s = .shelf Shelf.empty ∨ s = .table Table.empty) : s.Tidy := by
  rcases h with rfl | rfl
  · intro id r hr
    cases hr
  · exact ⟨List.nodup_nil, List.forall_mem_nil _⟩

theorem Tidy.append (h : s.Tidy) (happend : s.append r = .ok s') : s'.Tidy := by
  cases s with
  | shelf l =>
    obtain ⟨rs, rfl, hrs⟩ := of_shelf_append happend
    intro id x hx
    rw [Shelf.list_insert] at hx
    split at hx
    next hid =>
      rcases hrs x hx with rfl | hx
      · exact hid.symm
      · exact hid ▸ h _ x hx
    · exact h id x hx
  | table t =>
    obtain ⟨hnodup, hwritten⟩ := h
    rcases of_table_append happend with rfl | ⟨rfl, hnew⟩
    · refine ⟨?_, fun row hrow => ?_⟩
      · simpa only [List.map_map, Function.comp_def, Table.executionId_put] using hnodup
      · obtain ⟨old, hold, rfl⟩ := List.mem_map.mp hrow
        rw [Table.executionId_put]
        exact hwritten old hold
    · refine ⟨?_, fun row hrow => ?_⟩
      · rw [List.map_append, List.map_singleton]
        refine List.nodup_append.mpr ⟨hnodup, List.nodup_singleton _, ?_⟩
        intro key hkey key' hkey'
        obtain ⟨row, hrow, rfl⟩ := List.mem_map.mp hkey
        rw [List.mem_singleton.mp hkey']
        exact hnew row hrow
      · rcases List.mem_append.mp hrow with hrow | hrow
        · exact hwritten row hrow
        · rw [List.mem_singleton.mp hrow]
          exact ⟨r.id, rfl⟩

/-- A record of another instance, under no identifier of this one's rows, leaves what is
    stored of this one as it is. -/
theorem entries_of_append (happend : s.append r = .ok s') (hne : r.instanceId ≠ id)
    (hrows : ∀ x ∈ s.entries id, ¬x.IsRow r.id) : s'.entries id = s.entries id := by
  cases s with
  | shelf l =>
    obtain ⟨rs, rfl, -⟩ := of_shelf_append happend
    simp only [entries, Shelf.list_insert, if_neg hne.symm]
  | table t =>
    rcases of_table_append happend with rfl | ⟨rfl, -⟩
    · simp only [entries, Table.ofInstance_put]
      refine congrArg _ (map_eq_self fun row hrow => if_neg ?_)
      exact hrows _ (List.mem_map_of_mem hrow)
    · have hrow : (Row.ofRecord r).instanceId ≠ id.text := InstanceId.text_ne hne
      have hlast : ∀ old ∈ t.ofInstance id, (Row.ofRecord r).instanceId = id.text →
          old.attempt ≤ (Row.ofRecord r).attempt := fun _ _ h => absurd h hrow
      simp only [entries, Table.ofInstance_append t _ id hlast, if_neg hrow]

theorem Tidy.owner_of_latest (h : s.Tidy) (hlatest : s.latest? id = .ok (some r)) : r.instanceId = id := by
  cases s with
  | shelf l =>
    have hlast : (l.list id).getLast? = some r := by simpa [latest?, Shelf.latest?] using hlatest
    exact h id r (List.mem_of_getLast? hlast)
  | table t =>
    obtain ⟨pre, x, hentries, htells⟩ := entries_of_latest?_some hlatest
    have hmem : x ∈ (Store.table t).entries id := by simp [hentries]
    obtain ⟨row, hrow, rfl⟩ := List.mem_map.mp hmem
    exact InstanceId.eq_iff.mpr (htells.owner.symm.trans (Table.mem_ofInstance.mp hrow).2)

/-- The latest record of another instance is under no identifier of this one's rows. -/
theorem Tidy.latest_apart (h : s.Tidy) (hne : other ≠ id) (hlatest : s.latest? other = .ok (some r)) :
    ∀ x ∈ s.entries id, ¬x.IsRow r.id := by
  intro y hy hkey
  cases s with
  | shelf l =>
    obtain ⟨old, -, rfl⟩ := List.mem_map.mp hy
    exact hkey
  | table t =>
    obtain ⟨pre, x, hentries, htells⟩ := entries_of_latest?_some hlatest
    have hmem : x ∈ (Store.table t).entries other := by simp [hentries]
    obtain ⟨row, hrow, rfl⟩ := List.mem_map.mp hmem
    obtain ⟨row', hrow', rfl⟩ := List.mem_map.mp hy
    obtain ⟨hrow, howner⟩ := Table.mem_ofInstance.mp hrow
    obtain ⟨hrow', howner'⟩ := Table.mem_ofInstance.mp hrow'
    -- The row was written under an identifier, and that is the one it reads as.
    obtain ⟨written, hwritten⟩ := h.2 row hrow
    have hread : ExecutionId.parse? row.executionId = some r.id := htells.key
    rw [hwritten, ExecutionId.parse?_text] at hread
    have hsame : row.executionId = row'.executionId := by
      rw [hwritten, Option.some.inj hread]
      exact hkey.symm
    have heq : row = row' := List.inj_on_of_nodup_map h.1 hrow hrow' hsame
    rw [← heq] at howner'
    exact hne (InstanceId.eq_iff.mpr (howner.symm.trans howner'))

/-! ## Reading an instance -/

theorem read_of_nil (h : s.entries id = []) : s.latest? id = .ok none ∧ s.list id = .ok [] := by
  cases s with
  | shelf l =>
    have hlist : l.list id = [] := List.map_eq_nil_iff.mp h
    exact ⟨by simp [latest?, Shelf.latest?, hlist], by simp [list, hlist]⟩
  | table t =>
    have hrows : t.ofInstance id = [] := List.map_eq_nil_iff.mp h
    refine ⟨by simp [latest?, Table.latest?, hrows], ?_⟩
    rw [list, Table.list, hrows]
    rfl

theorem read_congr (h : s.entries id = s'.entries id) : s.latest? id = s'.latest? id ∧ s.list id = s'.list id := by
  rcases hentries : s.entries id with _ | ⟨x, rest⟩
  · obtain ⟨hlatest, hlist⟩ := read_of_nil hentries
    obtain ⟨hlatest', hlist'⟩ := read_of_nil (h.symm.trans hentries)
    exact ⟨hlatest.trans hlatest'.symm, hlist.trans hlist'.symm⟩
  · -- What is stored tells of which kind the stores are.
    have hx : x ∈ s.entries id ∧ x ∈ s'.entries id := by simp [← h, hentries]
    cases s with
    | shelf l =>
      cases s' with
      | shelf l' =>
        have hlist : l.list id = l'.list id := List.map_injective_iff.mpr (fun _ _ => Entry.record.inj) h
        simp only [latest?, Shelf.latest?, list, hlist, and_self]
      | table t =>
        obtain ⟨r, -, rfl⟩ := List.mem_map.mp hx.1
        obtain ⟨old, -, hold⟩ := List.mem_map.mp hx.2
        cases hold
    | table t =>
      cases s' with
      | shelf l =>
        obtain ⟨old, -, rfl⟩ := List.mem_map.mp hx.1
        obtain ⟨r, -, hr⟩ := List.mem_map.mp hx.2
        cases hr
      | table t' =>
        have hrows : t.ofInstance id = t'.ofInstance id := List.map_injective_iff.mpr (fun _ _ => Entry.row.inj) h
        simp only [latest?, Table.latest?, list, Table.list, hrows, and_self]

end Store

end Switchyard
