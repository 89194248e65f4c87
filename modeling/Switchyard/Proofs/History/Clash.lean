import Switchyard.Proofs.History.Faultless
import Switchyard.Proofs.Store.Agreement

/-
  Switchyard.Proofs.History.Clash — a new attempt whose number its instance has already.

  A shelf does not take it and stays as it is, so whatever is read or appended from then
  on is answered as if the record had never come (`alike_after`). What the caller gets
  depends on the identifier of the instance. The refusal names it by its first twelve
  bytes (`Shown`). An identifier that was derived has them (`shown_derive`), and so has
  any other in which a character ends there. Where a character lies across the twelfth
  byte the refusal has no text, and the append panics.

  - `clash_changes_nothing`: this, over any appends to an empty history.
  - `Sites.clash_panics`: one of two instances that differ in one word.
-/

namespace Switchyard

namespace InstanceId

/-! ## The part of an identifier that is shown -/

/-- The identifier begins with this text, which is its first twelve bytes or all of it. -/
structure Shown (id : InstanceId) (front : String) : Prop where
  start : ∃ behind, id.text = front ++ behind
  size : front.utf8ByteSize = min 12 id.text.utf8ByteSize

theorem size_cons (c : Char) (cs : List Char) :
    (String.ofList (c :: cs)).utf8ByteSize = c.utf8Size + (String.ofList cs).utf8ByteSize := by
  rw [String.ofList_cons, String.utf8ByteSize_append, String.utf8ByteSize_singleton]

theorem cut?_succ_cons {n : Nat} {c d : Char} {cs front : List Char} :
    cut? (n + 1) (c :: cs) = some (d :: front) ↔
      c.utf8Size ≤ n + 1 ∧ c = d ∧ cut? (n + 1 - c.utf8Size) cs = some front := by
  simp only [cut?]
  split
  next hfits => simp [hfits, and_comm]
  next hstraddles => simp [hstraddles]

theorem cut?_eq_some_iff {n : Nat} {cs front : List Char} :
    cut? n cs = some front ↔
      ∃ behind, cs = front ++ behind ∧
        (String.ofList front).utf8ByteSize = min n (String.ofList cs).utf8ByteSize := by
  induction cs generalizing n front with
  | nil =>
    have hcut : cut? n [] = some [] := by cases n <;> rfl
    rw [hcut]
    constructor
    · intro h
      cases h
      exact ⟨[], rfl, by simp⟩
    · rintro ⟨behind, hnil, -⟩
      rw [(List.append_eq_nil_iff.mp hnil.symm).1]
  | cons c rest ih =>
    have hc : 0 < c.utf8Size := c.utf8Size_pos
    have hrest := size_cons c rest
    cases front with
    | nil =>
      -- nothing is shown of a text that is not empty only if there is no room
      constructor
      · intro h
        cases n with
        | zero => exact ⟨c :: rest, rfl, by simp⟩
        | succ n =>
          simp only [cut?] at h
          split at h <;> simp at h
      · rintro ⟨-, -, hsize⟩
        rw [hrest, String.ofList_nil, String.utf8ByteSize_empty] at hsize
        have hn : n = 0 := by omega
        rw [hn]
        rfl
    | cons d front =>
      have hfront := size_cons d front
      cases n with
      | zero =>
        refine iff_of_false (by simp [cut?]) ?_
        rintro ⟨-, -, hsize⟩
        have hd : 0 < d.utf8Size := d.utf8Size_pos
        omega
      | succ n =>
        rw [cut?_succ_cons, ih]
        constructor
        · rintro ⟨hfits, rfl, behind, rfl, hsize⟩
          exact ⟨behind, rfl, by omega⟩
        · rintro ⟨behind, hsplit, hsize⟩
          cases hsplit
          exact ⟨by omega, rfl, behind, rfl, by omega⟩

theorem short?_eq_some_iff {id : InstanceId} {front : String} : id.short? = some front ↔ id.Shown front := by
  simp only [short?, Option.map_eq_some_iff, cut?_eq_some_iff]
  constructor
  · rintro ⟨cs, ⟨behind, hsplit, hsize⟩, rfl⟩
    rw [String.ofList_toList] at hsize
    refine ⟨⟨String.ofList behind, ?_⟩, hsize⟩
    rw [← String.ofList_append, ← hsplit, String.ofList_toList]
  · rintro ⟨⟨behind, hsplit⟩, hsize⟩
    refine ⟨front.toList, ⟨behind.toList, ?_, ?_⟩, String.ofList_toList⟩
    · rw [hsplit, String.toList_append]
    · rwa [String.ofList_toList, String.ofList_toList]

theorem short?_eq_none_iff {id : InstanceId} : id.short? = none ↔ ¬ ∃ front, id.Shown front := by
  simp only [← short?_eq_some_iff, Option.eq_none_iff_forall_ne_some, not_exists]

/-- Digits may be cut anywhere. -/
theorem shown_derive (job : String) (parameters : Parameters) : ∃ front, (derive job parameters).Shown front := by
  obtain ⟨front, hfront⟩ := Option.isSome_iff_exists.mp (isSome_short?_derive job parameters)
  exact ⟨front, short?_eq_some_iff.mp hfront⟩

end InstanceId

/-! ## Histories in memory that answer alike -/

theorem Shelf.put_of_error {s : Shelf} {r : Record} {e : AppendFailure} (h : s.append r = .error e) : s.put r = s := by
  rw [put, h]

namespace Repository

variable {σ : Type} {h h' : Repository} {s : Shelf}

def memory : Repository := { store := .shelf .empty, faults := noFaults }

def after (h : Repository) (rs : List Record) : Repository := rs.foldl (fun h r => (h.append r).2) h

structure Alike (h h' : Repository) : Prop where
  append : ∀ r, (h.append r).1 = (h'.append r).1
  loadLatest : ∀ id, (h.loadLatest id).1 = (h'.loadLatest id).1
  list : ∀ id, (h.list id).1 = (h'.list id).1
  listRecent : ∀ limit, (h.listRecent limit).1 = (h'.listRecent limit).1

/-- The history is this shelf and all calls reach it, however many there were before. -/
structure OfShelf (h : Repository) (s : Shelf) : Prop where
  store : h.store = .shelf s
  faults : h.faults = noFaults

theorem OfShelf.append (hs : h.OfShelf s) (r : Record) :
    (h.append r).1 = (s.append r).map (fun _ => ()) ∧ (h.append r).2.OfShelf (s.put r) := by
  have hstep : h.store.append r = (s.append r).map .shelf := by rw [hs.store, Store.append]
  simp only [Repository.append, call, hs.faults, noFaults, hstep]
  cases happend : s.append r with
  | ok s' => exact ⟨rfl, by rw [Shelf.put, happend]; exact ⟨rfl, rfl⟩⟩
  | error e => exact ⟨rfl, by rw [Shelf.put_of_error happend]; exact ⟨hs.store, rfl⟩⟩

theorem OfShelf.after (hs : h.OfShelf s) (rs : List Record) : (h.after rs).OfShelf (s.after rs) := by
  induction rs generalizing h s with
  | nil => exact hs
  | cons r rest ih => exact ih (hs.append r).2

theorem OfShelf.list (hs : h.OfShelf s) (id : InstanceId) : (h.list id).1 = .ok (s.list id) := by
  simp only [Repository.list, call, hs.faults, noFaults, hs.store, Store.list]

theorem OfShelf.alike (hs : h.OfShelf s) (hs' : h'.OfShelf s) : h.Alike h' where
  append r := (hs.append r).1.trans (hs'.append r).1.symm
  loadLatest id := by simp only [loadLatest, call, hs.faults, hs'.faults, noFaults, hs.store, hs'.store]
  list id := (hs.list id).trans (hs'.list id).symm
  listRecent limit := by simp only [listRecent, call, hs.faults, hs'.faults, noFaults, hs.store, hs'.store]

/-- Two histories of one shelf go on to answer alike, whatever is appended to both. -/
theorem alike_after (hs : h.OfShelf s) (hs' : h'.OfShelf s) (rs : List Record) : (h.after rs).Alike (h'.after rs) :=
  (hs.after rs).alike (hs'.after rs)

/-! ## A clash -/

/-- The record is none of these, and one of them has its attempt number. -/
structure Clashes (r : Record) (l : List Record) : Prop where
  new : ∀ x ∈ l, x.id ≠ r.id
  taken : ∃ x ∈ l, x.attempt = r.attempt

theorem OfShelf.append_of_clashes (hs : h.OfShelf s) {r : Record} (hclash : Clashes r (s.list r.instanceId)) :
    (h.append r).1 = .error (Shelf.taken r) ∧ (h.append r).2.OfShelf s := by
  have hnew : ¬ ∃ x ∈ s.list r.instanceId, x.id = r.id := fun ⟨x, hx, hid⟩ => hclash.new x hx hid
  have happend : s.append r = .error (Shelf.taken r) := Shelf.append_taken hnew hclash.taken
  obtain ⟨hanswer, hafter⟩ := hs.append r
  rw [happend] at hanswer
  rw [Shelf.put_of_error happend] at hafter
  exact ⟨hanswer, hafter⟩

/-- A new record with a number that its instance has changes nothing that is read or
    appended later. The caller has a conflict if the front of the identifier can be
    shown, and otherwise the append panics. -/
theorem clash_changes_nothing {w : World σ} {rs l : List Record} {r : Record} (hw : w.repository = memory.after rs)
    (hlist : (w.repository.list r.instanceId).1 = .ok l) (hclash : Clashes r l) :
    (∃ h, ((Act.append r).run w).2 = { w with repository := h } ∧
      ∀ more, (h.after more).Alike (w.repository.after more)) ∧
    (∀ front, r.instanceId.Shown front → ((Act.append r).run w).1 = .ok (.error (.conflict
      ("attempt " ++ toString r.attempt ++ " already recorded for instance " ++ front)))) ∧
    ((¬ ∃ front, r.instanceId.Shown front) → ∃ p, ((Act.append r).run w).1 = .error (.panic p)) := by
  have hs : w.repository.OfShelf (Shelf.empty.after rs) := hw ▸ OfShelf.after ⟨rfl, rfl⟩ rs
  have hl : (Shelf.empty.after rs).list r.instanceId = l := Except.ok.inj ((hs.list _).symm.trans hlist)
  obtain ⟨hanswer, hafter⟩ := hs.append_of_clashes (hl ▸ hclash)
  refine ⟨⟨_, Act.world_append w r, alike_after hafter hs⟩, fun front hfront => ?_, fun hnone => ?_⟩
  · refine Act.append_of_refused (hanswer.trans ?_)
    simp only [Shelf.taken, InstanceId.short?_eq_some_iff.mpr hfront]
  · refine Act.append_of_unwritable (hanswer.trans ?_)
    simp only [Shelf.taken, InstanceId.short?_eq_none_iff.mpr hnone]

end Repository

/-! ## Two instances that were named by hand -/

namespace Sites

def opened (instanceId : String) (id : Nat) : Record :=
  Record.start ⟨BitVec.ofNat 128 id⟩ ⟨2024, 3, 2, 0, 0, 0, 0⟩ ⟨instanceId⟩ "job" 1 Dict.empty Dict.empty

def world (instanceId : String) : World Unit :=
  { repository := Repository.memory.after [opened instanceId 1]
    bus := Bus.ofCapacity 4
    clock := { origin := Instant.ofSeconds 0 0 }
    memory := () }

theorem clashes (instanceId : String) : Repository.Clashes (opened instanceId 2) [opened instanceId 1] where
  new x hx hid := by
    rw [List.mem_singleton.mp hx] at hid
    have hbits : BitVec.ofNat 128 1 = BitVec.ofNat 128 2 := congrArg ExecutionId.bits hid
    exact absurd hbits (by decide)
  taken := ⟨_, List.mem_singleton_self _, rfl⟩

/-- The twelfth byte of the identifier is the last one of a character. -/
theorem clash_refused :
    ((world "rechnung-köln").repository.list ⟨"rechnung-köln"⟩).1 = .ok [opened "rechnung-köln" 1] ∧
    Repository.Clashes (opened "rechnung-köln" 2) [opened "rechnung-köln" 1] ∧
    InstanceId.Shown ⟨"rechnung-köln"⟩ "rechnung-kö" ∧
    ((Act.append (opened "rechnung-köln" 2)).run (world "rechnung-köln")).1 =
      .ok (.error (.conflict "attempt 1 already recorded for instance rechnung-kö")) := by
  have hlist : ((world "rechnung-köln").repository.list ⟨"rechnung-köln"⟩).1 = .ok [opened "rechnung-köln" 1] := by
    rfl
  have hclash := clashes "rechnung-köln"
  have hshown : InstanceId.Shown ⟨"rechnung-köln"⟩ "rechnung-kö" := ⟨⟨"ln", by decide +kernel⟩, by decide +kernel⟩
  have hchanges := Repository.clash_changes_nothing (w := world "rechnung-köln") rfl hlist hclash
  exact ⟨hlist, hclash, hshown, hchanges.2.1 _ hshown⟩

/-- The twelfth byte of this one is the first of two. -/
theorem clash_panics :
    ((world "tageslauf-köln").repository.list ⟨"tageslauf-köln"⟩).1 = .ok [opened "tageslauf-köln" 1] ∧
    Repository.Clashes (opened "tageslauf-köln" 2) [opened "tageslauf-köln" 1] ∧
    (∃ p, ((Act.append (opened "tageslauf-köln" 2)).run (world "tageslauf-köln")).1 = .error (.panic p)) ∧
    ¬ ∃ d, ((Act.append (opened "tageslauf-köln" 2)).run (world "tageslauf-köln")).1 =
      .ok (.error (.conflict d)) := by
  obtain ⟨p, hpanic⟩ : ∃ p, ((Act.append (opened "tageslauf-köln" 2)).run (world "tageslauf-köln")).1 =
      .error (.panic p) := ⟨_, by rfl⟩
  refine ⟨by rfl, clashes _, ⟨p, hpanic⟩, ?_⟩
  rintro ⟨d, hconflict⟩
  rw [hpanic] at hconflict
  cases hconflict

end Sites

end Switchyard
