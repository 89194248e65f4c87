import Switchyard.Proofs.ExecutionId
import Switchyard.Store.Repository

/-
  Switchyard.Proofs.Store.Page — an instance's page in a store, and what an append does
  to the pages.

  A page lists an instance's attempts, each as a line: the columns that an attempt keeps
  from its start, and its final status. Both kinds of store are told by their pages; what
  they keep besides is told by their entries.

  - `Store.append_new`: a record with a new identifier and the highest attempt number is
    put behind what is stored of its instance (`Gains`).
  - `Store.append_taken`: a record with a new identifier and an attempt number that its
    instance has already is refused.
  - `Store.append_again`: a record whose identifier stands on its instance's page changes
    what is stored of that attempt (`Revises`).
  - `page_of_latest?`: the latest record is the last line of the page.
  - `latest?_of_getLast?`: a record that is kept in the last place is the latest one.

  In each case what is stored of other instances stays as it was.
-/

namespace Switchyard

/-! ## Sorting -/

section Sorting

variable {α β : Type} {before : α → α → Bool}

theorem sortBy_place_append {x y : α} (h : before x y = false) (l : List α) :
    sortBy.place before y (l ++ [x]) = sortBy.place before y l ++ [x] := by
  induction l with
  | nil => simp [sortBy.place, h]
  | cons z rest ih =>
    simp only [List.cons_append, sortBy.place, ih]
    split <;> rfl

/-- What comes after everything else in the list is sorted to the end. -/
theorem sortBy_append {l : List α} {x : α} (h : ∀ y ∈ l, before x y = false) :
    sortBy before (l ++ [x]) = sortBy before l ++ [x] := by
  induction l with
  | nil => rfl
  | cons y rest ih =>
    have hrest := ih fun z hz => h z (List.mem_cons_of_mem _ hz)
    simp only [sortBy, List.cons_append, List.foldr_cons] at hrest ⊢
    rw [hrest, sortBy_place_append (h y List.mem_cons_self)]

theorem sortBy_eq_self {l : List α} (h : l.Pairwise fun a b => before b a = false) : sortBy before l = l := by
  induction l with
  | nil => rfl
  | cons x rest ih =>
    have hx := List.pairwise_cons.mp h
    have hrest := ih hx.2
    simp only [sortBy, List.foldr_cons] at hrest ⊢
    rw [hrest]
    cases rest with
    | nil => rfl
    | cons y rest => simp [sortBy.place, hx.1 y List.mem_cons_self]

theorem sortBy_map {before' : β → β → Bool} {f : α → β} (h : ∀ a b, before' (f a) (f b) = before a b) (l : List α) :
    sortBy before' (l.map f) = (sortBy before l).map f := by
  have hplace : ∀ x (l : List α), sortBy.place before' (f x) (l.map f) = (sortBy.place before x l).map f := by
    intro x l
    induction l with
    | nil => rfl
    | cons y rest ih =>
      simp only [List.map_cons, sortBy.place, h, ih]
      split <;> rfl
  induction l with
  | nil => rfl
  | cons x rest ih =>
    simp only [sortBy, List.map_cons, List.foldr_cons] at ih ⊢
    rw [ih, hplace]

theorem sortBy_place_perm (x : α) (l : List α) : (sortBy.place before x l).Perm (x :: l) := by
  induction l with
  | nil => exact List.Perm.refl _
  | cons y rest ih =>
    simp only [sortBy.place]
    split
    · exact (ih.cons y).trans (List.Perm.swap x y rest)
    · exact List.Perm.refl _

theorem sortBy_perm (l : List α) : (sortBy before l).Perm l := by
  induction l with
  | nil => exact List.Perm.refl _
  | cons x rest ih => exact (sortBy_place_perm x _).trans (ih.cons x)

theorem sortBy_place_pairwise (hasymm : ∀ x y, before x y = true → before y x = false)
    (htrans : ∀ x y z, before y x = false → before z y = false → before z x = false) {x : α} {l : List α}
    (h : l.Pairwise fun a b => before b a = false) :
    (sortBy.place before x l).Pairwise fun a b => before b a = false := by
  induction l with
  | nil => exact List.pairwise_singleton _ _
  | cons y rest ih =>
    obtain ⟨hy, hrest⟩ := List.pairwise_cons.mp h
    simp only [sortBy.place]
    split
    next hyx =>
      refine List.pairwise_cons.mpr ⟨fun z hz => ?_, ih hrest⟩
      rcases List.mem_cons.mp ((sortBy_place_perm x rest).mem_iff.mp hz) with rfl | hz
      · exact hasymm y z hyx
      · exact hy z hz
    next hyx =>
      have hyx : before y x = false := Bool.eq_false_iff.mpr hyx
      refine List.pairwise_cons.mpr ⟨fun z hz => ?_, h⟩
      rcases List.mem_cons.mp hz with rfl | hz
      · exact hyx
      · exact htrans x y z hyx (hy z hz)

/-- A sorted list is in order. -/
theorem sortBy_pairwise (hasymm : ∀ x y, before x y = true → before y x = false)
    (htrans : ∀ x y z, before y x = false → before z y = false → before z x = false) (l : List α) :
    (sortBy before l).Pairwise fun a b => before b a = false := by
  induction l with
  | nil => exact .nil
  | cons x rest ih => exact sortBy_place_pairwise hasymm htrans ih

/-- A list is sorted as any other order of it is, if no two of its elements are equals. -/
theorem sortBy_congr (hasymm : ∀ x y, before x y = true → before y x = false)
    (htrans : ∀ x y z, before y x = false → before z y = false → before z x = false) {l l' : List α} (h : l.Perm l')
    (honly : ∀ x ∈ l, ∀ y ∈ l, before x y = false → before y x = false → x = y) : sortBy before l = sortBy before l' := by
  refine List.Perm.eq_of_pairwise (fun x y hx hy hyx hxy => ?_) (sortBy_pairwise hasymm htrans l)
    (sortBy_pairwise hasymm htrans l') ((sortBy_perm l).trans (h.trans (sortBy_perm l').symm))
  have hx : x ∈ l := (sortBy_perm l).mem_iff.mp hx
  have hy : y ∈ l := h.mem_iff.mpr ((sortBy_perm l').mem_iff.mp hy)
  exact honly x hx y hy hxy hyx

end Sorting

/-! ## Lines and pages -/

/-- What stays of an attempt's record while it runs, and its final status. -/
structure Line where
  key : String
  owner : String
  job : String
  attempt : Int
  parameters : String
  started : String
  final : Option String
  deriving DecidableEq

namespace Line

def ofRow (row : Row) : Line :=
  { key := row.executionId
    owner := row.instanceId
    job := row.job
    attempt := row.attempt
    parameters := row.parameters
    started := row.started
    final := row.finalStatus }

def ofRecord (r : Record) : Line := ofRow (Row.ofRecord r)

theorem ofRecord_note (r : Record) (o : NodeOutcome) : ofRecord (r.note o) = ofRecord r := by
  unfold Record.note
  split <;> rfl

structure SameAttempt (l : Line) (r : Record) : Prop where
  key : l.key = r.id.text
  owner : l.owner = r.instanceId.text
  attempt : l.attempt = r.attempt

structure Tells (l : Line) (r : Record) : Prop where
  key : ExecutionId.parse? l.key = some r.id
  owner : l.owner = r.instanceId.text
  attempt : l.attempt = r.attempt
  final : l.final = r.finalStatus.map Status.name

end Line

namespace Store

def page (s : Store) (id : InstanceId) : List Line :=
  match s with
  | .shelf l => (l.list id).map Line.ofRecord
  | .table t => (t.ofInstance id).map Line.ofRow

def again (s : Store) (old : Line) (r : Record) : Line :=
  match s with
  | .shelf _ => Line.ofRecord r
  | .table _ => { old with final := (Line.ofRecord r).final }

def revised (s : Store) (r : Record) (l : Line) : Line := if l.key = r.id.text then s.again l r else l

variable {s s' : Store} {r : Record} {id : InstanceId}

theorem again_sameAttempt {old : Line} (h : old.SameAttempt r) : (s.again old r).SameAttempt r := by
  cases s with
  | shelf l => exact ⟨rfl, rfl, rfl⟩
  | table t => exact ⟨h.key, h.owner, h.attempt⟩

theorem final_again (s : Store) (old : Line) (r : Record) : (s.again old r).final = r.finalStatus.map Status.name := by
  cases s <;> rfl

end Store

/-! ## Single stores -/

theorem map_eq_self {α : Type} {f : α → α} {l : List α} (h : ∀ x ∈ l, f x = x) : l.map f = l := by
  rw [List.map_congr_left h, List.map_id']

theorem InstanceId.eq_iff {a b : InstanceId} : a = b ↔ a.text = b.text := by
  cases a
  cases b
  simp

theorem InstanceId.text_ne {a b : InstanceId} (h : a ≠ b) : a.text ≠ b.text := fun heq => h (eq_iff.mpr heq)

namespace Shelf

variable {l : Shelf} {r : Record}

theorem list_insert (l : Shelf) (i id : InstanceId) (rs : List Record) :
    (⟨l.attempts.insert i.text rs⟩ : Shelf).list id = if id = i then rs else l.list id := by
  by_cases h : id = i
  · subst h
    simp [list]
  · simp [list, Dict.get?_insert_of_ne _ (InstanceId.text_ne h), h]

theorem append_new (hid : ∀ x ∈ l.list r.instanceId, x.id ≠ r.id)
    (hsorted : (l.list r.instanceId ++ [r]).Pairwise fun a b => a.attempt < b.attempt) :
    l.append r = .ok ⟨l.attempts.insert r.instanceId.text (l.list r.instanceId ++ [r])⟩ := by
  have hnone : ((l.list r.instanceId).any fun x => x.id = r.id) = false :=
    List.any_eq_false.mpr fun x hx hxr => hid x hx (of_decide_eq_true hxr)
  have hattempt : ((l.list r.instanceId).any fun x => x.attempt = r.attempt) = false := by
    refine List.any_eq_false.mpr fun x hx hxr => ?_
    have hlt := (List.pairwise_append.mp hsorted).2.2 x hx r List.mem_cons_self
    exact Nat.ne_of_lt hlt (of_decide_eq_true hxr)
  have hsort : sortBy (fun a b => decide (a.attempt < b.attempt)) (l.list r.instanceId ++ [r])
      = l.list r.instanceId ++ [r] :=
    sortBy_eq_self (hsorted.imp fun hab => decide_eq_false (Nat.lt_asymm hab))
  simp [append, hnone, hattempt, hsort]

theorem append_again {x : Record} (hx : x ∈ l.list r.instanceId) (hid : x.id = r.id) :
    l.append r = .ok ⟨l.attempts.insert r.instanceId.text (replace r (l.list r.instanceId))⟩ := by
  have hany : ((l.list r.instanceId).any fun x => x.id = r.id) = true :=
    List.any_eq_true.mpr ⟨x, hx, decide_eq_true hid⟩
  simp only [append, hany, if_true]

end Shelf

namespace Table

variable {t : Table} {r : Record}

theorem mem_ofInstance {t : Table} {row : Row} {id : InstanceId} :
    row ∈ t.ofInstance id ↔ row ∈ t.rows ∧ row.instanceId = id.text := by
  simp [ofInstance, (sortBy_perm _).mem_iff]

/-- A row put behind the others is the last one of its instance, if its attempt is. -/
theorem ofInstance_append (t : Table) (row : Row) (id : InstanceId)
    (h : ∀ old ∈ t.ofInstance id, row.instanceId = id.text → old.attempt ≤ row.attempt) :
    (⟨t.rows ++ [row]⟩ : Table).ofInstance id =
      if row.instanceId = id.text then t.ofInstance id ++ [row] else t.ofInstance id := by
  by_cases hid : row.instanceId = id.text
  · have hrow : [row].filter (fun x => decide (x.instanceId = id.text)) = [row] := by simp [hid]
    simp only [ofInstance, List.filter_append, hrow, if_pos hid]
    refine sortBy_append fun old hold => ?_
    have := h old (mem_ofInstance.mpr (by simpa using hold)) hid
    simpa using this
  · simp [ofInstance, List.filter_append, hid]

theorem ofInstance_map (t : Table) (f : Row → Row) (id : InstanceId)
    (hinstance : ∀ row, (f row).instanceId = row.instanceId) (hattempt : ∀ row, (f row).attempt = row.attempt) :
    (⟨t.rows.map f⟩ : Table).ofInstance id = (t.ofInstance id).map f := by
  simp only [ofInstance, List.filter_map, Function.comp_def, hinstance]
  exact sortBy_map (fun a b => by simp only [hattempt]) _

theorem append_new (hone : 1 ≤ r.attempt) (hkey : ∀ old ∈ t.rows, old.executionId ≠ r.id.text)
    (hattempt : ∀ old ∈ t.ofInstance r.instanceId, old.attempt < r.attempt) :
    t.append r = .ok ⟨t.rows ++ [Row.ofRecord r]⟩ := by
  have hlow : ¬(Row.ofRecord r).attempt < 1 := by
    show ¬(r.attempt : Int) < 1
    omega
  have hnone : (t.rows.any fun old => old.executionId = (Row.ofRecord r).executionId) = false :=
    List.any_eq_false.mpr fun old hold heq => hkey old hold (of_decide_eq_true heq)
  have hfree : (t.rows.any fun old =>
      decide (old.instanceId = (Row.ofRecord r).instanceId ∧ old.attempt = (Row.ofRecord r).attempt)) = false := by
    refine List.any_eq_false.mpr fun old hold heq => ?_
    obtain ⟨hinstance, heq⟩ := of_decide_eq_true heq
    have hlt := hattempt old (mem_ofInstance.mpr ⟨hold, hinstance⟩)
    have : old.attempt = (r.attempt : Int) := heq
    omega
  simp only [append, if_neg hlow, hnone, hfree, Bool.false_eq_true, if_false]

def put (r : Record) (old : Row) : Row :=
  if old.executionId = (Row.ofRecord r).executionId then update old (Row.ofRecord r) else old

theorem append_again (hone : 1 ≤ r.attempt) {x : Row} (hx : x ∈ t.rows) (hkey : x.executionId = r.id.text) :
    t.append r = .ok ⟨t.rows.map (put r)⟩ := by
  have hlow : ¬(Row.ofRecord r).attempt < 1 := by
    show ¬(r.attempt : Int) < 1
    omega
  have hany : (t.rows.any fun old => old.executionId = (Row.ofRecord r).executionId) = true :=
    List.any_eq_true.mpr ⟨x, hx, decide_eq_true hkey⟩
  simp only [append, if_neg hlow, hany, if_true]
  rfl

theorem ofInstance_put (t : Table) (r : Record) (id : InstanceId) :
    (⟨t.rows.map (put r)⟩ : Table).ofInstance id = (t.ofInstance id).map (put r) := by
  refine ofInstance_map t _ id (fun row => ?_) (fun row => ?_) <;> unfold put <;> split <;> rfl

end Table

/-! ## What is stored of an attempt -/

inductive Entry where
  | record (r : Record)
  | row (row : Row)

namespace Entry

def line : Entry → Line
  | .record r => Line.ofRecord r
  | .row old => Line.ofRow old

def revised (r : Record) : Entry → Entry
  | .record old => .record (if old.id = r.id then r else old)
  | .row old => .row (Table.put r old)

def Of (r : Record) : Entry → Prop
  | .record old => old = r
  | .row old => old = Row.ofRecord r

theorem Of.line_eq {r : Record} {x : Entry} (h : x.Of r) : x.line = Line.ofRecord r := by
  cases x with
  | record old => exact congrArg Line.ofRecord h
  | row old => exact congrArg Line.ofRow h

theorem revised_of_ne {r : Record} {x : Entry} (h : x.line.key ≠ r.id.text) : x.revised r = x := by
  cases x with
  | record old => exact congrArg Entry.record (if_neg fun heq => h (congrArg ExecutionId.text heq))
  | row old => exact congrArg Entry.row (if_neg h)

/-- A record of the attempt that is the same but for what changes while it runs is kept
    as it is. -/
theorem revised_of {r : Record} {x : Entry} (h : Line.ofRecord r = { x.line with final := (Line.ofRecord r).final }) :
    (x.revised r).Of r := by
  have hkey : x.line.key = r.id.text := (congrArg Line.key h).symm
  cases x with
  | record old => exact if_pos (ExecutionId.text_injective hkey)
  | row old =>
    simp only [line, Line.ofRecord, Line.ofRow, Line.mk.injEq] at h
    obtain ⟨hid, howner, hjob, hattempt, hparameters, hstarted, -⟩ := h
    show Table.put r old = Row.ofRecord r
    rw [Table.put, if_pos hid.symm]
    simp only [Table.update, ← hid, ← howner, ← hjob, ← hattempt, ← hparameters, ← hstarted]

end Entry

namespace Store

def entries (s : Store) (id : InstanceId) : List Entry :=
  match s with
  | .shelf l => (l.list id).map Entry.record
  | .table t => (t.ofInstance id).map Entry.row

def entry (s : Store) (r : Record) : Entry :=
  match s with
  | .shelf _ => .record r
  | .table _ => .row (Row.ofRecord r)

/-- A store after a record was put behind what is stored of its instance. -/
def Gains (s : Store) (r : Record) (s' : Store) : Prop :=
  ∀ id, s'.entries id = if id = r.instanceId then s.entries id ++ [s.entry r] else s.entries id

/-- A store after a record was appended whose attempt is there. -/
def Revises (s : Store) (r : Record) (s' : Store) : Prop :=
  ∀ id, s'.entries id = (s.entries id).map (Entry.revised r)

theorem page_eq (s : Store) (id : InstanceId) : s.page id = (s.entries id).map Entry.line := by
  cases s with
  | shelf l => simp only [page, entries, List.map_map, Function.comp_def, Entry.line]
  | table t => simp only [page, entries, List.map_map, Function.comp_def, Entry.line]

theorem line_mem_page {s : Store} {id : InstanceId} {x : Entry} (h : x ∈ s.entries id) : x.line ∈ s.page id := by
  rw [page_eq]
  exact List.mem_map_of_mem h

theorem exists_entry {s : Store} {id : InstanceId} {l : Line} (h : l ∈ s.page id) : ∃ x ∈ s.entries id, x.line = l := by
  rw [page_eq] at h
  exact List.mem_map.mp h

theorem entry_of (s : Store) (r : Record) : (s.entry r).Of r := by
  cases s <;> rfl

theorem line_entry (s : Store) (r : Record) : (s.entry r).line = Line.ofRecord r := (s.entry_of r).line_eq

theorem line_revised {s : Store} {id : InstanceId} {x : Entry} (hx : x ∈ s.entries id) (r : Record) :
    (x.revised r).line = s.revised r x.line := by
  cases s with
  | shelf l =>
    obtain ⟨old, -, rfl⟩ := List.mem_map.mp hx
    have hiff : (Line.ofRecord old).key = r.id.text ↔ old.id = r.id :=
      ⟨fun h => ExecutionId.text_injective h, congrArg ExecutionId.text⟩
    simp only [Entry.revised, Entry.line, revised, again, hiff]
    exact apply_ite Line.ofRecord _ _ _
  | table t =>
    obtain ⟨old, -, rfl⟩ := List.mem_map.mp hx
    exact apply_ite Line.ofRow _ _ _

theorem Gains.page {s s' : Store} {r : Record} (h : s.Gains r s') (id : InstanceId) :
    s'.page id = if id = r.instanceId then s.page id ++ [Line.ofRecord r] else s.page id := by
  simp only [page_eq, h id]
  split
  · rw [List.map_append, List.map_singleton, line_entry]
  · rfl

theorem Revises.page {s s' : Store} {r : Record} (h : s.Revises r s') (id : InstanceId) :
    s'.page id = (s.page id).map (s.revised r) := by
  simp only [page_eq, h id, List.map_map]
  exact List.map_congr_left fun x hx => line_revised hx r

end Store

namespace Row

theorem statusColumn_eq_ok {text : Option String} {status : Option Status} (h : statusColumn text = .ok status) :
    status.map Status.name = text := by
  cases text with
  | none => cases h; rfl
  | some s =>
    simp only [statusColumn] at h
    split at h
    next status' hname =>
      cases h
      have hs := List.find?_some hname
      exact congrArg some (of_decide_eq_true hs)
    · cases h

theorem attemptColumn_eq_ok {n : Int} {attempt : Nat} (h : attemptColumn n = .ok attempt) : (attempt : Int) = n := by
  simp only [attemptColumn] at h
  split at h
  next hn => cases h; exact Int.toNat_of_nonneg hn.1
  · cases h

theorem idColumn_eq_ok {s : String} {id : ExecutionId} (h : idColumn s = .ok id) : ExecutionId.parse? s = some id := by
  simp only [idColumn] at h
  split at h
  next hparse => cases h; exact hparse
  · cases h

theorem bind_eq_ok {ε α β : Type} {x : Except ε α} {f : α → Except ε β} {b : β} (h : (x >>= f) = .ok b) :
    ∃ a, x = .ok a ∧ f a = .ok b := by
  cases x with
  | error e => cases h
  | ok a => exact ⟨a, rfl, h⟩

/-- What a row that reads back says of the record's attempt. -/
theorem toRecord_eq_ok {row : Row} {r : Record} (h : row.toRecord = .ok r) :
    row.instanceId = r.instanceId.text ∧ row.attempt = r.attempt ∧ row.finalStatus = r.finalStatus.map Status.name ∧
      row.restartNode = r.restartNode ∧ row.lastNode = r.lastNode ∧
      structured? .compact "last_exit" Exit.ofJson? row.lastExit = .ok r.lastExit ∧
      ExecutionId.parse? row.executionId = some r.id := by
  obtain ⟨finalStatus, hstatus, h⟩ := bind_eq_ok h
  obtain ⟨parameters, -, h⟩ := bind_eq_ok h
  obtain ⟨completed, -, h⟩ := bind_eq_ok h
  obtain ⟨branches, -, h⟩ := bind_eq_ok h
  obtain ⟨context, -, h⟩ := bind_eq_ok h
  obtain ⟨lastExit, hexit, h⟩ := bind_eq_ok h
  obtain ⟨finalExit, -, h⟩ := bind_eq_ok h
  obtain ⟨failure, -, h⟩ := bind_eq_ok h
  obtain ⟨id, hid, h⟩ := bind_eq_ok h
  obtain ⟨attempt, hattempt, h⟩ := bind_eq_ok h
  obtain ⟨started, -, h⟩ := bind_eq_ok h
  obtain ⟨ended, -, h⟩ := bind_eq_ok h
  cases h
  exact ⟨rfl, (attemptColumn_eq_ok hattempt).symm, (statusColumn_eq_ok hstatus).symm, rfl, rfl, hexit,
    idColumn_eq_ok hid⟩

end Row

namespace Store

variable {s : Store} {r : Record} {id : InstanceId}

theorem mem_page_of_row {t : Table} {row : Row} (h : row ∈ t.rows) :
    Line.ofRow row ∈ (Store.table t).page ⟨row.instanceId⟩ :=
  List.mem_map_of_mem (Table.mem_ofInstance.mpr ⟨h, rfl⟩)

/-! ## Appending a record -/

/-- A new record with the highest attempt number goes behind what is stored of its
    instance. -/
theorem append_new (hone : 1 ≤ r.attempt) (hfresh : ∀ id, ∀ l ∈ s.page id, l.key ≠ r.id.text)
    (hsorted : (s.page r.instanceId).Pairwise fun a b => a.attempt < b.attempt)
    (hnext : ∀ l ∈ s.page r.instanceId, l.attempt < r.attempt) :
    ∃ s', s.append r = .ok s' ∧ s.Gains r s' := by
  cases s with
  | shelf l =>
    have hid : ∀ x ∈ l.list r.instanceId, x.id ≠ r.id := fun x hx hxr =>
      hfresh r.instanceId _ (List.mem_map_of_mem hx) (congrArg ExecutionId.text hxr)
    have hpairs : (l.list r.instanceId ++ [r]).Pairwise fun a b => a.attempt < b.attempt := by
      refine List.pairwise_append.mpr ⟨?_, List.pairwise_singleton _ _, fun x hx y hy => ?_⟩
      · exact (List.pairwise_map.mp hsorted).imp Int.ofNat_lt.mp
      · cases List.mem_singleton.mp hy
        exact Int.ofNat_lt.mp (hnext _ (List.mem_map_of_mem hx))
    refine ⟨_, congrArg (Except.map Store.shelf) (Shelf.append_new hid hpairs), fun id => ?_⟩
    simp only [entries, Shelf.list_insert]
    split
    next h => rw [h, List.map_append, List.map_singleton]; rfl
    · rfl
  | table t =>
    have hbefore : ∀ old ∈ t.ofInstance r.instanceId, old.attempt < r.attempt :=
      fun old hold => hnext (Line.ofRow old) (List.mem_map_of_mem hold)
    have happend := Table.append_new hone (fun old hold => hfresh _ _ (mem_page_of_row hold)) hbefore
    refine ⟨_, congrArg (Except.map Store.table) happend, fun id => ?_⟩
    have hinstance : (Row.ofRecord r).instanceId = id.text ↔ id = r.instanceId :=
      ⟨fun h => InstanceId.eq_iff.mpr h.symm, fun h => (congrArg InstanceId.text h).symm⟩
    have hlast : ∀ old ∈ t.ofInstance id, (Row.ofRecord r).instanceId = id.text →
        old.attempt ≤ (Row.ofRecord r).attempt := by
      intro old hold hid
      cases hinstance.mp hid
      exact Int.le_of_lt (hbefore old hold)
    simp only [entries, Table.ofInstance_append t _ id hlast, hinstance]
    split
    · rw [List.map_append]
      rfl
    · rfl

/-- A new record is refused if its instance has its attempt number already. -/
theorem append_taken {s' : Store} (hfresh : ∀ id, ∀ l ∈ s.page id, l.key ≠ r.id.text) {l : Line}
    (hl : l ∈ s.page r.instanceId) (hattempt : l.attempt = r.attempt) : s.append r ≠ .ok s' := by
  cases s with
  | shelf records =>
    obtain ⟨x, hx, rfl⟩ := List.mem_map.mp hl
    have hnone : ((records.list r.instanceId).any fun x => x.id = r.id) = false :=
      List.any_eq_false.mpr fun y hy hyr =>
        hfresh r.instanceId _ (List.mem_map_of_mem hy) (congrArg ExecutionId.text (of_decide_eq_true hyr))
    have htaken : ((records.list r.instanceId).any fun x => x.attempt = r.attempt) = true :=
      List.any_eq_true.mpr ⟨x, hx, decide_eq_true (Int.ofNat_inj.mp hattempt)⟩
    simp [append, Shelf.append, hnone, htaken, Except.map]
  | table t =>
    obtain ⟨row, hrow, rfl⟩ := List.mem_map.mp hl
    obtain ⟨hmem, hinstance⟩ := Table.mem_ofInstance.mp hrow
    have hnone : (t.rows.any fun old => old.executionId = (Row.ofRecord r).executionId) = false :=
      List.any_eq_false.mpr fun old hold heq => hfresh _ _ (mem_page_of_row hold) (of_decide_eq_true heq)
    have htaken : (t.rows.any fun old =>
        decide (old.instanceId = (Row.ofRecord r).instanceId ∧ old.attempt = (Row.ofRecord r).attempt)) = true :=
      List.any_eq_true.mpr ⟨row, hmem, decide_eq_true ⟨hinstance, hattempt⟩⟩
    intro happend
    simp only [append, Table.append, hnone, htaken, Bool.false_eq_true, if_false, if_true] at happend
    split at happend <;> simp [Except.map] at happend

/-- A record whose attempt is there already changes what is stored of it. -/
theorem append_again (hone : 1 ≤ r.attempt) {old : Line} (hold : old ∈ s.page r.instanceId)
    (hkey : old.key = r.id.text) (honly : ∀ id, ∀ l ∈ s.page id, l.key = r.id.text → id = r.instanceId) :
    ∃ s', s.append r = .ok s' ∧ s.Revises r s' := by
  cases s with
  | shelf l =>
    obtain ⟨x, hx, rfl⟩ := List.mem_map.mp hold
    have happend := Shelf.append_again hx (ExecutionId.text_injective hkey)
    refine ⟨_, congrArg (Except.map Store.shelf) happend, fun id => ?_⟩
    simp only [entries, Shelf.list_insert]
    split
    next hid =>
      rw [hid, Shelf.replace, List.map_map, List.map_map]
      rfl
    next hid =>
      refine (map_eq_self fun y hy => Entry.revised_of_ne fun heq => hid ?_).symm
      exact honly id _ (line_mem_page hy) heq
  | table t =>
    obtain ⟨x, hx, rfl⟩ := List.mem_map.mp hold
    have happend := Table.append_again hone (Table.mem_ofInstance.mp hx).1 hkey
    refine ⟨_, congrArg (Except.map Store.table) happend, fun id => ?_⟩
    simp only [entries, Table.ofInstance_put, List.map_map]
    rfl

/-! ## Reading the latest record -/

theorem page_of_latest?_none (h : s.latest? id = .ok none) : s.page id = [] := by
  cases s with
  | shelf l =>
    have hlast : (l.list id).getLast? = none := by simpa [latest?, Shelf.latest?] using h
    simp [page, List.getLast?_eq_none_iff.mp hlast]
  | table t =>
    simp only [latest?, Table.latest?] at h
    split at h
    next hlast => simp [page, List.getLast?_eq_none_iff.mp hlast]
    next row hlast =>
      cases hr : row.toRecord <;> simp [hr, Except.map] at h

theorem entries_of_latest?_some (h : s.latest? id = .ok (some r)) :
    ∃ pre x, s.entries id = pre ++ [x] ∧ x.line.Tells r := by
  cases s with
  | shelf l =>
    have hlast : (l.list id).getLast? = some r := by simpa [latest?, Shelf.latest?] using h
    obtain ⟨before, hlist⟩ := List.getLast?_eq_some_iff.mp hlast
    refine ⟨before.map Entry.record, .record r, by simp [entries, hlist], ?_⟩
    exact ⟨ExecutionId.parse?_text r.id, rfl, rfl, rfl⟩
  | table t =>
    simp only [latest?, Table.latest?] at h
    split at h
    · cases h
    next row hlast =>
      cases hr : row.toRecord with
      | error e => simp [hr, Except.map] at h
      | ok r' =>
      simp only [hr, Except.map, Except.ok.injEq, Option.some.injEq] at h
      subst h
      obtain ⟨before, hlist⟩ := List.getLast?_eq_some_iff.mp hlast
      obtain ⟨howner, hattempt, hfinal, -, -, -, hkey⟩ := Row.toRecord_eq_ok hr
      exact ⟨before.map Entry.row, .row row, by simp [entries, hlist], hkey, howner, hattempt, hfinal⟩

theorem page_eq_concat {pre : List Entry} {x : Entry} (h : s.entries id = pre ++ [x]) :
    s.page id = pre.map Entry.line ++ [x.line] := by
  rw [page_eq, h, List.map_append, List.map_singleton]

theorem page_of_latest?_some (h : s.latest? id = .ok (some r)) :
    ∃ pre old, s.page id = pre ++ [old] ∧ old.Tells r := by
  obtain ⟨pre, x, hentries, htells⟩ := entries_of_latest?_some h
  exact ⟨_, _, page_eq_concat hentries, htells⟩

def readBack (s : Store) (r : Record) : Except StoreError Record :=
  match s with
  | .shelf _ => .ok r
  | .table _ => (Row.ofRecord r).toRecord

/-- The end of an attempt is read as it was stored, on a shelf or in a table. -/
theorem end_of_readBack {r' : Record} (h : s.readBack r = .ok r') :
    r'.attempt = r.attempt ∧ r'.finalStatus = r.finalStatus ∧ r'.restartNode = r.restartNode := by
  cases s with
  | shelf l =>
    cases h
    exact ⟨rfl, rfl, rfl⟩
  | table t =>
    obtain ⟨-, hattempt, hstatus, hrestart, -⟩ := Row.toRecord_eq_ok h
    have hname : Function.Injective Status.name := fun a b hab =>
      Option.some.inj (by rw [← Status.ofName?_name a, ← Status.ofName?_name b, hab])
    refine ⟨?_, ?_, hrestart.symm⟩
    · exact (Int.ofNat_inj.mp hattempt).symm
    · exact (Option.map_injective hname hstatus).symm

/-- A shelf gives back what it was given. -/
theorem readBack_of_shelf {s : Store} (h : (match s with | .shelf _ => true | .table _ => false) = true) (r : Record) :
    s.readBack r = .ok r := by
  cases s with
  | shelf l => rfl
  | table t => cases h

/-- A record that is kept in the last place is the latest one read. -/
theorem latest?_of_getLast? {x : Entry} (hx : x ∈ (s.entries id).getLast?) (h : x.Of r) :
    s.latest? id = (s.readBack r).map some := by
  cases s with
  | shelf l =>
    simp only [entries, List.getLast?_map, Option.mem_def, Option.map_eq_some_iff] at hx
    obtain ⟨old, hlast, rfl⟩ := hx
    obtain rfl : old = r := h
    exact congrArg Except.ok hlast
  | table t =>
    simp only [entries, List.getLast?_map, Option.mem_def, Option.map_eq_some_iff] at hx
    obtain ⟨row, hlast, rfl⟩ := hx
    obtain rfl : row = Row.ofRecord r := h
    simp only [latest?, Table.latest?, hlast, readBack]

end Store

end Switchyard
