import Switchyard.Proofs.Identity
import Switchyard.Proofs.Store.Attempts
import Switchyard.Proofs.Store.Persistence

/-
  Switchyard.Proofs.Store.Agreement — a shelf and a table answer alike.

  A shelf replaces whole records in the list of their instance, a table the changing
  columns of a row, and sorts when it is read. They are held together by a relation
  (`Match`): of every instance the table has, in order of their attempts, the rows of the
  records that the shelf has of it.

  The records that are appended are those an engine appends (`Appended`): each can be
  read back from its row, is of an instance that was derived, and has an attempt number
  from one on; and those of one identifier agree in what an attempt keeps from its start.

  - `Match.append`: both stores take a record and still match, or both have a conflict.
  - `stores_agree`: over any calls the two answer alike.
-/

namespace Switchyard

/-! ## Calls -/

inductive Store.Call where
  | append (r : Record)
  | latest (id : InstanceId)
  | list (id : InstanceId)

inductive Store.Answer where
  | appended (x : Except AppendFailure Unit)
  | latest (x : Except StoreError (Option Record))
  | list (x : Except StoreError (List Record))

def Store.answer (s : Store) : Store.Call → Store.Answer × Store
  | .append r =>
    match s.append r with
    | .ok s' => (.appended (.ok ()), s')
    | .error e => (.appended (.error e), s)
  | .latest id => (.latest (s.latest? id), s)
  | .list id => (.list (s.list id), s)

def Store.answers (s : Store) : List Store.Call → List Store.Answer
  | [] => []
  | c :: rest => (s.answer c).1 :: (s.answer c).2.answers rest

/-- Both took a record, both have a conflict, or both read the same. -/
inductive Store.Answer.Agrees : Store.Answer → Store.Answer → Prop where
  | appended : Agrees (.appended (.ok ())) (.appended (.ok ()))
  | conflict (d d' : String) :
    Agrees (.appended (.error (.refused (.conflict d)))) (.appended (.error (.refused (.conflict d'))))
  | latest (r : Option Record) : Agrees (.latest (.ok r)) (.latest (.ok r))
  | list (rs : List Record) : Agrees (.list (.ok rs)) (.list (.ok rs))

/-! ## What is appended -/

/-- The records agree in what an attempt keeps from its start. -/
structure Record.Kin (r r' : Record) : Prop where
  instanceId : r.instanceId = r'.instanceId
  job : r.job = r'.job
  attempt : r.attempt = r'.attempt
  parameters : r.parameters = r'.parameters
  started : r.started = r'.started

structure Appended (rs : List Record) : Prop where
  legible : ∀ r ∈ rs, r.Legible
  derived : ∀ r ∈ rs, ∃ job parameters, r.instanceId = InstanceId.derive job parameters
  first : ∀ r ∈ rs, 1 ≤ r.attempt
  kin : ∀ r ∈ rs, ∀ r' ∈ rs, r.id = r'.id → r.Kin r'

def Store.Call.records : List Store.Call → List Record
  | [] => []
  | .append r :: rest => r :: records rest
  | .latest _ :: rest => records rest
  | .list _ :: rest => records rest

/-! ## Each store by itself -/

section Appending

variable {rs : List Record} {l : Shelf} {t : Table} {r : Record}

theorem Shelf.append_free (hnew : ¬ ∃ x ∈ l.list r.instanceId, x.id = r.id)
    (hfree : ¬ ∃ x ∈ l.list r.instanceId, x.attempt = r.attempt) :
    l.append r = .ok ⟨l.attempts.insert r.instanceId.text
      (sortBy (fun a b => a.attempt < b.attempt) (l.list r.instanceId ++ [r]))⟩ := by
  simp [append, hnew, hfree]

theorem Shelf.append_taken (hnew : ¬ ∃ x ∈ l.list r.instanceId, x.id = r.id)
    (htaken : ∃ x ∈ l.list r.instanceId, x.attempt = r.attempt) : l.append r = .error (taken r) := by
  simp [append, hnew, htaken]

theorem Table.append_free (hone : 1 ≤ r.attempt)
    (hnew : ¬ ∃ row ∈ t.rows, row.executionId = (Row.ofRecord r).executionId)
    (hfree : ¬ ∃ row ∈ t.rows, row.instanceId = (Row.ofRecord r).instanceId ∧ row.attempt = (Row.ofRecord r).attempt) :
    t.append r = .ok ⟨t.rows ++ [Row.ofRecord r]⟩ := by
  have hlow : ¬(Row.ofRecord r).attempt < 1 := Int.not_lt.mpr (Int.ofNat_le.mpr hone)
  simpa [append, hlow, hnew] using hfree

theorem Table.append_taken (hone : 1 ≤ r.attempt)
    (hnew : ¬ ∃ row ∈ t.rows, row.executionId = (Row.ofRecord r).executionId)
    (htaken : ∃ row ∈ t.rows, row.instanceId = (Row.ofRecord r).instanceId ∧ row.attempt = (Row.ofRecord r).attempt) :
    t.append r = .error (.refused (.conflict attemptUnique)) := by
  have hlow : ¬(Row.ofRecord r).attempt < 1 := Int.not_lt.mpr (Int.ofNat_le.mpr hone)
  simp [append, hlow, hnew, htaken]

/-- A conflict about a derived instance can be told. -/
theorem Shelf.exists_taken (hderived : ∃ job parameters, r.instanceId = InstanceId.derive job parameters) :
    ∃ d, taken r = .refused (.conflict d) := by
  obtain ⟨job, parameters, hid⟩ := hderived
  obtain ⟨short, hshort⟩ := Option.isSome_iff_exists.mp (InstanceId.isSome_short?_derive job parameters)
  simp [taken, hid, hshort]

/-- Rows are read as if those of the instance had lain in the order of their attempts
    before the new one came. -/
theorem Table.ofInstance_concat (t : Table) (row : Row) (id : InstanceId) (hid : row.instanceId = id.text)
    (honly : ∀ x ∈ t.ofInstance id ++ [row], ∀ y ∈ t.ofInstance id ++ [row], x.attempt = y.attempt → x = y) :
    (⟨t.rows ++ [row]⟩ : Table).ofInstance id = sortBy (fun a b => a.attempt < b.attempt) (t.ofInstance id ++ [row]) := by
  have hrow : [row].filter (fun x => decide (x.instanceId = id.text)) = [row] := by simp [hid]
  have hperm : (t.rows.filter (fun x => decide (x.instanceId = id.text)) ++ [row]).Perm (t.ofInstance id ++ [row]) :=
    (sortBy_perm _).symm.append_right [row]
  rw [ofInstance, List.filter_append, hrow]
  refine (sortBy_congr ?_ ?_ hperm.symm ?_).symm
  · exact fun x y h => decide_eq_false (Int.lt_asymm (of_decide_eq_true h))
  · intro x y z hyx hzy
    have hxy := Int.not_lt.mp (of_decide_eq_false hyx)
    exact decide_eq_false (Int.not_lt.mpr (Int.le_trans hxy (Int.not_lt.mp (of_decide_eq_false hzy))))
  · intro x hx y hy hxy hyx
    refine honly x hx y hy (Int.le_antisymm ?_ ?_)
    · exact Int.not_lt.mp (of_decide_eq_false hyx)
    · exact Int.not_lt.mp (of_decide_eq_false hxy)

end Appending

/-! ## The relation between the stores -/

/-- The table has the rows of the records that the shelf has, which are among these. -/
structure Match (rs : List Record) (l : Shelf) (t : Table) : Prop where
  rows : ∀ id, t.ofInstance id = (l.list id).map Row.ofRecord
  among : ∀ id, ∀ x ∈ l.list id, x ∈ rs
  home : ∀ id, ∀ x ∈ l.list id, x.instanceId = id
  distinct : ∀ id, ((l.list id).map (·.id)).Nodup
  order : ∀ id, Shelf.InOrder (l.list id)

theorem Match.empty (rs : List Record) : Match rs .empty .empty where
  rows _ := rfl
  among _ _ hx := nomatch hx
  home _ _ hx := nomatch hx
  distinct _ := .nil
  order _ := .nil

section Appending

variable {rs : List Record} {l : Shelf} {t : Table} {r : Record}

theorem Match.mem_rows (h : Match rs l t) {row : Row} :
    row ∈ t.rows ↔ ∃ id, row.instanceId = id.text ∧ ∃ x ∈ l.list id, Row.ofRecord x = row := by
  constructor
  · intro hrow
    have hpage : row ∈ t.ofInstance ⟨row.instanceId⟩ := Table.mem_ofInstance.mpr ⟨hrow, rfl⟩
    rw [h.rows] at hpage
    exact ⟨_, rfl, List.mem_map.mp hpage⟩
  · rintro ⟨id, -, hx⟩
    have hpage : row ∈ t.ofInstance id := h.rows id ▸ List.mem_map.mpr hx
    exact (Table.mem_ofInstance.mp hpage).1

/-- The table has a row of the record's attempt if the shelf has the attempt. -/
theorem Match.has_key (h : Match rs l t) (hrs : Appended rs) (hr : r ∈ rs) :
    (∃ row ∈ t.rows, row.executionId = (Row.ofRecord r).executionId) ↔ ∃ x ∈ l.list r.instanceId, x.id = r.id := by
  constructor
  · rintro ⟨row, hrow, hkey⟩
    obtain ⟨id, -, x, hx, rfl⟩ := h.mem_rows.mp hrow
    have hid : x.id = r.id := ExecutionId.text_injective hkey
    have hhome : id = r.instanceId := (h.home id x hx).symm.trans (hrs.kin x (h.among id x hx) r hr hid).instanceId
    exact ⟨x, hhome ▸ hx, hid⟩
  · rintro ⟨x, hx, hid⟩
    exact ⟨Row.ofRecord x, h.mem_rows.mpr ⟨x.instanceId, rfl, x, h.home _ x hx ▸ hx, rfl⟩, congrArg ExecutionId.text hid⟩

/-- The table has a row of the record's attempt number if the shelf has the number. -/
theorem Match.has_attempt (h : Match rs l t) :
    (∃ row ∈ t.rows, row.instanceId = (Row.ofRecord r).instanceId ∧ row.attempt = (Row.ofRecord r).attempt) ↔
      ∃ x ∈ l.list r.instanceId, x.attempt = r.attempt := by
  constructor
  · rintro ⟨row, hrow, hinstance, hattempt⟩
    have hpage : row ∈ t.ofInstance r.instanceId := Table.mem_ofInstance.mpr ⟨hrow, hinstance⟩
    rw [h.rows] at hpage
    obtain ⟨x, hx, rfl⟩ := List.mem_map.mp hpage
    exact ⟨x, hx, Int.ofNat_inj.mp hattempt⟩
  · rintro ⟨x, hx, hattempt⟩
    have hpage : Row.ofRecord x ∈ t.ofInstance r.instanceId := h.rows _ ▸ List.mem_map_of_mem hx
    obtain ⟨hrow, hinstance⟩ := Table.mem_ofInstance.mp hpage
    exact ⟨_, hrow, hinstance, congrArg Int.ofNat hattempt⟩

/-- An update of a row takes over a record of the same attempt. -/
theorem Row.put_ofRecord {x : Record} (h : x.id = r.id → x.Kin r) :
    Table.put r (ofRecord x) = ofRecord (if x.id = r.id then r else x) := by
  by_cases hid : x.id = r.id
  · obtain ⟨hinstance, hjob, hattempt, hparameters, hstarted⟩ := h hid
    have hkey : (ofRecord x).executionId = (ofRecord r).executionId := congrArg ExecutionId.text hid
    rw [if_pos hid, Table.put, if_pos hkey]
    simp only [Table.update, ofRecord, ofRecordIn, hid, hinstance, hjob, hattempt, hparameters, hstarted]
  · have hkey : (ofRecord x).executionId ≠ (ofRecord r).executionId := fun heq => hid (ExecutionId.text_injective heq)
    rw [if_neg hid, Table.put, if_neg hkey]

/-- Only the rows have to be told of a shelf that took a record. -/
theorem Match.put (h : Match rs l t) (hrs : Appended rs) (hr : r ∈ rs) {l' : Shelf} {t' : Table}
    (happend : l.append r = .ok l') (hrows : ∀ id, t'.ofInstance id = (l'.list id).map Row.ofRecord) :
    Match rs l' t' := by
  have hput : l.put r = l' := by rw [Shelf.put, happend]
  subst hput
  have hmem {id : InstanceId} {x : Record} (hx : x ∈ (l.put r).list id) : x = r ∨ x ∈ l.list id := Shelf.mem_put hx
  refine ⟨hrows, fun id x hx => ?_, fun id x hx => ?_, fun id => Shelf.distinct_put (h.distinct id), fun id => ?_⟩
  · rcases hmem hx with rfl | hx
    · exact hr
    · exact h.among id x hx
  · by_cases hid : id = r.instanceId
    · rcases hmem hx with rfl | hx
      · exact hid.symm
      · exact h.home id x hx
    · exact h.home id x (Shelf.list_append_of_ne happend hid ▸ hx)
  · refine Shelf.inOrder_put (h.distinct id) (h.order id) fun _ => Shelf.fits_of_attempt (h.order id) fun x hx hid => ?_
    exact (hrs.kin x (h.among id x hx) r hr hid).attempt

/-- Both stores replace an attempt that is there. -/
theorem Match.again (h : Match rs l t) (hrs : Appended rs) (hr : r ∈ rs) (hthere : ∃ x ∈ l.list r.instanceId, x.id = r.id) :
    ∃ l' t', l.append r = .ok l' ∧ t.append r = .ok t' ∧ Match rs l' t' := by
  obtain ⟨row, hrow, hkey⟩ := (h.has_key hrs hr).mpr hthere
  obtain ⟨x, hx, hid⟩ := hthere
  have happend := Shelf.append_again hx hid
  refine ⟨_, _, happend, Table.append_again (hrs.first r hr) hrow hkey, h.put hrs hr happend fun id => ?_⟩
  have hkin : ∀ y ∈ l.list id, y.id = r.id → y.Kin r := fun y hy => hrs.kin y (h.among id y hy) r hr
  rw [Table.ofInstance_put, h.rows, List.map_map, Shelf.list_insert]
  split
  next hinstance =>
    rw [← hinstance, Shelf.replace, List.map_map]
    exact List.map_congr_left fun y hy => Row.put_ofRecord (hkin y hy)
  next hinstance =>
    refine List.map_congr_left fun y hy => ?_
    have hother : y.id ≠ r.id := fun heq => hinstance ((h.home id y hy).symm.trans (hkin y hy heq).instanceId)
    rw [Function.comp_apply, Row.put_ofRecord (hkin y hy), if_neg hother]

/-- Both stores put a new attempt in, the shelf in its place, the table where reading
    sorts it in. -/
theorem Match.new (h : Match rs l t) (hrs : Appended rs) (hr : r ∈ rs)
    (hnew : ¬ ∃ x ∈ l.list r.instanceId, x.id = r.id) (hfree : ¬ ∃ x ∈ l.list r.instanceId, x.attempt = r.attempt) :
    ∃ l' t', l.append r = .ok l' ∧ t.append r = .ok t' ∧ Match rs l' t' := by
  have hshelf := Shelf.append_free hnew hfree
  have htable := Table.append_free (hrs.first r hr) (fun h' => hnew ((h.has_key hrs hr).mp h'))
    fun h' => hfree (h.has_attempt.mp h')
  refine ⟨_, _, hshelf, htable, h.put hrs hr hshelf fun id => ?_⟩
  rw [Shelf.list_insert]
  split
  next hinstance =>
    subst hinstance
    have hrows : t.ofInstance r.instanceId ++ [Row.ofRecord r] = (l.list r.instanceId ++ [r]).map Row.ofRecord := by
      rw [h.rows, List.map_append, List.map_singleton]
    have hnodup : ((l.list r.instanceId ++ [r]).map (·.attempt)).Nodup := by
      rw [List.map_append, List.map_singleton]
      refine List.nodup_append.mpr ⟨(h.order _).nodup, List.nodup_singleton _, fun n hn m hm heq => hfree ?_⟩
      obtain ⟨x, hx, rfl⟩ := List.mem_map.mp hn
      exact ⟨x, hx, heq.trans (List.mem_singleton.mp hm)⟩
    rw [Table.ofInstance_concat t _ _ rfl, hrows, sortBy_map fun a b => ?_]
    · exact decide_eq_decide.mpr Int.ofNat_lt
    · rw [hrows]
      intro x hx y hy heq
      obtain ⟨a, ha, rfl⟩ := List.mem_map.mp hx
      obtain ⟨b, hb, rfl⟩ := List.mem_map.mp hy
      exact congrArg Row.ofRecord (List.inj_on_of_nodup_map hnodup ha hb (Int.ofNat_inj.mp heq))
  next hinstance =>
    have hother : (Row.ofRecord r).instanceId ≠ id.text := fun heq => hinstance (InstanceId.eq_iff.mpr heq.symm)
    rw [← h.rows]
    simp [Table.ofInstance, List.filter_append, hother]

/-- Both stores refuse an attempt number that is taken. -/
theorem Match.taken (h : Match rs l t) (hrs : Appended rs) (hr : r ∈ rs)
    (hnew : ¬ ∃ x ∈ l.list r.instanceId, x.id = r.id) (htaken : ∃ x ∈ l.list r.instanceId, x.attempt = r.attempt) :
    ∃ d d', l.append r = .error (.refused (.conflict d)) ∧ t.append r = .error (.refused (.conflict d')) := by
  obtain ⟨d, hd⟩ := Shelf.exists_taken (hrs.derived r hr)
  refine ⟨d, Table.attemptUnique, ?_, ?_⟩
  · rw [Shelf.append_taken hnew htaken, hd]
  · exact Table.append_taken (hrs.first r hr) (fun h' => hnew ((h.has_key hrs hr).mp h')) (h.has_attempt.mpr htaken)

/-- Both stores take a record, and they match again, or both have a conflict. -/
theorem Match.append (h : Match rs l t) (hrs : Appended rs) (hr : r ∈ rs) :
    (∃ l' t', l.append r = .ok l' ∧ t.append r = .ok t' ∧ Match rs l' t') ∨
      ∃ d d', l.append r = .error (.refused (.conflict d)) ∧ t.append r = .error (.refused (.conflict d')) := by
  by_cases hthere : ∃ x ∈ l.list r.instanceId, x.id = r.id
  · exact Or.inl (h.again hrs hr hthere)
  by_cases htaken : ∃ x ∈ l.list r.instanceId, x.attempt = r.attempt
  · exact Or.inr (h.taken hrs hr hthere htaken)
  · exact Or.inl (h.new hrs hr hthere htaken)

/-! ## What the stores answer -/

theorem mapM_eq_ok {ε α β : Type} {f : α → Except ε β} {g : β → α} {l : List β} (h : ∀ x ∈ l, f (g x) = .ok x) :
    (l.map g).mapM f = .ok l := by
  induction l with
  | nil => rfl
  | cons x rest ih =>
    rw [List.map_cons, List.mapM_cons, h x List.mem_cons_self, ih fun y hy => h y (List.mem_cons_of_mem _ hy)]
    rfl

theorem Match.list (h : Match rs l t) (hrs : Appended rs) (id : InstanceId) : t.list id = .ok (l.list id) := by
  rw [Table.list, h.rows]
  exact mapM_eq_ok fun x hx => Row.toRecord_ofRecord (hrs.legible x (h.among id x hx))

theorem Match.latest (h : Match rs l t) (hrs : Appended rs) (id : InstanceId) : t.latest? id = .ok (l.latest? id) := by
  rw [Table.latest?, h.rows, List.getLast?_map, Shelf.latest?]
  cases hlast : (l.list id).getLast? with
  | none => rfl
  | some x =>
    simp only [Option.map_some, Row.toRecord_ofRecord (hrs.legible x (h.among id x (List.mem_of_getLast? hlast)))]
    rfl

end Appending

theorem answers_agree {rs : List Record} (hrs : Appended rs) {calls : List Store.Call}
    (hcalls : ∀ r ∈ Store.Call.records calls, r ∈ rs) {l : Shelf} {t : Table} (h : Match rs l t) :
    List.Forall₂ Store.Answer.Agrees ((Store.shelf l).answers calls) ((Store.table t).answers calls) := by
  induction calls generalizing l t with
  | nil => exact .nil
  | cons c rest ih =>
    cases c with
    | append r =>
      have hrest : ∀ r' ∈ Store.Call.records rest, r' ∈ rs := fun r' hr' => hcalls r' (List.mem_cons_of_mem _ hr')
      rcases h.append hrs (hcalls r List.mem_cons_self) with ⟨l', t', hl, ht, h'⟩ | ⟨d, d', hl, ht⟩
      · simp only [Store.answers, Store.answer, Store.append, hl, ht, Except.map]
        exact .cons .appended (ih hrest h')
      · simp only [Store.answers, Store.answer, Store.append, hl, ht, Except.map]
        exact .cons (.conflict d d') (ih hrest h)
    | latest id =>
      refine .cons ?_ (ih hcalls h)
      simp only [Store.answer, Store.latest?, h.latest hrs id]
      exact .latest _
    | list id =>
      refine .cons ?_ (ih hcalls h)
      simp only [Store.answer, Store.list, h.list hrs id]
      exact .list _

/-- A shelf and a table that start empty answer alike, whatever records are appended as
    an engine appends them and whatever is read in between. -/
theorem stores_agree (calls : List Store.Call) (h : Appended (Store.Call.records calls)) :
    List.Forall₂ Store.Answer.Agrees ((Store.shelf .empty).answers calls) ((Store.table .empty).answers calls) :=
  answers_agree h (fun _ hr => hr) (Match.empty _)

/-! ## A history in both -/

namespace Ledger

def instanceId : InstanceId := InstanceId.derive "nightly" Dict.empty

def startTime : Instant := ⟨2024, 3, 2, 1, 30, 0, 125000000⟩

def context : Context := Dict.empty.insert "source" (.str "east")

def opened (id attempt : Nat) : Record :=
  Record.start ⟨BitVec.ofNat 128 id⟩ startTime instanceId "nightly" attempt Dict.empty context

def loaded (id attempt : Nat) : Record :=
  (opened id attempt).note { node := "load", status := .completed, exit := .completed }

/-- The second attempt comes before the first, which then goes on, and a third one claims
    to be the second. -/
def calls : List Store.Call :=
  [.append (opened 2 2), .append (opened 1 1), .latest instanceId, .append (loaded 1 1), .append (opened 3 2),
   .list instanceId]

theorem regular_startTime : startTime.Regular := ⟨by decide, by decide, by decide, by decide⟩

theorem storable_context : context.Storable where
  sorted := Dict.sorted_empty.insert _ _
  ordered e he := by
    cases List.mem_singleton.mp he
    exact .str _
  plain e he := by
    cases List.mem_singleton.mp he
    exact .str _

theorem storable_opened (id attempt : Nat) (hattempt : attempt ≤ Text.maxU32) : (opened id attempt).Storable where
  attempt := hattempt
  started := regular_startTime
  ended := nofun
  parameters := Dict.sorted_empty
  failure := nofun
  splits := Dict.sorted_empty
  branches := nofun
  context := storable_context

theorem legible_opened (id attempt : Nat) (hattempt : attempt ≤ Text.maxU32) : (opened id attempt).Legible :=
  (storable_opened id attempt hattempt).legible_compact (Nat.le_of_ble_eq_true rfl)

theorem legible_loaded (id attempt : Nat) (hattempt : attempt ≤ Text.maxU32) : (loaded id attempt).Legible :=
  have h := storable_opened id attempt hattempt
  have hloaded : (loaded id attempt).Storable := { h with }
  hloaded.legible_compact (Nat.le_of_ble_eq_true rfl)

theorem appended : Appended (Store.Call.records calls) := by
  have hrecords : Store.Call.records calls = [opened 2 2, opened 1 1, loaded 1 1, opened 3 2] := rfl
  rw [hrecords]
  refine ⟨?_, fun r hr => ⟨"nightly", Dict.empty, ?_⟩, ?_, ?_⟩
  · simp only [List.mem_cons, List.not_mem_nil, or_false]
    rintro r (rfl | rfl | rfl | rfl)
    · exact legible_opened _ _ (by decide)
    · exact legible_opened _ _ (by decide)
    · exact legible_loaded _ _ (by decide)
    · exact legible_opened _ _ (by decide)
  · simp only [List.mem_cons, List.not_mem_nil, or_false] at hr
    rcases hr with rfl | rfl | rfl | rfl <;> rfl
  · decide
  · simp only [List.mem_cons, List.not_mem_nil, or_false]
    rintro r (rfl | rfl | rfl | rfl) r' (rfl | rfl | rfl | rfl) hid
    all_goals first | exact ⟨rfl, rfl, rfl, rfl, rfl⟩ | exact absurd hid (by decide +kernel)

theorem ledgers_agree :
    Appended (Store.Call.records calls) ∧
      List.Forall₂ Store.Answer.Agrees ((Store.shelf .empty).answers calls) ((Store.table .empty).answers calls) :=
  ⟨appended, stores_agree calls appended⟩

end Ledger

end Switchyard
