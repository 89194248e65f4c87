import Mathlib.Data.List.Nodup
import Switchyard.Proofs.Store.Page

/-
  Switchyard.Proofs.Store.Attempts — in what order a shelf has the attempts of an instance.

  A record whose identifier is new is sorted in by its attempt number, which no other
  record of its instance has. A record whose identifier is there is put where the old one
  lies, whatever its number is, and nothing is sorted. So identifiers stay distinct
  whatever is appended, but the numbers stay in order only if every record that replaces
  another fits between its neighbours (`Fits`); one that keeps its number does.

  - `inOrder_append`: an append leaves the attempts of its instance in order exactly if
    the record fits.
  - `attempts_ranked`: over any appends to an empty shelf, refused ones included.
  - `renumbered_lies_first`: a record that comes again with a higher number than the
    latest one stays in front of it, and is not the latest.
-/

namespace Switchyard.Shelf

def InOrder (l : List Record) : Prop := l.Pairwise fun a b => a.attempt < b.attempt

/-- If the record takes the place of one with its identifier, its attempt number lies
    between those of the neighbours. -/
def Fits (r : Record) (l : List Record) : Prop :=
  ∀ before x behind, l = before ++ x :: behind → x.id = r.id →
    (∀ y ∈ before, y.attempt < r.attempt) ∧ ∀ y ∈ behind, r.attempt < y.attempt

def put (s : Shelf) (r : Record) : Shelf :=
  match s.append r with
  | .ok s' => s'
  | .error _ => s

def after (s : Shelf) (rs : List Record) : Shelf := rs.foldl put s

variable {s s' : Shelf} {r : Record} {l : List Record} {id : InstanceId}

/-! ## The two ways to append -/

theorem append_cases (h : s.append r = .ok s') :
    ((∃ x ∈ s.list r.instanceId, x.id = r.id) ∧
      s' = ⟨s.attempts.insert r.instanceId.text (replace r (s.list r.instanceId))⟩) ∨
    ((∀ x ∈ s.list r.instanceId, x.id ≠ r.id ∧ x.attempt ≠ r.attempt) ∧
      s' = ⟨s.attempts.insert r.instanceId.text
        (sortBy (fun a b => a.attempt < b.attempt) (s.list r.instanceId ++ [r]))⟩) := by
  simp only [append] at h
  split at h
  next hthere =>
    obtain ⟨x, hx, hid⟩ := List.any_eq_true.mp hthere
    cases h
    exact Or.inl ⟨⟨x, hx, of_decide_eq_true hid⟩, rfl⟩
  next hnew =>
    split at h
    · cases h
    next hfree =>
      cases h
      refine Or.inr ⟨fun x hx => ⟨fun hid => hnew ?_, fun hattempt => hfree ?_⟩, rfl⟩
      · exact List.any_eq_true.mpr ⟨x, hx, decide_eq_true hid⟩
      · exact List.any_eq_true.mpr ⟨x, hx, decide_eq_true hattempt⟩

/-- An append to one instance leaves the others alone. -/
theorem list_append_of_ne (h : s.append r = .ok s') (hne : id ≠ r.instanceId) : s'.list id = s.list id := by
  rcases append_cases h with ⟨-, rfl⟩ | ⟨-, rfl⟩
  all_goals rw [list_insert, if_neg hne]

theorem map_id_replace (r : Record) (l : List Record) : (replace r l).map (·.id) = l.map (·.id) := by
  unfold replace
  rw [List.map_map]
  refine List.map_congr_left fun x _ => ?_
  show (if x.id = r.id then r else x).id = x.id
  split
  next h => exact h.symm
  · rfl

theorem replace_of_split {before behind : List Record} {x : Record} (hid : x.id = r.id)
    (h : ((before ++ x :: behind).map (·.id)).Nodup) : replace r (before ++ x :: behind) = before ++ r :: behind := by
  rw [List.map_append, List.map_cons, List.nodup_append, List.nodup_cons] at h
  obtain ⟨-, ⟨hbehind, -⟩, hbefore⟩ := h
  have hkeep : ∀ y, y.id ≠ x.id → (if y.id = r.id then r else y) = y := fun y hy => if_neg fun heq => hy (heq.trans hid.symm)
  unfold replace
  rw [List.map_append, List.map_cons, if_pos hid]
  rw [map_eq_self fun y hy => hkeep y (hbefore _ (List.mem_map_of_mem hy) _ List.mem_cons_self)]
  rw [map_eq_self fun y hy => hkeep y fun heq => hbehind (heq ▸ List.mem_map_of_mem hy)]

/-! ## One append -/

theorem distinct_append (h : s.append r = .ok s') (hdistinct : ((s.list r.instanceId).map (·.id)).Nodup) :
    ((s'.list r.instanceId).map (·.id)).Nodup := by
  rcases append_cases h with ⟨-, rfl⟩ | ⟨hnew, rfl⟩
  · rwa [list_insert, if_pos rfl, map_id_replace]
  · rw [list_insert, if_pos rfl, ((sortBy_perm _).map _).nodup_iff, List.map_append, List.map_singleton]
    refine List.nodup_append.mpr ⟨hdistinct, List.nodup_singleton _, fun i hi j hj => ?_⟩
    obtain ⟨x, hx, rfl⟩ := List.mem_map.mp hi
    rw [List.mem_singleton.mp hj]
    exact (hnew x hx).1

/-- After a new record came the attempts are sorted, however they lay before. -/
theorem sorted_attempts (l : List Record) :
    (sortBy (fun a b => decide (a.attempt < b.attempt)) l).Pairwise fun a b => a.attempt ≤ b.attempt := by
  refine (sortBy_pairwise (fun x y h => ?_) (fun x y z hyx hzy => ?_) l).imp fun h => ?_
  · exact decide_eq_false (Nat.lt_asymm (of_decide_eq_true h))
  · exact decide_eq_false (Nat.not_lt.mpr (Nat.le_trans (Nat.not_lt.mp (of_decide_eq_false hyx))
      (Nat.not_lt.mp (of_decide_eq_false hzy))))
  · exact Nat.not_lt.mp (of_decide_eq_false h)

/-- Sorting what has distinct numbers leaves them going up. -/
theorem inOrder_sortBy (h : (l.map (·.attempt)).Nodup) : InOrder (sortBy (fun a b => a.attempt < b.attempt) l) := by
  have hdistinct : ((sortBy (fun a b => decide (a.attempt < b.attempt)) l).map (·.attempt)).Nodup :=
    ((sortBy_perm l).map _).nodup_iff.mpr h
  exact (sorted_attempts l).imp₂ (fun a b hle hne => Nat.lt_of_le_of_ne hle hne) (List.pairwise_map.mp hdistinct)

theorem InOrder.nodup (h : InOrder l) : (l.map (·.attempt)).Nodup :=
  List.pairwise_map.mpr (h.imp fun hab => Nat.ne_of_lt hab)

theorem inOrder_append (h : s.append r = .ok s') (hdistinct : ((s.list r.instanceId).map (·.id)).Nodup)
    (horder : InOrder (s.list r.instanceId)) : InOrder (s'.list r.instanceId) ↔ Fits r (s.list r.instanceId) := by
  rcases append_cases h with ⟨⟨x, hx, hid⟩, rfl⟩ | ⟨hnew, rfl⟩
  · rw [list_insert, if_pos rfl]
    obtain ⟨before, behind, hsplit⟩ := List.append_of_mem hx
    rw [hsplit] at hdistinct horder ⊢
    rw [replace_of_split hid hdistinct]
    obtain ⟨hbefore, hpair, hacross⟩ := List.pairwise_append.mp horder
    obtain ⟨-, hbehind⟩ := List.pairwise_cons.mp hpair
    constructor
    · intro hafter before' x' behind' hsplit' hid'
      -- the identifier stands in one place only
      have hplace := replace_of_split hid' (hsplit' ▸ hdistinct)
      rw [← hsplit', replace_of_split hid hdistinct] at hplace
      rw [hplace] at hafter
      obtain ⟨-, hpair', hacross'⟩ := List.pairwise_append.mp hafter
      exact ⟨fun y hy => hacross' y hy r List.mem_cons_self, (List.pairwise_cons.mp hpair').1⟩
    · intro hfits
      obtain ⟨hlow, hhigh⟩ := hfits before x behind rfl hid
      refine List.pairwise_append.mpr ⟨hbefore, List.pairwise_cons.mpr ⟨hhigh, hbehind⟩, fun y hy z hz => ?_⟩
      rcases List.mem_cons.mp hz with rfl | hz
      · exact hlow y hy
      · exact hacross y hy z (List.mem_cons_of_mem _ hz)
  · rw [list_insert, if_pos rfl]
    refine iff_of_true (inOrder_sortBy ?_) fun before x behind hsplit hid => ?_
    · rw [List.map_append, List.map_singleton]
      refine List.nodup_append.mpr ⟨horder.nodup, List.nodup_singleton _, fun n hn m hm => ?_⟩
      obtain ⟨x, hx, rfl⟩ := List.mem_map.mp hn
      rw [List.mem_singleton.mp hm]
      exact (hnew x hx).2
    · have hx : x ∈ s.list r.instanceId := by simp [hsplit]
      exact absurd hid (hnew x hx).1

/-- A record that keeps the attempt number of the one it replaces fits. -/
theorem fits_of_attempt (horder : InOrder l) (h : ∀ x ∈ l, x.id = r.id → x.attempt = r.attempt) : Fits r l := by
  rintro before x behind rfl hid
  have hattempt := h x (by simp) hid
  obtain ⟨-, hpair, hacross⟩ := List.pairwise_append.mp horder
  rw [← hattempt]
  exact ⟨fun y hy => hacross y hy x List.mem_cons_self, (List.pairwise_cons.mp hpair).1⟩

/-! ## Any appends -/

def Fitting (id : InstanceId) : Shelf → List Record → Prop
  | _, [] => True
  | s, r :: rs => (r.instanceId = id → Fits r (s.list id)) ∧ Fitting id (s.put r) rs

/-- This is the record with the highest attempt number; none if there are no records. -/
def IsHighest (l : List Record) : Option Record → Prop
  | none => l = []
  | some y => y ∈ l ∧ ∀ x ∈ l, x.attempt ≤ y.attempt

/-- The records go up in their attempt numbers, no two are of one attempt, and the latest is
    the one with the highest number. -/
structure Ranked (l : List Record) (latest : Option Record) : Prop where
  increasing : InOrder l
  distinct : (l.map (·.id)).Nodup
  highest : IsHighest l latest

theorem InOrder.isHighest_last (h : InOrder l) : IsHighest l l.getLast? := by
  rcases List.eq_nil_or_concat l with rfl | ⟨before, last, rfl⟩
  · rfl
  · rw [List.concat_eq_append] at h ⊢
    rw [List.getLast?_concat]
    refine ⟨by simp, fun x hx => ?_⟩
    rcases List.mem_append.mp hx with hx | hx
    · exact Nat.le_of_lt ((List.pairwise_append.mp h).2.2 x hx last List.mem_cons_self)
    · cases List.mem_singleton.mp hx
      exact Nat.le_refl _

theorem distinct_put (h : ((s.list id).map (·.id)).Nodup) : (((s.put r).list id).map (·.id)).Nodup := by
  unfold put
  split
  next s' happend =>
    by_cases hid : id = r.instanceId
    · subst hid
      exact distinct_append happend h
    · rwa [list_append_of_ne happend hid]
  · exact h

theorem inOrder_put (hdistinct : ((s.list id).map (·.id)).Nodup) (horder : InOrder (s.list id))
    (hfits : r.instanceId = id → Fits r (s.list id)) : InOrder ((s.put r).list id) := by
  unfold put
  split
  next s' happend =>
    by_cases hid : id = r.instanceId
    · subst hid
      exact (inOrder_append happend hdistinct horder).mpr (hfits rfl)
    · rwa [list_append_of_ne happend hid]
  · exact horder

theorem mem_put {x : Record} (h : x ∈ (s.put r).list id) : x = r ∨ x ∈ s.list id := by
  unfold put at h
  split at h
  next s' happend =>
    by_cases hid : id = r.instanceId
    · subst hid
      rcases append_cases happend with ⟨-, rfl⟩ | ⟨-, rfl⟩
      · rw [list_insert, if_pos rfl] at h
        obtain ⟨old, hold, rfl⟩ := List.mem_map.mp h
        split
        · exact Or.inl rfl
        · exact Or.inr hold
      · rw [list_insert, if_pos rfl, (sortBy_perm _).mem_iff] at h
        rcases List.mem_append.mp h with h | h
        · exact Or.inr h
        · exact Or.inl (List.mem_singleton.mp h)
    · exact Or.inr (list_append_of_ne happend hid ▸ h)
  · exact Or.inr h

theorem distinct_after {rs : List Record} (h : ((s.list id).map (·.id)).Nodup) :
    (((s.after rs).list id).map (·.id)).Nodup := by
  induction rs generalizing s with
  | nil => exact h
  | cons r rest ih => exact ih (distinct_put h)

theorem inOrder_after {rs : List Record} (hdistinct : ((s.list id).map (·.id)).Nodup) (horder : InOrder (s.list id))
    (hfitting : Fitting id s rs) : InOrder ((s.after rs).list id) := by
  induction rs generalizing s with
  | nil => exact horder
  | cons r rest ih => exact ih (distinct_put hdistinct) (inOrder_put hdistinct horder hfitting.1) hfitting.2

theorem fitting_of_held {number : ExecutionId → Nat} {rs : List Record}
    (hdistinct : ((s.list id).map (·.id)).Nodup) (horder : InOrder (s.list id))
    (hs : ∀ x ∈ s.list id, x.attempt = number x.id) (hrs : ∀ r ∈ rs, r.attempt = number r.id) : Fitting id s rs := by
  induction rs generalizing s with
  | nil => trivial
  | cons r rest ih =>
    have hr : r.attempt = number r.id := hrs r List.mem_cons_self
    have hfits : r.instanceId = id → Fits r (s.list id) := fun _ =>
      fits_of_attempt horder fun x hx hid => by rw [hs x hx, hr, hid]
    refine ⟨hfits, ih (distinct_put hdistinct) (inOrder_put hdistinct horder hfits) (fun x hx => ?_) fun r' hr' => ?_⟩
    · rcases mem_put hx with rfl | hx
      · exact hr
      · exact hs x hx
    · exact hrs r' (List.mem_cons_of_mem _ hr')

/-- Records fit that come under the attempt number of their identifier every time. -/
theorem fitting_of_number (number : ExecutionId → Nat) {rs : List Record}
    (hrs : ∀ r ∈ rs, r.attempt = number r.id) : Fitting id empty rs :=
  fitting_of_held .nil .nil (fun _ hx => nomatch hx) hrs

/-- No two records of an instance are ever of one attempt. As long as the records that
    replaced others fitted, their numbers go up and the latest has the highest; and the
    next record that is not refused leaves it so exactly if it fits. -/
theorem attempts_ranked (rs : List Record) (id : InstanceId) :
    (((empty.after rs).list id).map (·.id)).Nodup ∧
    (Fitting id empty rs → Ranked ((empty.after rs).list id) ((empty.after rs).latest? id) ∧
      ∀ r s', r.instanceId = id → (empty.after rs).append r = .ok s' →
        (Ranked (s'.list id) (s'.latest? id) ↔ Fits r ((empty.after rs).list id))) := by
  have hdistinct : (((empty.after rs).list id).map (·.id)).Nodup := distinct_after List.nodup_nil
  refine ⟨hdistinct, fun hfitting => ?_⟩
  have horder : InOrder ((empty.after rs).list id) := inOrder_after List.nodup_nil .nil hfitting
  refine ⟨⟨horder, hdistinct, horder.isHighest_last⟩, ?_⟩
  rintro r s' rfl happend
  rw [← inOrder_append happend hdistinct horder]
  exact ⟨fun h => h.increasing, fun h => ⟨h, distinct_append happend hdistinct, h.isHighest_last⟩⟩

/-! ## A record that comes again with another number -/

def numbered (id attempt : Nat) : Record :=
  Record.start ⟨BitVec.ofNat 128 id⟩ ⟨2024, 3, 2, 0, 0, 0, 0⟩ ⟨"i"⟩ "job" attempt Dict.empty Dict.empty

def kept : List Record := [numbered 2 2, numbered 1 1, { numbered 2 2 with completed := ["load"] }]

theorem kept_ranked : Fitting ⟨"i"⟩ empty kept ∧
    Ranked ((empty.after kept).list ⟨"i"⟩) ((empty.after kept).latest? ⟨"i"⟩) := by
  have hfitting : Fitting ⟨"i"⟩ empty kept :=
    fitting_of_number (fun id => if id.bits = 1 then 1 else 2) (by decide +kernel)
  exact ⟨hfitting, ((attempts_ranked kept ⟨"i"⟩).2 hfitting).1⟩

def renumbered : List Record := [numbered 1 1, numbered 2 2, numbered 1 3]

theorem renumbered_lies_first :
    ((empty.after renumbered).list ⟨"i"⟩).map (·.attempt) = [3, 2] ∧
    ((empty.after renumbered).latest? ⟨"i"⟩).map (·.attempt) = some 2 ∧
    ¬ Ranked ((empty.after renumbered).list ⟨"i"⟩) ((empty.after renumbered).latest? ⟨"i"⟩) := by
  have hlist : ((empty.after renumbered).list ⟨"i"⟩).map (·.attempt) = [3, 2] := by decide +kernel
  refine ⟨hlist, by decide +kernel, fun h => ?_⟩
  have hpairs : [3, 2].Pairwise (· < ·) := hlist ▸ List.pairwise_map.mpr h.increasing
  exact absurd hpairs (by decide)

end Switchyard.Shelf
