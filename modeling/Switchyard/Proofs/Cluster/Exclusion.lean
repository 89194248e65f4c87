import Mathlib.Data.List.Induction
import Switchyard.Proofs.Cluster.Apart
import Switchyard.Proofs.Cluster.Turns
import Switchyard.Proofs.History.Reached

/-
  Switchyard.Proofs.Cluster.Exclusion — of one instance no two attempts visit nodes at
  once, however the calls to however many runners are interleaved.

  Nothing but the store is between the runners: claims are each process's own, and what a
  call read of the history may be out of date when it stores a record.

  - `kept`: after any turns the calls are kept apart (`Apart`), by induction on the turns.
  - `foremost_of_visits`: an attempt that visits a node is the latest of its instance.
  - `closed_of_settled`: only the call that opened an attempt seals it `failed` or
    `stopped`.
  - `exclusive`: each attempt number is opened by one call at most; only that call visits
    nodes of the attempt, and only after the call that opened the attempt before stored
    that one sealed `failed` or `stopped`; and of the attempts of an instance that were
    opened, one at most is not sealed so or has nodes left to visit.
-/

namespace Switchyard

namespace Cluster

variable {σ : Type}

/-! ## What there is to be seen -/

/-- In its next step a call puts another attempt on an instance's page. -/
def Opens (c : Cluster σ) (i : Nat) (id : InstanceId) (l : Line) : Prop :=
  l ∈ (c.advance i).store.page id ∧ ∀ x ∈ c.store.page id, x.key ≠ l.key

def Opened (c : Cluster σ) (turns : List Nat) (i : Nat) (id : InstanceId) (e : ExecutionId) (n : Nat) : Prop :=
  ∃ before, before ++ [i] <+: turns ∧
    ∃ l, (c.after before).Opens i id l ∧ l.key = e.text ∧ l.attempt = n ∧ l.final = none

def Settled (c : Cluster σ) (turns : List Nat) (id : InstanceId) (n : Nat) : Prop :=
  ∃ before, before <+: turns ∧ ∃ l ∈ (c.after before).store.page id, l.attempt = n ∧ l.Settled

def Closed (c : Cluster σ) (turns : List Nat) (i : Nat) (id : InstanceId) (n : Nat) : Prop :=
  ∃ before, before ++ [i] <+: turns ∧ (∀ l ∈ (c.after before).store.page id, l.attempt = n → ¬l.Settled) ∧
    ∃ l ∈ ((c.after before).advance i).store.page id, l.attempt = n ∧ l.Settled

/-- In its next step a call tells that a node of an attempt starts or finishes. -/
def Visits (c : Cluster σ) (i : Nat) (e : ExecutionId) : Prop :=
  ∃ event ∈ c.tells i, event.isNode = true ∧ event.id = e

/-- If it gets its turns, a call starts or finishes a node of an attempt. -/
def MayVisit (c : Cluster σ) (i : Nat) (e : ExecutionId) : Prop :=
  ∃ more, (c.after more).clock.issued ≤ ExecutionId.room ∧ (c.after more).Visits i e

/-- A call opened an attempt and may still be at it, inside a node or between two: it has
    not sealed it `failed` or `stopped`, or has a node of it left to visit. -/
structure Underway (c : Cluster σ) (turns : List Nat) (i : Nat) (id : InstanceId) (e : ExecutionId) (n : Nat) :
    Prop where
  opened : c.Opened turns i id e n
  going : ¬c.Closed turns i id n ∨ (c.after turns).MayVisit i e

/-! ## After any turns -/

def Has (c : Cluster σ) (turns : List Nat) (i : Nat) (l : Line) : Prop :=
  ∃ before, before ++ [i] <+: turns ∧ (c.after before).Opens i ⟨l.owner⟩ l ∧ l.final = none

/-- Within these turns a call had one when this was the latest record of an instance. -/
def Found (c : Cluster σ) (turns : List Nat) (i : Nat) (id : InstanceId) (r : Record) : Prop :=
  ∃ before, before ++ [i] <+: turns ∧ (c.after before).store.latest? id = .ok (some r)

/-- After these turns all calls go by these stances, which keep them apart. -/
structure Kept (c : Cluster σ) (turns : List Nat) (q : Nat → Stance) : Prop where
  plays : ∀ i, ((c.after turns).calls i).rest.Plays (fun _ _ => True) (q i)
  apart : Apart (c.Settled turns) (c.Has turns) (c.after turns).shared q
  found : ∀ i id r, (q i).read = some (id, some r) → c.Found turns i id r

variable {c : Cluster σ} {turns more before : List Nat} {i j : Nat} {id : InstanceId} {e e' : ExecutionId} {l l' : Line}
  {n m : Nat}

theorem Settled.mono (h : c.Settled turns id n) (hturns : turns <+: more) : c.Settled more id n := by
  obtain ⟨before, hbefore, hl⟩ := h
  exact ⟨before, hbefore.trans hturns, hl⟩

theorem Has.mono (h : c.Has turns i l) (hturns : turns <+: more) : c.Has more i l := by
  obtain ⟨before, hbefore, hl⟩ := h
  exact ⟨before, hbefore.trans hturns, hl⟩

theorem Opened.mono (h : c.Opened turns i id e n) (hturns : turns <+: more) : c.Opened more i id e n := by
  obtain ⟨before, hbefore, hl⟩ := h
  exact ⟨before, hbefore.trans hturns, hl⟩

theorem Closed.mono (h : c.Closed turns i id n) (hturns : turns <+: more) : c.Closed more i id n := by
  obtain ⟨before, hbefore, hl⟩ := h
  exact ⟨before, hbefore.trans hturns, hl⟩

theorem Found.mono {r : Record} (h : c.Found turns i id r) (hturns : turns <+: more) : c.Found more i id r := by
  obtain ⟨before, hbefore, hlatest⟩ := h
  exact ⟨before, hbefore.trans hturns, hlatest⟩

theorem plays_after (hfresh : c.Fresh) (turns : List Nat) (i : Nat) :
    ∃ q, ((c.after turns).calls i).rest.Plays (fun _ _ => True) q := by
  induction turns using List.reverseRecOn with
  | nil =>
    obtain ⟨r, q, hrest⟩ := hfresh.asked i
    refine ⟨{}, ?_⟩
    rw [show ((c.after []).calls i).rest = r.request q from hrest]
    exact plays_request r q
  | append_singleton turns j ih =>
    rw [after_snoc]
    by_cases hij : i = j
    · subst hij
      obtain ⟨q, hplays⟩ := ih
      obtain ⟨-, q', -, -, hplays'⟩ := advance_move hplays
      exact ⟨q', hplays'⟩
    · rwa [calls_advance_of_ne hij]

theorem issued_advance (hfresh : c.Fresh) (turns : List Nat) (i : Nat) :
    (c.after turns).clock.issued ≤ ((c.after turns).advance i).clock.issued := by
  obtain ⟨q, hplays⟩ := plays_after hfresh turns i
  obtain ⟨e, q', hmove, -, -⟩ := advance_move hplays
  exact hmove.issued_le

theorem issued_after (hfresh : c.Fresh) (hturns : turns <+: more) :
    (c.after turns).clock.issued ≤ (c.after more).clock.issued := by
  obtain ⟨rest, rfl⟩ := hturns
  induction rest using List.reverseRecOn with
  | nil => exact Nat.le_of_eq (by rw [List.append_nil])
  | append_singleton rest j ih =>
    rw [← List.append_assoc, after_snoc]
    exact Nat.le_trans ih (issued_advance hfresh _ j)

theorem kept_start (hfresh : c.Fresh) : c.Kept [] fun _ => {} := by
  refine ⟨fun i => ?_, .start (filed_of_empty hfresh.empty) fun id => page_of_empty hfresh.empty id, fun i id r h => ?_⟩
  · obtain ⟨r, q, hrest⟩ := hfresh.asked i
    rw [show ((c.after []).calls i).rest = r.request q from hrest]
    exact plays_request r q
  · cases h

/-- Another turn is a move, and keeps the calls apart. -/
theorem Kept.next {q : Nat → Stance} (h : c.Kept turns q) {i : Nat}
    (hroom : (c.after (turns ++ [i])).clock.issued ≤ ExecutionId.room) :
    ∃ e x, Move (c.after turns).shared (q i) e (c.after (turns ++ [i])).shared x ∧
      (c.after turns).tells i = e.toList ∧ c.Kept (turns ++ [i]) (Function.update q i x) := by
  obtain ⟨e, x, hmove, htells, hnext⟩ := advance_move (h.plays i)
  rw [after_snoc] at hroom ⊢
  refine ⟨e, x, hmove, htells, ?_, ?_, ?_⟩
  · intro j
    rw [after_snoc]
    by_cases hij : j = i
    · subst hij
      rwa [Function.update_self]
    · rw [Function.update_of_ne hij, calls_advance_of_ne hij]
      exact h.plays j
  · have hlater : turns <+: turns ++ [i] := List.prefix_append _ _
    have hmono := h.apart.mono (fun id n hn => hn.mono hlater) fun j l hl => hl.mono hlater
    rw [after_snoc]
    refine hmono.move hroom hmove (fun id l hl hsettled n hn => ?_) fun l hl hnew hfinal => ?_
    · exact ⟨turns, hlater, l, hl, hn, hsettled⟩
    · exact ⟨turns, List.prefix_refl _, ⟨hl, hnew⟩, hfinal⟩
  · intro j id r hread
    by_cases hij : j = i
    · subst hij
      rw [Function.update_self] at hread
      rcases hmove.latest_of_read hread with hread | hlatest
      · exact (h.found j id r hread).mono (List.prefix_append _ _)
      · exact ⟨turns, List.prefix_refl _, hlatest⟩
    · rw [Function.update_of_ne hij] at hread
      exact (h.found j id r hread).mono (List.prefix_append _ _)

/-- However the turns went, every call's next steps are moves, and the calls are kept
    apart. -/
theorem kept (hfresh : c.Fresh) (hroom : (c.after turns).clock.issued ≤ ExecutionId.room) :
    ∃ q, c.Kept turns q := by
  induction turns using List.reverseRecOn with
  | nil => exact ⟨_, kept_start hfresh⟩
  | append_singleton turns i ih =>
    have hle := issued_after hfresh (List.prefix_append turns [i])
    obtain ⟨q, hkept⟩ := ih (Nat.le_trans hle hroom)
    obtain ⟨-, x, -, -, hnext⟩ := hkept.next hroom
    exact ⟨_, hnext⟩

/-- What is on a page stays there. -/
theorem exists_later (hfresh : c.Fresh) (hroom : (c.after more).clock.issued ≤ ExecutionId.room)
    (hturns : turns <+: more) (hl : l ∈ (c.after turns).store.page id) :
    ∃ x ∈ (c.after more).store.page id, x.Same l := by
  obtain ⟨rest, rfl⟩ := hturns
  induction rest using List.reverseRecOn with
  | nil =>
    rw [List.append_nil]
    exact ⟨l, hl, .refl l⟩
  | append_singleton rest j ih =>
    rw [← List.append_assoc] at hroom ⊢
    have hbefore := Nat.le_trans (issued_after hfresh (List.prefix_append _ [j])) hroom
    obtain ⟨x, hx, hsame⟩ := ih hbefore
    obtain ⟨q, hkept⟩ := kept hfresh hbefore
    obtain ⟨e, y, hmove, -, -⟩ := hkept.next hroom
    obtain ⟨z, hz, hzx⟩ := hkept.apart.exists_later hmove hx
    exact ⟨z, hz, hzx.trans hsame⟩

theorem filed_after (hfresh : c.Fresh) (hroom : (c.after turns).clock.issued ≤ ExecutionId.room) :
    Filed (c.after turns).shared := by
  obtain ⟨q, hkept⟩ := kept hfresh hroom
  exact hkept.apart.filed

/-! ## Openings and visits -/

/-- A number that is on a page is not opened again. -/
theorem not_opens (hfresh : c.Fresh) (hroom : (c.after (before ++ [i])).clock.issued ≤ ExecutionId.room)
    (hturns : turns <+: before) (hl : l ∈ (c.after turns).store.page id) (hattempt : l.attempt = l'.attempt) :
    ¬(c.after before).Opens i id l' := by
  rintro ⟨hl', hnew⟩
  rw [← after_snoc] at hl'
  have hlater : before <+: before ++ [i] := List.prefix_append _ _
  obtain ⟨x, hx, hxl⟩ := exists_later hfresh (Nat.le_trans (issued_after hfresh hlater) hroom) hturns hl
  obtain ⟨y, hy, hyx⟩ := exists_later hfresh hroom hlater hx
  have heq := (filed_after hfresh hroom).eq_of_attempt hy hl' ((hyx.attempt.trans hxl.attempt).trans hattempt)
  subst heq
  exact hnew x hx hyx.key.symm

theorem opened_once (hfresh : c.Fresh) (hroom : (c.after turns).clock.issued ≤ ExecutionId.room)
    (h : c.Opened turns i id e n) (h' : c.Opened turns j id e' n) : i = j ∧ e = e' := by
  obtain ⟨before, hbefore, l, hl, hkey, hattempt, -⟩ := h
  obtain ⟨before', hbefore', l', hl', hkey', hattempt', -⟩ := h'
  have hl₁ : l ∈ (c.after (before ++ [i])).store.page id := after_snoc ▸ hl.1
  have hl₁' : l' ∈ (c.after (before' ++ [j])).store.page id := after_snoc ▸ hl'.1
  have hroom₁ := Nat.le_trans (issued_after hfresh hbefore) hroom
  have hroom₁' := Nat.le_trans (issued_after hfresh hbefore') hroom
  have hsame : before ++ [i] = before' ++ [j] := by
    rcases List.prefix_or_prefix_of_prefix hbefore hbefore' with hfirst | hfirst
    · rcases List.prefix_concat_iff.mp hfirst with heq | hfirst
      · exact heq
      · exact absurd hl' (not_opens hfresh hroom₁' hfirst hl₁ (hattempt.trans hattempt'.symm))
    · rcases List.prefix_concat_iff.mp hfirst with heq | hfirst
      · exact heq.symm
      · exact absurd hl (not_opens hfresh hroom₁ hfirst hl₁' (hattempt'.trans hattempt.symm))
  obtain ⟨-, hcall⟩ := List.append_inj' hsame rfl
  rw [← hsame] at hl₁'
  have heq := (filed_after hfresh hroom₁).eq_of_attempt hl₁ hl₁' (hattempt.trans hattempt'.symm)
  subst heq
  exact ⟨List.singleton_inj.mp hcall, ExecutionId.text_injective (hkey.symm.trans hkey')⟩

/-- The line of an attempt that was opened. -/
theorem exists_of_opened (hfresh : c.Fresh) (hroom : (c.after turns).clock.issued ≤ ExecutionId.room)
    (h : c.Opened turns i id e n) :
    ∃ l ∈ (c.after turns).store.page id, l.key = e.text ∧ l.attempt = n ∧ 1 ≤ n ∧
      n ≤ ((c.after turns).store.page id).length := by
  obtain ⟨before, hbefore, l, hl, hkey, hattempt, -⟩ := h
  have hl : l ∈ (c.after (before ++ [i])).store.page id := after_snoc ▸ hl.1
  obtain ⟨x, hx, hxl⟩ := exists_later hfresh hroom hbefore hl
  have hbound := ((filed_after hfresh hroom).numbered id).attempt_mem hx
  have hnumber := hxl.attempt.trans hattempt
  rw [hnumber] at hbound
  exact ⟨x, hx, hxl.key.trans hkey, hnumber, by omega, Int.ofNat_le.mp hbound.2⟩

/-- An attempt that visits a node is the latest of its instance, and the call that visits
    it opened it. -/
theorem foremost_of_visits (hfresh : c.Fresh) (hroom : (c.after turns).clock.issued ≤ ExecutionId.room)
    (h : (c.after turns).Visits i e) :
    ∃ l, l.key = e.text ∧ Foremost (c.after turns).store l ∧ c.Has turns i l := by
  obtain ⟨event, hevent, hnode, rfl⟩ := h
  obtain ⟨q, hkept⟩ := kept hfresh hroom
  obtain ⟨told, x, hmove, htells, -⟩ := advance_move (hkept.plays i)
  rw [htells] at hevent
  cases Option.mem_toList.mp hevent
  obtain ⟨l, hl, hkey⟩ := hmove.exists_stint hnode
  exact ⟨l, hkey, hkept.apart.foremost i l hl, hkept.apart.opened i l hl⟩

/-- Only the latest attempt of an instance has nodes left to visit. -/
theorem latest_of_mayVisit (hfresh : c.Fresh) (hroom : (c.after turns).clock.issued ≤ ExecutionId.room)
    (h : c.Opened turns i id e n) (hvisit : (c.after turns).MayVisit j e) :
    n = ((c.after turns).store.page id).length := by
  obtain ⟨more, hids, hvisit⟩ := hvisit
  rw [← after_append] at hids hvisit
  have hlater : turns <+: turns ++ more := List.prefix_append _ _
  obtain ⟨-, -, -, -, -, hbound⟩ := exists_of_opened hfresh hroom h
  obtain ⟨x, hx, hkey, hnumber, -⟩ := exists_of_opened hfresh hids (h.mono hlater)
  have hfiled := filed_after hfresh hids
  -- the attempt's line is the last one when it visits the node
  obtain ⟨l, hl, ⟨pre, last, hpage, hlast, -⟩, -⟩ := foremost_of_visits hfresh hids hvisit
  have hmem : last ∈ (c.after (turns ++ more)).store.page ⟨l.owner⟩ := by simp [hpage]
  have hsame : last.key = x.key := hlast.key.trans (hl.trans hkey.symm)
  obtain rfl : ⟨l.owner⟩ = id := hfiled.id_eq hmem hx hsame
  obtain rfl := hfiled.single _ _ last hmem x hx hsame
  have hnumbered : Numbered (pre ++ [last]) := hpage ▸ hfiled.numbered ⟨l.owner⟩
  have hn : (n : Int) = pre.length + 1 := hnumber.symm.trans hnumbered.attempt_last
  -- and no line was behind it before, because lines stay
  by_contra hne
  obtain ⟨y, hy, hbehind⟩ := ((filed_after hfresh hroom).numbered ⟨l.owner⟩).exists_attempt (n := n + 1) (by omega)
    (Nat.lt_of_le_of_ne hbound hne)
  obtain ⟨z, hz, hzy⟩ := exists_later hfresh hids hlater hy
  rw [hpage] at hz
  have hlate := hnumbered.attempt_mem hz
  rw [hzy.attempt, hbehind, List.length_append] at hlate
  simp only [List.length_cons, List.length_nil] at hlate
  omega

/-- Every attempt before one that was opened was seen sealed. -/
theorem settled_of_lt (hfresh : c.Fresh) (hroom : (c.after turns).clock.issued ≤ ExecutionId.room)
    (h : c.Opened turns i id e n) (hone : 1 ≤ m) (hm : m < n) : c.Settled turns id m := by
  obtain ⟨-, -, -, -, -, hbound⟩ := exists_of_opened hfresh hroom h
  obtain ⟨q, hkept⟩ := kept hfresh hroom
  obtain ⟨y, hy, hnumber⟩ := (hkept.apart.filed.numbered id).exists_attempt (n := m + 1) (by omega)
    (Nat.le_trans hm hbound)
  exact hkept.apart.follows id y hy m hone hnumber

/-- What a call has in hand is an attempt it opened. -/
theorem Has.opened (h : c.Has turns i l) (hkey : l.key = e.text) (hattempt : l.attempt = n) :
    c.Opened turns i ⟨l.owner⟩ e n := by
  obtain ⟨before, hbefore, hopens, hfinal⟩ := h
  exact ⟨before, hbefore, l, hopens, hkey, hattempt, hfinal⟩

/-- Only the call that has an attempt in hand seals it `failed` or `stopped`. -/
theorem Kept.closes {q : Nat → Stance} (h : c.Kept turns q) {told : Option Event} {x : Stance}
    (hmove : Move (c.after turns).shared (q i) told (c.after (turns ++ [i])).shared x)
    (hopen : ∀ l ∈ (c.after turns).store.page id, l.attempt = n → ¬l.Settled)
    (hl : l ∈ (c.after (turns ++ [i])).store.page id) (hattempt : l.attempt = n) (hsettled : l.Settled) :
    ∃ e, c.Opened turns i id e n := by
  have hnotAbandoned : ∀ s : Option Status, s = none ∨ s = some .abandoned → l.final ≠ s.map Status.name := by
    rintro s (rfl | rfl) hfinal <;> rcases hsettled with hs | hs <;> simp [hfinal, Status.name] at hs
  cases h.apart.writes hmove with
  | none hstore =>
    have hmem : l ∈ (c.after turns).store.page id := by
      show l ∈ (c.after turns).shared.store.page id
      rwa [← hstore]
    exact absurd hsettled (hopen l hmem hattempt)
  | @new r hgains _ hfinal =>
    have hpage : l ∈ (c.after (turns ++ [i])).shared.store.page id := hl
    rw [hgains.page] at hpage
    split at hpage
    · rcases List.mem_append.mp hpage with hmem | hmem
      · exact absurd hsettled (hopen l hmem hattempt)
      · obtain rfl := List.mem_singleton.mp hmem
        exact absurd rfl (hnotAbandoned _ hfinal)
    · exact absurd hsettled (hopen l hpage hattempt)
  | @again r old hrevises hold hsame hwhy =>
    have hpage : l ∈ (c.after (turns ++ [i])).shared.store.page id := hl
    rw [hrevises.page] at hpage
    obtain ⟨y, hy, rfl⟩ := List.mem_map.mp hpage
    have hysame := h.apart.filed.revised_same hold hsame hy
    by_cases hkey : y.key = r.id.text
    · rcases hwhy with ⟨line, hline, hlsame⟩ | ⟨hfinal, -⟩
      · have hid := h.apart.filed.id_eq hy hold (hkey.trans hsame.key.symm)
        have howner : (⟨line.owner⟩ : InstanceId) = id := by
          rw [hid]
          exact InstanceId.eq_iff.mpr hlsame.owner
        have hyold := h.apart.filed.single id _ y hy old hold (hkey.trans hsame.key.symm)
        have hnumber : line.attempt = n := by
          rw [hlsame.attempt, ← hsame.attempt, ← hyold, ← hysame.attempt, hattempt]
        exact ⟨r.id, howner ▸ (h.apart.opened i line hline).opened hlsame.key hnumber⟩
      · have hrevised : ((c.after turns).shared.store.revised r y).final = r.finalStatus.map Status.name := by
          rw [Store.revised, if_pos hkey, Store.final_again]
        exact absurd hrevised (hnotAbandoned _ (Or.inr hfinal))
    · rw [Store.revised, if_neg hkey] at hattempt hsettled
      exact absurd hsettled (hopen y hy hattempt)

/-- An attempt that was seen sealed `failed` or `stopped` was sealed so by the call that
    opened it. -/
theorem closed_of_settled (hfresh : c.Fresh) (hroom : (c.after turns).clock.issued ≤ ExecutionId.room)
    (h : c.Settled turns id n) : ∃ i e, c.Opened turns i id e n ∧ c.Closed turns i id n := by
  induction turns using List.reverseRecOn with
  | nil =>
    obtain ⟨before, hbefore, l, hl, -⟩ := h
    rw [List.prefix_nil.mp hbefore, show (c.after []).store.page id = [] from page_of_empty hfresh.empty id] at hl
    cases hl
  | append_singleton turns i ih =>
    have hlater : turns <+: turns ++ [i] := List.prefix_append _ _
    have hbefore := Nat.le_trans (issued_after hfresh hlater) hroom
    by_cases hearlier : c.Settled turns id n
    · obtain ⟨j, e, hopened, hclosed⟩ := ih hbefore hearlier
      exact ⟨j, e, hopened.mono hlater, hclosed.mono hlater⟩
    · have hopen : ∀ l ∈ (c.after turns).store.page id, l.attempt = n → ¬l.Settled :=
        fun l hl hattempt hsettled => hearlier ⟨turns, List.prefix_refl _, l, hl, hattempt, hsettled⟩
      obtain ⟨before, hprefix, l, hl, hattempt, hsettled⟩ := h
      rcases List.prefix_concat_iff.mp hprefix with rfl | hprefix
      · obtain ⟨q, hkept⟩ := kept hfresh hbefore
        obtain ⟨told, x, hmove, -, -⟩ := hkept.next hroom
        obtain ⟨e, hopened⟩ := hkept.closes hmove hopen hl hattempt hsettled
        exact ⟨i, e, hopened.mono hlater, turns, List.prefix_refl _, hopen, l, after_snoc ▸ hl, hattempt, hsettled⟩
      · exact absurd ⟨before, hprefix, l, hl, hattempt, hsettled⟩ hearlier

theorem past (hfresh : c.Fresh) (hroom : (c.after turns).clock.issued ≤ ExecutionId.room)
    (h : c.Opened turns i id e n) (h' : c.Opened turns j id e' m) (hlt : n < m) :
    c.Closed turns i id n ∧ ¬(c.after turns).MayVisit i e := by
  obtain ⟨-, -, -, -, hone, -⟩ := exists_of_opened hfresh hroom h
  obtain ⟨-, -, -, -, -, hbound⟩ := exists_of_opened hfresh hroom h'
  refine ⟨?_, fun hvisit => ?_⟩
  · obtain ⟨k, e'', hopened, hclosed⟩ := closed_of_settled hfresh hroom (settled_of_lt hfresh hroom h' hone hlt)
    obtain ⟨rfl, -⟩ := opened_once hfresh hroom h hopened
    exact hclosed
  · have hn := latest_of_mayVisit hfresh hroom h hvisit
    omega

theorem Underway.not_past (h : c.Underway turns i id e n) :
    ¬(c.Closed turns i id n ∧ ¬(c.after turns).MayVisit i e) := by
  rintro ⟨hclosed, hnone⟩
  rcases h.going with hopen | hvisit
  · exact hopen hclosed
  · exact hnone hvisit

/-- One attempt of an instance at a time. -/
structure Exclusive (c : Cluster σ) (turns : List Nat) : Prop where
  /-- Each attempt number is opened by one call at most. -/
  once : ∀ id n i j e e', c.Opened turns i id e n → c.Opened turns j id e' n → i = j ∧ e = e'
  /-- Nodes of an attempt are visited only by the call that opened it, and only after the
      call that opened the attempt before stored that one sealed. -/
  visited : ∀ before i e, before ++ [i] <+: turns → (c.after before).Visits i e →
    ∃ id n, c.Opened before i id e n ∧
      (n = 1 ∨ ∃ j e', c.Opened before j id e' (n - 1) ∧ c.Closed before j id (n - 1))
  /-- Of two attempts the earlier one was stored sealed by the call that opened it, which
      has no node of it left to visit. -/
  past : ∀ id n m i j e e', c.Opened turns i id e n → c.Opened turns j id e' m → n < m →
    c.Closed turns i id n ∧ ¬(c.after turns).MayVisit i e
  /-- No two calls are at attempts of an instance at once. -/
  alone : ∀ id n m i j e e', c.Underway turns i id e n → c.Underway turns j id e' m → i = j ∧ e = e'

theorem exclusive (hfresh : c.Fresh) (hroom : (c.after turns).clock.issued ≤ ExecutionId.room) :
    c.Exclusive turns := by
  refine ⟨fun id n i j e e' h h' => opened_once hfresh hroom h h', fun before i e hbefore hvisit => ?_,
    fun id n m i j e e' h h' hlt => past hfresh hroom h h' hlt, fun id n m i j e e' h h' => ?_⟩
  · have hprefix : before <+: turns := (List.prefix_append _ _).trans hbefore
    have hids := Nat.le_trans (issued_after hfresh hprefix) hroom
    obtain ⟨l, hkey, hforemost, hhas⟩ := foremost_of_visits hfresh hids hvisit
    obtain ⟨last, hlast, hsame⟩ := hforemost.mem
    have hbound := ((filed_after hfresh hids).numbered ⟨l.owner⟩).attempt_mem hlast
    rw [hsame.attempt] at hbound
    obtain ⟨n, hn⟩ := Int.eq_ofNat_of_zero_le (Int.le_trans (by decide) hbound.1)
    have hopened : c.Opened before i ⟨l.owner⟩ e n := hhas.opened hkey hn
    refine ⟨⟨l.owner⟩, n, hopened, ?_⟩
    by_cases hone : n = 1
    · exact Or.inl hone
    · exact Or.inr (closed_of_settled hfresh hids (settled_of_lt hfresh hids hopened (by omega) (by omega)))
  · rcases Nat.lt_trichotomy n m with hlt | rfl | hlt
    · exact absurd (past hfresh hroom h.opened h'.opened hlt) h.not_past
    · exact opened_once hfresh hroom h.opened h'.opened
    · exact absurd (past hfresh hroom h'.opened h.opened hlt) h'.not_past

end Cluster

/-! ### Two runners at once -/

def rivals : Cluster Nat :=
  { store := .table Table.empty
    clock := { origin := Instant.ofSeconds 0 0 }
    processes := fun _ => { faultyWorld with repository := { store := .table Table.empty } }
    calls := fun i => { process := i % 2, rest := flakyRunner.request (.run "nightly" Dict.empty) } }

/-- Call 1 reads that there is no attempt, and waits while call 0 makes one, that fails;
    then call 1 goes on, and call 3 begins another attempt. -/
def race : List Nat := List.replicate 3 1 ++ List.replicate 29 0 ++ List.replicate 10 1 ++ List.replicate 11 3

def Act.wasRefused : Act Nat Reply → Bool
  | .done (.report (.error (.checkpoint _))) => true
  | _ => false

theorem rivals_exclusive :
    ((rivals.after race).store.page nightly).map (fun l => (l.attempt, l.final)) = [(1, some "FAILED"), (2, none)] ∧
      ((rivals.after race).calls 1).rest.wasRefused = true ∧
      ((rivals.after race).tells 3).map Event.isNode = [true] ∧ rivals.Exclusive race := by
  have hfresh : rivals.Fresh := ⟨Or.inr rfl, fun i => ⟨flakyRunner, .run "nightly" Dict.empty, rfl⟩⟩
  exact ⟨by decide +kernel, by decide +kernel, by decide +kernel, Cluster.exclusive hfresh (by decide +kernel)⟩

end Switchyard
