import Switchyard.Proofs.Cluster.Exclusion

/-
  Switchyard.Proofs.Cluster.Sealed — what becomes of a sealed record while calls that
  share its history go on.

  A store replaces whatever it has under a record's identifier, and a call that abandons
  an instance looks at the claims, reads the latest record and stores a sealed one in
  three steps. So a sealed record lasts only as far as nobody was about to write when it
  was sealed:

  - `sealed_lasts`: it is there unchanged, or was abandoned by a call that had found it
    open, or was abandoned itself and is written over by the call that opened the attempt.
    Calls that begin later leave it alone, and unless its attempt was once stored `failed`
    or `stopped`, it stays the latest.
  - `abandoned_taken_back`: a run of the same process that claims the instance between the
    look and the read takes an abandoned record back with its next checkpoint, and another
    run begins after that.
-/

namespace Switchyard

/-! ## One move -/

/-- Only these calls have an attempt in hand, and only these have read it while it was
    open. -/
structure Shut (q : Nat → Stance) (e : ExecutionId) (holders readers : Nat → Prop) : Prop where
  held : ∀ i, ∀ l ∈ (q i).stints, l.key = e.text → holders i
  read : ∀ i id r, (q i).read = some (id, some r) → r.id = e → r.finalStatus = none → readers i

namespace Apart

variable {settled : InstanceId → Nat → Prop} {opened : Nat → Line → Prop} {c c' : Shared} {q : Nat → Stance} {i : Nat}
  {x : Stance} {told : Option Event} {id : InstanceId} {e : ExecutionId} {y : Entry} {holders readers : Nat → Prop}

/-- A latest record that is read under an identifier is sealed if the entry is. -/
theorem sealed_of_read (h : Apart settled opened c q) (hy : y ∈ c.store.entries id) (hkey : y.line.key = e.text)
    (hsealed : y.line.final ≠ none) {id' : InstanceId} {r : Record} (hlatest : c.store.latest? id' = .ok (some r))
    (hid : r.id = e) : r.finalStatus ≠ none := by
  intro hopen
  obtain ⟨pre, old, hpage, htells⟩ := Store.page_of_latest?_some hlatest
  obtain ⟨-, hsame⟩ := sameAttempt_of_tells h.filed hpage htells
  have hmem : old ∈ c.store.page id' := by simp [hpage]
  have heq := h.filed.single id' id old hmem y.line (Store.line_mem_page hy) (by rw [hsame.key, hid, hkey])
  rw [← heq, htells.final, hopen] at hsealed
  exact hsealed rfl

/-- Nobody takes a sealed attempt in hand or finds it open. -/
theorem shut_move (h : Apart settled opened c q) (hshut : Shut q e holders readers) (hmove : Move c (q i) told c' x)
    (hy : y ∈ c.store.entries id) (hkey : y.line.key = e.text) (hsealed : y.line.final ≠ none) :
    Shut (Function.update q i x) e holders readers := by
  refine ⟨fun j l hl hlkey => ?_, fun j id' r hread hid hopen => ?_⟩
  · by_cases hij : j = i
    · subst hij
      rw [Function.update_self] at hl
      rcases h.stints_of hmove hl with hl | hnew
      · exact hshut.held j l hl hlkey
      · exact absurd (hkey.trans hlkey.symm) (hnew id y.line (Store.line_mem_page hy))
    · rw [Function.update_of_ne hij] at hl
      exact hshut.held j l hl hlkey
  · by_cases hij : j = i
    · subst hij
      rw [Function.update_self] at hread
      rcases hmove.latest_of_read hread with hread | hlatest
      · exact hshut.read j id' r hread hid hopen
      · exact absurd hopen (h.sealed_of_read hy hkey hsealed hlatest hid)
    · rw [Function.update_of_ne hij] at hread
      exact hshut.read j id' r hread hid hopen

/-- A move leaves an entry as it is, unless its call has the attempt in hand or abandons
    it, having read it while it was open. -/
theorem entry_move (h : Apart settled opened c q) (hshut : Shut q e holders readers) (hmove : Move c (q i) told c' x)
    (hy : y ∈ c.store.entries id) (hkey : y.line.key = e.text) :
    holders i ∨ ∃ z ∈ c'.store.entries id, z.line.Same y.line ∧
      (z = y ∨ z.line.final = some "ABANDONED" ∧ readers i) := by
  cases h.writes hmove with
  | none hstore =>
    rw [hstore]
    exact Or.inr ⟨y, hy, .refl _, Or.inl rfl⟩
  | new hgains _ _ =>
    refine Or.inr ⟨y, ?_, .refl _, Or.inl rfl⟩
    rw [hgains id]
    split
    · exact List.mem_append_left _ hy
    · exact hy
  | @again r old hrevises hold hsame hwhy =>
    have hmem : y.revised r ∈ c'.store.entries id := by
      rw [hrevises id]
      exact List.mem_map_of_mem hy
    by_cases hid : e = r.id
    · subst hid
      rcases hwhy with ⟨line, hline, hattempt⟩ | ⟨hfinal, id', latest, hread, hopen, hlatest⟩
      · exact Or.inl (hshut.held i line hline hattempt.key)
      · have hrevised := Store.line_revised hy r
        refine Or.inr ⟨y.revised r, hmem, ?_, Or.inr ⟨?_, hshut.read i id' latest hread hlatest hopen⟩⟩
        · rw [hrevised]
          exact h.filed.revised_same hold hsame (Store.line_mem_page hy)
        · rw [hrevised, Store.revised, if_pos hkey, Store.final_again, hfinal]
          rfl
    · have hne : y.line.key ≠ r.id.text := fun heq => hid (ExecutionId.text_injective (hkey.symm.trans heq))
      rw [Entry.revised_of_ne hne] at hmem
      exact Or.inr ⟨y, hmem, .refl _, Or.inl rfl⟩

end Apart

/-! ## After any turns -/

namespace Cluster

variable {σ : Type} {c : Cluster σ} {turns more : List Nat} {id : InstanceId} {e : ExecutionId} {x : Entry}

def FoundOpen (c : Cluster σ) (turns : List Nat) (i : Nat) (id : InstanceId) (e : ExecutionId) : Prop :=
  ∃ r, c.Found turns i id r ∧ r.id = e ∧ r.finalStatus = none

/-- What becomes in further turns of what is stored, sealed, under an identifier. -/
structure Lasts (c : Cluster σ) (turns more : List Nat) (id : InstanceId) (e : ExecutionId) (x : Entry) : Prop where
  /-- It stays, unless it is abandoned by a call that had found it open, or was abandoned
      and is written over by the call that opened the attempt. -/
  stays : ∃ y ∈ (c.after (turns ++ more)).store.entries id, y.line.Same x.line ∧
    (y = x ∨ (y.line.final = some "ABANDONED" ∧ ∃ i ∈ more, c.FoundOpen turns i id e) ∨
      (x.line.final = some "ABANDONED" ∧ ∃ i ∈ more, ∃ n, c.Opened turns i id e n))
  /-- If its attempt was at no time open to another one, it stays the latest, unless it is
      written over. -/
  latest : ∀ n : Nat, x.line.attempt = n → ¬c.Settled turns id n → (∀ i ∈ more, ∀ n, ¬c.Opened turns i id e n) →
    ((c.after (turns ++ more)).store.page id).length = n

/-- In further turns a sealed entry is written over by a call that has the attempt in hand,
    or else is abandoned at most, by a call that had found it open. -/
theorem Kept.onward (hfresh : c.Fresh) {q : Nat → Stance} (h : c.Kept turns q)
    (hroom : (c.after (turns ++ more)).clock.issued ≤ ExecutionId.room) (hx : x ∈ (c.after turns).store.entries id)
    (hkey : x.line.key = e.text) (hsealed : x.line.final ≠ none) :
    (∃ i ∈ more, ∃ l ∈ (q i).stints, l.key = e.text) ∨
      ∃ q', c.Kept (turns ++ more) q' ∧
        Shut q' e (fun i => ∃ l ∈ (q i).stints, l.key = e.text) (fun i => c.FoundOpen turns i id e) ∧
        ∃ y ∈ (c.after (turns ++ more)).store.entries id, y.line.Same x.line ∧
          (y = x ∨ y.line.final = some "ABANDONED" ∧ ∃ i ∈ more, c.FoundOpen turns i id e) := by
  induction more using List.reverseRecOn with
  | nil =>
    rw [List.append_nil]
    refine Or.inr ⟨q, h, ⟨fun i l hl hl' => ⟨l, hl, hl'⟩, fun i id' r hread hid hopen => ?_⟩, x, hx, .refl _,
      Or.inl rfl⟩
    obtain ⟨l, hl, hsame⟩ := (h.apart.seen i id' r hread).line
    obtain rfl := h.apart.filed.id_eq hl (Store.line_mem_page hx) (by rw [hsame.key, hid, hkey])
    exact ⟨r, h.found i id' r hread, hid, hopen⟩
  | append_singleton more i ih =>
    rw [← List.append_assoc] at hroom ⊢
    have hbefore := Nat.le_trans (issued_after hfresh (List.prefix_append (turns ++ more) [i])) hroom
    rcases ih hbefore with ⟨j, hj, hline⟩ | ⟨q', hkept, hshut, y, hy, hyx, hfate⟩
    · exact Or.inl ⟨j, List.mem_append_left _ hj, hline⟩
    have hykey : y.line.key = e.text := hyx.key.trans hkey
    have hysealed : y.line.final ≠ none := by
      rcases hfate with rfl | ⟨hfinal, -⟩
      · exact hsealed
      · simp [hfinal]
    obtain ⟨told, q'', hmove, -, hnext⟩ := hkept.next hroom
    rcases hkept.apart.entry_move hshut hmove hy hykey with hholder | ⟨z, hz, hzy, hwhy⟩
    · exact Or.inl ⟨i, by simp, hholder⟩
    · have hnextShut := hkept.apart.shut_move hshut hmove hy hykey hysealed
      refine Or.inr ⟨_, hnext, hnextShut, z, hz, hzy.trans hyx, ?_⟩
      rcases hwhy with rfl | ⟨hfinal, hfound⟩
      · rcases hfate with rfl | ⟨hfinal, j, hj, hfound⟩
        · exact Or.inl rfl
        · exact Or.inr ⟨hfinal, j, List.mem_append_left _ hj, hfound⟩
      · exact Or.inr ⟨hfinal, i, by simp, hfound⟩

theorem stays (hfresh : c.Fresh) (hroom : (c.after (turns ++ more)).clock.issued ≤ ExecutionId.room)
    (hx : x ∈ (c.after turns).store.entries id) (hkey : x.line.key = e.text) (hsealed : x.line.final ≠ none) :
    ∃ y ∈ (c.after (turns ++ more)).store.entries id, y.line.Same x.line ∧
      (y = x ∨ (y.line.final = some "ABANDONED" ∧ ∃ i ∈ more, c.FoundOpen turns i id e) ∨
        (x.line.final = some "ABANDONED" ∧ ∃ i ∈ more, ∃ n, c.Opened turns i id e n)) := by
  have hlater : turns <+: turns ++ more := List.prefix_append _ _
  obtain ⟨q, hkept⟩ := kept hfresh (Nat.le_trans (issued_after hfresh hlater) hroom)
  rcases hkept.onward hfresh hroom hx hkey hsealed with ⟨i, hi, l, hl, hlkey⟩ | ⟨-, -, -, y, hy, hyx, hfate⟩
  · -- the attempt is in hand, so it can only have been abandoned
    obtain ⟨pre, last, hpage, hlast, hfinal⟩ := hkept.apart.foremost i l hl
    have hmem : last ∈ (c.after turns).store.page ⟨l.owner⟩ := by
      show last ∈ (c.after turns).shared.store.page ⟨l.owner⟩
      rw [hpage]
      exact List.mem_append_right _ List.mem_cons_self
    have hlx : last.key = x.line.key := hlast.key.trans (hlkey.trans hkey.symm)
    obtain rfl := hkept.apart.filed.id_eq hmem (Store.line_mem_page hx) hlx
    obtain rfl := hkept.apart.filed.single _ _ last hmem x.line (Store.line_mem_page hx) hlx
    have habandoned : x.line.final = some "ABANDONED" := hfinal.resolve_left hsealed
    have hbound := (hkept.apart.filed.numbered ⟨l.owner⟩).attempt_mem hmem
    obtain ⟨n, hn⟩ := Int.eq_ofNat_of_zero_le (Int.le_trans (by decide) hbound.1)
    have hopened : c.Opened turns i ⟨l.owner⟩ e n :=
      (hkept.apart.opened i l hl).opened hlkey (hlast.attempt.symm.trans hn)
    obtain ⟨z, hz, hzx⟩ := exists_later hfresh hroom hlater (Store.line_mem_page hx)
    obtain ⟨y, hy, rfl⟩ := Store.exists_entry hz
    exact ⟨y, hy, hzx, Or.inr (Or.inr ⟨habandoned, i, hi, n, hopened⟩)⟩
  · exact ⟨y, hy, hyx, hfate.imp_right Or.inl⟩

theorem sealed_lasts (hfresh : c.Fresh) (hroom : (c.after (turns ++ more)).clock.issued ≤ ExecutionId.room)
    (hx : x ∈ (c.after turns).store.entries id) (hkey : x.line.key = e.text) (hsealed : x.line.final ≠ none) :
    c.Lasts turns more id e x := by
  refine ⟨stays hfresh hroom hx hkey hsealed, fun n hn hnever hnobody => ?_⟩
  have hlater : turns <+: turns ++ more := List.prefix_append _ _
  have hxline := Store.line_mem_page hx
  obtain ⟨y, hy, hyx⟩ := exists_later hfresh hroom hlater hxline
  have hbound : 1 ≤ y.attempt ∧ y.attempt ≤ ((c.after (turns ++ more)).store.page id).length :=
    ((filed_after hfresh hroom).numbered id).attempt_mem hy
  rw [hyx.attempt, hn] at hbound
  by_contra hne
  -- an attempt after this one tells that this one was stored `failed` or `stopped`
  obtain ⟨z, hz, hbehind⟩ := ((filed_after hfresh hroom).numbered id).exists_attempt (n := n + 1) (by omega)
    (show n + 1 ≤ ((c.after (turns ++ more)).store.page id).length by omega)
  obtain ⟨q, hkept⟩ := kept hfresh hroom
  obtain ⟨before, hbefore, l, hl, hattempt, hsettled⟩ := hkept.apart.follows id z hz n (by omega) hbehind
  rcases List.prefix_or_prefix_of_prefix hbefore hlater with hfirst | ⟨mid, rfl⟩
  · exact hnever ⟨before, hfirst, l, hl, hattempt, hsettled⟩
  have hmid : mid <+: more := (List.prefix_append_right_inj turns).mp hbefore
  have hroomMid := Nat.le_trans (issued_after hfresh hbefore) hroom
  obtain ⟨w, hw, hwx, hfate⟩ := stays hfresh hroomMid hx hkey hsealed
  obtain rfl := (filed_after hfresh hroomMid).eq_of_attempt hl (Store.line_mem_page hw)
    (hattempt.trans (hn.symm.trans hwx.attempt.symm))
  rcases hfate with rfl | ⟨hfinal, -⟩ | ⟨-, i, hi, m, hopened⟩
  · exact hnever ⟨turns, List.prefix_refl _, w.line, hxline, hn, hsettled⟩
  · unfold Line.Settled at hsettled
    simp [hfinal] at hsettled
  · exact hnobody i (hmid.subset hi) m hopened

end Cluster

/-! ### Abandoning what is being run -/

def crossing : Cluster Nat :=
  { store := .shelf Shelf.empty
    clock := { origin := Instant.ofSeconds 0 0 }
    processes := fun _ => { faultyWorld with repository := { store := .shelf Shelf.empty } }
    calls := fun i =>
      { process := 0
        rest := flakyRunner.request (if i = 1 then .abandon nightly else .run "nightly" Dict.empty) } }

/-- Call 1 finds the instance unclaimed, call 0 claims it and opens its first attempt, and
    call 1 goes on to the end. -/
def crossed : List Nat := [1] ++ List.replicate 10 0 ++ List.replicate 4 1

def onward : List Nat := List.replicate 25 0 ++ List.replicate 11 2

theorem fresh_crossing : crossing.Fresh := ⟨Or.inl rfl, fun _ => ⟨flakyRunner, _, rfl⟩⟩

/-- After the abandoning the attempt of call 0 is the only one, and sealed. -/
theorem exists_crossed : ∃ x ∈ (crossing.after crossed).store.entries nightly,
    x.line.key = (ExecutionId.numbered crossing.clock.originMillis 0).text ∧ x.line.final = some "ABANDONED" := by
  have hpage : ((crossing.after crossed).store.page nightly).map (fun l => (l.key, l.final)) =
      [((ExecutionId.numbered crossing.clock.originMillis 0).text, some "ABANDONED")] := by decide +kernel
  obtain ⟨l, hl, htold⟩ := List.mem_map.mp (hpage ▸ List.mem_cons_self)
  obtain ⟨x, hx, rfl⟩ := Store.exists_entry hl
  exact ⟨x, hx, congrArg Prod.fst htold, congrArg Prod.snd htold⟩

theorem crossed_lasts : ∃ x ∈ (crossing.after crossed).store.entries nightly, x.line.final = some "ABANDONED" ∧
    crossing.Lasts crossed onward nightly (ExecutionId.numbered crossing.clock.originMillis 0) x := by
  obtain ⟨x, hx, hkey, hfinal⟩ := exists_crossed
  exact ⟨x, hx, hfinal, Cluster.sealed_lasts fresh_crossing (by decide +kernel) hx hkey (by simp [hfinal])⟩

def Cluster.SealsForGood {σ : Type} (c : Cluster σ) : Prop :=
  ∀ turns more id x, x ∈ (c.after turns).store.entries id → x.line.final ≠ none →
    x ∈ (c.after (turns ++ more)).store.entries id

def Act.hasAbandoned : Act Nat Reply → Bool
  | .done (.record (.ok r)) => r.finalStatus = some .abandoned
  | _ => false

/-- The record that was abandoned is open again with the run's next checkpoint, and in the
    end is sealed `failed`; so the instance, though its caller was told that it is
    abandoned, is run once more. -/
theorem abandoned_taken_back :
    (∀ i, (crossing.calls i).process = 0) ∧ crossing.Fresh ∧
      (crossing.after (crossed ++ onward)).clock.issued ≤ ExecutionId.room ∧
      ((crossing.after crossed).calls 1).rest.hasAbandoned = true ∧
      ((crossing.after crossed).store.page nightly).map (·.final) = [some "ABANDONED"] ∧
      ((crossing.after (crossed ++ onward)).store.page nightly).map (·.final) = [some "FAILED", none] ∧
      ((crossing.after (crossed ++ onward)).tells 2).map Event.isNode = [true] ∧ ¬crossing.SealsForGood := by
  have honward : ((crossing.after (crossed ++ onward)).store.page nightly).map (·.final) = [some "FAILED", none] := by
    decide +kernel
  refine ⟨fun _ => rfl, fresh_crossing, by decide +kernel, by decide +kernel, by decide +kernel, honward,
    by decide +kernel, fun hgood => ?_⟩
  obtain ⟨x, hx, -, hfinal⟩ := exists_crossed
  have hlater := hgood crossed onward nightly x hx (by simp [hfinal])
  have hmem := List.mem_map_of_mem (f := fun l : Line => l.final) (Store.line_mem_page hlater)
  rw [honward, hfinal] at hmem
  simp at hmem

end Switchyard
