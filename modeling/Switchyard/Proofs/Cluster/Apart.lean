import Mathlib.Logic.Function.Basic
import Switchyard.Proofs.Cluster.Moves

/-
  Switchyard.Proofs.Cluster.Apart — what keeps the calls that share a history apart.

  An attempt in hand is the latest of its instance, and it neither failed nor stopped
  (`Foremost`): whoever reads it opens no other. Whoever read an earlier one that failed
  or stopped is late: the attempt after that one is there already, and the number it would
  have is taken. So the attempt that is opened next finds none of its instance in hand
  (`Apart.append`), and any two attempts in hand are of different instances.

  `Apart` is what all moves keep of what is shared and of how every call stands
  (`Apart.move`). It also keeps count of the past: an attempt with a number above one
  follows one that was seen sealed `failed` or `stopped`, and an attempt in hand was opened
  by the call that has it.
-/

namespace Switchyard

def Record.Settled (r : Record) : Prop := r.finalStatus = some .failed ∨ r.finalStatus = some .stopped

def Line.Settled (l : Line) : Prop := l.final = some "FAILED" ∨ l.final = some "STOPPED"

/-- The attempt is the latest of its instance, and not open to another. -/
def Foremost (s : Store) (l : Line) : Prop :=
  ∃ pre last, s.page ⟨l.owner⟩ = pre ++ [last] ∧ last.Same l ∧ (last.final = none ∨ last.final = some "ABANDONED")

structure Unused (c : Shared) (e : ExecutionId) : Prop where
  issued : ∃ n < c.issued, e = ExecutionId.numbered c.millis n
  fresh : ∀ id, ∀ l ∈ c.store.page id, l.key ≠ e.text

/-- What is left to say of a latest record that was read some time ago. -/
structure Seen (settled : InstanceId → Nat → Prop) (s : Store) (q : Nat → Stance) (id : InstanceId) (r : Record) :
    Prop where
  owner : r.instanceId = id
  line : ∃ l ∈ s.page id, l.SameAttempt r
  settled : r.Settled → settled id r.attempt
  /-- The attempts in hand came later. -/
  ahead : r.Settled → ∀ i, ∀ l ∈ (q i).stints, l.owner = id.text → (r.attempt : Int) < l.attempt

/-- Calls that go by these stances are kept apart, if the attempts that were settled and
    those that each call opened are among these. -/
structure Apart (settled : InstanceId → Nat → Prop) (opened : Nat → Line → Prop) (c : Shared) (q : Nat → Stance) :
    Prop where
  filed : Filed c
  follows : ∀ id, ∀ l ∈ c.store.page id, ∀ n : Nat, 1 ≤ n → l.attempt = n + 1 → settled id n
  foremost : ∀ i, ∀ l ∈ (q i).stints, Foremost c.store l
  opened : ∀ i, ∀ l ∈ (q i).stints, opened i l
  distinct : ∀ i, ((q i).stints.map (·.key)).Nodup
  apart : ∀ i j, ∀ l ∈ (q i).stints, ∀ l' ∈ (q j).stints, l.key = l'.key → i = j
  unused : ∀ i, ∀ e ∈ (q i).minted, Unused c e
  own : ∀ i j, ∀ e ∈ (q i).minted, e ∈ (q j).minted → i = j
  seen : ∀ i id r, (q i).read = some (id, some r) → Seen settled c.store q id r

/-! ## Attempts in hand -/

theorem Foremost.mem {s : Store} {l : Line} (h : Foremost s l) : ∃ last ∈ s.page ⟨l.owner⟩, last.Same l := by
  obtain ⟨pre, last, hpage, hsame, -⟩ := h
  exact ⟨last, by simp [hpage], hsame⟩

/-- Other lines may change, and so may the line itself as long as no attempt may follow. -/
theorem Foremost.map {s s' : Store} {l : Line} {f : Line → Line} (h : Foremost s l)
    (hpage : s'.page ⟨l.owner⟩ = (s.page ⟨l.owner⟩).map f)
    (hf : ∀ x ∈ s.page ⟨l.owner⟩, (f x).Same x)
    (hfinal : ∀ x ∈ s.page ⟨l.owner⟩, x.Same l → f x = x ∨ (f x).final = none ∨ (f x).final = some "ABANDONED") :
    Foremost s' l := by
  obtain ⟨pre, last, hlast, hsame, hopen⟩ := h
  have hmem : last ∈ s.page ⟨l.owner⟩ := by simp [hlast]
  have hkept := hf last hmem
  refine ⟨pre.map f, f last, by rw [hpage, hlast, List.map_append, List.map_singleton], ?_, ?_⟩
  · exact hkept.trans hsame
  · rcases hfinal last hmem hsame with heq | hfinal
    · rwa [heq]
    · exact hfinal

/-- Of lines with distinct keys, none that is left has the key of the one that is gone. -/
theorem key_ne_of_mem_erase {lines : List Line} {line l : Line} (hdistinct : (lines.map (·.key)).Nodup)
    (hline : line ∈ lines) (hl : l ∈ lines.erase line) : l.key ≠ line.key := by
  intro hkey
  have hinj := List.inj_on_of_nodup_map hdistinct (List.mem_of_mem_erase hl) hline hkey
  have hnodup : lines.Nodup := .of_map _ hdistinct
  exact hnodup.not_mem_erase (hinj ▸ hl)

/-- What a call's next stance has as before, all calls have as before. -/
theorem unchanged {α : Type} {f : Stance → α} {q : Nat → Stance} {i : Nat} {x : Stance} (h : f x = f (q i)) (j : Nat) :
    f (Function.update q i x j) = f (q j) := by
  by_cases hij : j = i
  · subst hij
    rw [Function.update_self, h]
  · rw [Function.update_of_ne hij]

variable {settled : InstanceId → Nat → Prop} {opened : Nat → Line → Prop} {c : Shared} {q : Nat → Stance}

namespace Apart

variable {i j : Nat} {l l' : Line} {r : Record} {s' : Store} {c' : Shared} {q' : Nat → Stance}

/-- Nobody has done anything, and nothing is stored. -/
theorem start (hfiled : Filed c) (hempty : ∀ id, c.store.page id = []) :
    Apart settled opened c fun _ => {} := by
  refine ⟨hfiled, fun id l hl => ?_, by simp, by simp, by simp, by simp, by simp, by simp, by simp⟩
  rw [hempty] at hl
  cases hl

theorem mono (h : Apart settled opened c q) {settled' : InstanceId → Nat → Prop} {opened' : Nat → Line → Prop}
    (hsettled : ∀ id n, settled id n → settled' id n) (hopened : ∀ i l, opened i l → opened' i l) :
    Apart settled' opened' c q :=
  { filed := h.filed
    follows := fun id l hl n hn hl' => hsettled id n (h.follows id l hl n hn hl')
    foremost := h.foremost
    opened := fun i l hl => hopened i l (h.opened i l hl)
    distinct := h.distinct
    apart := h.apart
    unused := h.unused
    own := h.own
    seen := fun i id r hr =>
      { owner := (h.seen i id r hr).owner
        line := (h.seen i id r hr).line
        settled := fun hsealed => hsettled id r.attempt ((h.seen i id r hr).settled hsealed)
        ahead := (h.seen i id r hr).ahead } }

/-- Nobody has more in hand than before, and what is shared is still in order. -/
theorem lesser (h : Apart settled opened c q) (hfiled : Filed c')
    (hfollows : ∀ id, ∀ l ∈ c'.store.page id, ∀ n : Nat, 1 ≤ n → l.attempt = n + 1 → settled id n)
    (hstints : ∀ j, (q' j).stints.Sublist (q j).stints) (hforemost : ∀ j, ∀ l ∈ (q' j).stints, Foremost c'.store l)
    (hminted : ∀ j, ∀ e ∈ (q' j).minted, e ∈ (q j).minted ∧ Unused c' e)
    (hseen : ∀ j id r, (q' j).read = some (id, some r) → Seen settled c'.store q' id r) :
    Apart settled opened c' q' :=
  { filed := hfiled
    follows := hfollows
    foremost := hforemost
    opened := fun j l hl => h.opened j l ((hstints j).subset hl)
    distinct := fun j => (h.distinct j).sublist ((hstints j).map _)
    apart := fun j k l hl l' hl' => h.apart j k l ((hstints j).subset hl) l' ((hstints k).subset hl')
    unused := fun j e he => (hminted j e he).2
    own := fun j k e he he' => h.own j k e (hminted j e he).1 (hminted k e he').1
    seen := hseen }

/-! ## Opening an attempt -/

/-- The record of the attempt after one that was read is stored only if that one is the
    latest still, and then no attempt of the instance is in hand. -/
theorem append (h : Apart settled opened c q) {latest : Option Record} (hminted : (q i).minted = some r.id)
    (hread : (q i).read = some (r.instanceId, latest)) (hnext : NextAfter latest r.attempt)
    (happend : c.store.append r = .ok s') :
    Filed { c with store := s' } ∧ c.store.Gains r s' ∧ r.attempt = (c.store.page r.instanceId).length + 1 ∧
      ∀ j, ∀ l ∈ (q j).stints, l.owner ≠ r.instanceId.text := by
  have hunused := h.unused i r.id hminted
  have hone : 1 ≤ r.attempt ∧ r.attempt ≤ (c.store.page r.instanceId).length + 1 := by
    cases latest with
    | none =>
      have hfirst : r.attempt = 1 := hnext
      omega
    | some old =>
      obtain ⟨hsettled, hattempt⟩ := hnext
      obtain ⟨l, hl, hsame⟩ := (h.seen i _ old hread).line
      have hbound := (h.filed.numbered r.instanceId).attempt_mem hl
      rw [hsame.attempt] at hbound
      omega
  have hattempt : r.attempt = (c.store.page r.instanceId).length + 1 := by
    by_contra hne
    exact h.filed.append_taken hunused.fresh hone.1 (by omega) happend
  obtain ⟨n, hn, hid⟩ := hunused.issued
  obtain ⟨s'', happend', hfiled, hgains⟩ := h.filed.append_new hn hid hunused.fresh hattempt
  cases happend.symm.trans happend'
  refine ⟨hfiled, hgains, hattempt, fun j l hl howner => ?_⟩
  obtain ⟨last, hlast, hsame⟩ := (h.foremost j l hl).mem
  rw [howner] at hlast
  have hbound := (h.filed.numbered r.instanceId).attempt_mem hlast
  rw [hsame.attempt] at hbound
  cases latest with
  | none =>
    have hfirst : r.attempt = 1 := hnext
    omega
  | some old =>
    obtain ⟨hsettled, hnumber⟩ := hnext
    have hahead := (h.seen i _ old hread).ahead hsettled j l hl howner
    omega

/-- Storing the record of the attempt after one that was read keeps the calls apart. -/
theorem marked (h : Apart settled opened c q) {latest : Option Record} (hminted : (q i).minted = some r.id)
    (hread : (q i).read = some (r.instanceId, latest)) (hnext : NextAfter latest r.attempt)
    (happend : c.store.append r = .ok s') :
    Apart settled opened { c with store := s' } (Function.update q i { q i with minted := none }) := by
  obtain ⟨hfiled, hgains, hattempt, hnone⟩ := h.append hminted hread hnext happend
  have hpage := hgains.page
  have hstints : ∀ j, (Function.update q i { q i with minted := none } j).stints = (q j).stints :=
    unchanged (f := Stance.stints) rfl
  have hreads : ∀ j, (Function.update q i { q i with minted := none } j).read = (q j).read :=
    unchanged (f := Stance.read) rfl
  have hmints : ∀ j, ∀ e ∈ (Function.update q i { q i with minted := none } j).minted, j ≠ i ∧ e ∈ (q j).minted := by
    refine (Function.forall_update_iff q (p := fun j x => ∀ e ∈ x.minted, j ≠ i ∧ e ∈ (q j).minted)).mpr ⟨?_, ?_⟩
    · rintro e ⟨⟩
    · exact fun j hj e he => ⟨hj, he⟩
  have hmem : ∀ id, ∀ l ∈ c.store.page id, l ∈ s'.page id := by
    intro id l hl
    rw [hpage]
    split
    · exact List.mem_append_left _ hl
    · exact hl
  have hcases : ∀ id, ∀ l ∈ s'.page id, l ∈ c.store.page id ∨ (id = r.instanceId ∧ l = Line.ofRecord r) := by
    intro id l hl
    rw [hpage] at hl
    split at hl
    next hid => exact (List.mem_append.mp hl).imp_right fun hl => ⟨hid, List.mem_singleton.mp hl⟩
    · exact Or.inl hl
  refine h.lesser hfiled (fun id l hl n hn hl' => ?_) (fun j => ?_) (fun j l hl => ?_) (fun j e he => ?_)
    (fun j id old hold => ?_)
  · rcases hcases id l hl with hl | ⟨rfl, rfl⟩
    · exact h.follows id l hl n hn hl'
    · -- the attempt before the new one is the one that was read
      have hnumber : (r.attempt : Int) = n + 1 := hl'
      cases latest with
      | none =>
        have hfirst : r.attempt = 1 := hnext
        omega
      | some old =>
        obtain ⟨hsettled, hattempt⟩ := hnext
        have hn : n = old.attempt := by omega
        rw [hn]
        exact (h.seen i _ old hread).settled hsettled
  · rw [hstints]
  · rw [hstints] at hl
    have hne : (⟨l.owner⟩ : InstanceId) ≠ r.instanceId := fun heq => hnone j l hl (congrArg InstanceId.text heq)
    unfold Foremost
    rw [hpage, if_neg hne]
    exact h.foremost j l hl
  · obtain ⟨hj, he⟩ := hmints j e he
    have hunused := h.unused j e he
    refine ⟨he, hunused.issued, fun id l hl => ?_⟩
    rcases hcases id l hl with hl | ⟨rfl, rfl⟩
    · exact hunused.fresh id l hl
    · intro heq
      have heq : r.id = e := ExecutionId.text_injective heq
      exact hj (h.own j i e he (heq ▸ hminted))
  · rw [hreads] at hold
    have hseen := h.seen j id old hold
    obtain ⟨l, hl, hsame⟩ := hseen.line
    refine ⟨hseen.owner, ⟨l, hmem id l hl, hsame⟩, hseen.settled, fun hsettled k l hl => ?_⟩
    rw [hstints] at hl
    exact hseen.ahead hsettled k l hl

/-- An attempt is taken in hand that is the latest of its instance and that nobody has. -/
theorem take (h : Apart settled opened c q) (hforemost : Foremost c.store l) (hopened : opened i l)
    (hnone : ∀ j, ∀ x ∈ (q j).stints, x.key ≠ l.key)
    (hahead : ∀ j id old, (q j).read = some (id, some old) → l.owner = id.text → (old.attempt : Int) < l.attempt) :
    Apart settled opened c (Function.update q i { q i with stints := l :: (q i).stints }) := by
  generalize hq' : Function.update q i { q i with stints := l :: (q i).stints } = q'
  have hstints : ∀ j, ∀ x ∈ (q' j).stints, x ∈ (q j).stints ∨ (j = i ∧ x = l) := by
    rw [← hq']
    refine (Function.forall_update_iff q (p := fun j y => ∀ x ∈ y.stints, x ∈ (q j).stints ∨ (j = i ∧ x = l))).mpr
      ⟨fun x hx => ?_, fun j _ x hx => Or.inl hx⟩
    rcases List.mem_cons.mp hx with rfl | hx
    · exact Or.inr ⟨rfl, rfl⟩
    · exact Or.inl hx
  have hrest : ∀ j, (q' j).minted = (q j).minted ∧ (q' j).read = (q j).read := by
    subst hq'
    exact forall_and.mpr ⟨unchanged (f := Stance.minted) rfl, unchanged (f := Stance.read) rfl⟩
  have hdistinct : ∀ j, ((q' j).stints.map (·.key)).Nodup := by
    rw [← hq']
    refine (Function.forall_update_iff q (p := fun _ x => (x.stints.map (·.key)).Nodup)).mpr
      ⟨?_, fun j _ => h.distinct j⟩
    refine List.nodup_cons.mpr ⟨fun hmem => ?_, h.distinct i⟩
    obtain ⟨x, hx, hkey⟩ := List.mem_map.mp hmem
    exact hnone i x hx hkey
  refine ⟨h.filed, h.follows, fun j x hx => ?_, fun j x hx => ?_, hdistinct, fun j k x hx y hy hkey => ?_,
    fun j e he => ?_, fun j k e he he' => ?_, fun j id old hold => ?_⟩
  · rcases hstints j x hx with hx | ⟨-, rfl⟩
    · exact h.foremost j x hx
    · exact hforemost
  · rcases hstints j x hx with hx | ⟨rfl, rfl⟩
    · exact h.opened j x hx
    · exact hopened
  · rcases hstints j x hx with hx | ⟨rfl, rfl⟩ <;> rcases hstints k y hy with hy | ⟨rfl, rfl⟩
    · exact h.apart j k x hx y hy hkey
    · exact absurd hkey (hnone j x hx)
    · exact absurd hkey.symm (hnone k y hy)
    · rfl
  · rw [(hrest j).1] at he
    exact h.unused j e he
  · rw [(hrest j).1] at he
    rw [(hrest k).1] at he'
    exact h.own j k e he he'
  · rw [(hrest j).2] at hold
    have hseen := h.seen j id old hold
    refine ⟨hseen.owner, hseen.line, hseen.settled, fun hsettled k x hx howner => ?_⟩
    rcases hstints k x hx with hx | ⟨-, rfl⟩
    · exact hseen.ahead hsettled k x hx howner
    · exact hahead j id old hold howner

/-! ## Storing an attempt that is there -/

/-- The line in the history of an attempt in hand. -/
theorem exists_line (h : Apart settled opened c q) (hl : l ∈ (q i).stints) (hsame : l.SameAttempt r) :
    ∃ old ∈ c.store.page r.instanceId, old.SameAttempt r := by
  obtain ⟨old, hold, hline⟩ := (h.foremost i l hl).mem
  rw [show (⟨l.owner⟩ : InstanceId) = r.instanceId from InstanceId.eq_iff.mpr hsame.owner] at hold
  exact ⟨old, hold, hline.sameAttempt hsame⟩

/-- The line in the history of an attempt that was read. -/
theorem exists_seen (h : Apart settled opened c q) {id : InstanceId} {latest : Record}
    (hread : (q i).read = some (id, some latest)) (hid : r.id = latest.id)
    (hinstance : r.instanceId = latest.instanceId) (hattempt : r.attempt = latest.attempt) :
    ∃ old ∈ c.store.page r.instanceId, old.SameAttempt r := by
  have hseen := h.seen i id latest hread
  obtain ⟨old, hold, hsame⟩ := hseen.line
  rw [← hseen.owner, ← hinstance] at hold
  refine ⟨old, hold, ?_, ?_, ?_⟩
  · rw [hsame.key, hid]
  · rw [hsame.owner, hinstance]
  · rw [hsame.attempt, hattempt]

/-- Storing a record of an attempt that is there keeps the calls apart, if the attempt is
    in nobody's hand afterwards or still not open to another. -/
theorem again (h : Apart settled opened c q) {old : Line} (hold : old ∈ c.store.page r.instanceId)
    (hsame : old.SameAttempt r) (happend : c.store.append r = .ok s')
    (hstints : ∀ j, (q' j).stints.Sublist (q j).stints)
    (hrest : ∀ j, (q' j).minted = (q j).minted ∧ (q' j).read = (q j).read)
    (hfinal : ∀ j, ∀ l ∈ (q' j).stints, l.key = r.id.text →
      r.finalStatus = none ∨ r.finalStatus = some .abandoned) :
    Apart settled opened { c with store := s' } q' := by
  obtain ⟨s'', happend', hfiled, hrevises⟩ := h.filed.append_again hold hsame
  cases happend.symm.trans happend'
  have hpage := hrevises.page
  have hrevised : ∀ {id l}, l ∈ c.store.page id → (c.store.revised r l).Same l :=
    fun hl => h.filed.revised_same hold hsame hl
  refine h.lesser hfiled (fun id l hl n hn hl' => ?_) hstints (fun j l hl => ?_) (fun j e he => ?_)
    (fun j id old hread => ?_)
  · rw [hpage] at hl
    obtain ⟨x, hx, rfl⟩ := List.mem_map.mp hl
    exact h.follows id x hx n hn ((hrevised hx).attempt.symm.trans hl')
  · refine (h.foremost j l ((hstints j).subset hl)).map (hpage _) (fun x hx => hrevised hx) fun x hx hxl => ?_
    unfold Store.revised
    split
    next hkey =>
      right
      rw [Store.final_again]
      rcases hfinal j l hl (hxl.key.symm.trans hkey) with hnone | habandoned
      · exact Or.inl (congrArg (Option.map Status.name) hnone)
      · exact Or.inr (congrArg (Option.map Status.name) habandoned)
    · exact Or.inl rfl
  · rw [(hrest j).1] at he
    have hunused := h.unused j e he
    refine ⟨he, hunused.issued, fun id l hl => ?_⟩
    rw [hpage] at hl
    obtain ⟨x, hx, rfl⟩ := List.mem_map.mp hl
    rw [(hrevised hx).key]
    exact hunused.fresh id x hx
  · rw [(hrest j).2] at hread
    have hseen := h.seen j id old hread
    obtain ⟨l, hl, hline⟩ := hseen.line
    have hkept := hrevised hl
    refine ⟨hseen.owner, ⟨c.store.revised r l, ?_, ?_⟩, hseen.settled, fun hsettled k l hl => ?_⟩
    · rw [hpage]
      exact List.mem_map_of_mem hl
    · exact hkept.sameAttempt hline
    · exact hseen.ahead hsettled k l ((hstints k).subset hl)

/-! ## Every move -/

/-- An identifier taken is nobody else's. -/
theorem mint (h : Apart settled opened c q) (hroom : c.issued < ExecutionId.room) :
    Apart settled opened { c with issued := c.issued + 1 }
      (Function.update q i { q i with minted := some (ExecutionId.numbered c.millis c.issued) }) := by
  generalize hq' : Function.update q i { q i with minted := some (ExecutionId.numbered c.millis c.issued) } = q'
  have hrest : ∀ j, (q' j).stints = (q j).stints ∧ (q' j).read = (q j).read := by
    subst hq'
    exact forall_and.mpr ⟨unchanged (f := Stance.stints) rfl, unchanged (f := Stance.read) rfl⟩
  have hminted : ∀ j, ∀ e ∈ (q' j).minted,
      (j ≠ i ∧ e ∈ (q j).minted) ∨ (j = i ∧ e = ExecutionId.numbered c.millis c.issued) := by
    rw [← hq']
    refine (Function.forall_update_iff q (p := fun j x => ∀ e ∈ x.minted,
      (j ≠ i ∧ e ∈ (q j).minted) ∨ (j = i ∧ e = ExecutionId.numbered c.millis c.issued))).mpr ⟨?_, ?_⟩
    · rintro e ⟨⟩
      exact Or.inr ⟨rfl, rfl⟩
    · exact fun j hj e he => Or.inl ⟨hj, he⟩
  have hnew : ∀ j, ExecutionId.numbered c.millis c.issued ∉ (q j).minted := by
    intro j hj
    obtain ⟨n, hn, heq⟩ := (h.unused j _ hj).issued
    have := ExecutionId.numbered_injective hroom (Nat.lt_trans hn hroom) heq
    omega
  refine ⟨h.filed.mono (Nat.le_succ _), h.follows, fun j => ?_, fun j => ?_, fun j => ?_, fun j k => ?_,
    fun j e he => ?_, fun j k e he he' => ?_, fun j id old hold => ?_⟩
  · rw [(hrest j).1]
    exact h.foremost j
  · rw [(hrest j).1]
    exact h.opened j
  · rw [(hrest j).1]
    exact h.distinct j
  · rw [(hrest j).1, (hrest k).1]
    exact h.apart j k
  · rcases hminted j e he with ⟨-, he⟩ | ⟨rfl, rfl⟩
    · obtain ⟨n, hn, heq⟩ := (h.unused j e he).issued
      exact ⟨⟨n, Nat.lt_succ_of_lt hn, heq⟩, (h.unused j e he).fresh⟩
    · exact ⟨⟨c.issued, Nat.lt_succ_self _, rfl⟩, h.filed.key_ne hroom⟩
  · rcases hminted j e he with ⟨-, he⟩ | ⟨rfl, rfl⟩ <;> rcases hminted k _ he' with ⟨-, he'⟩ | ⟨rfl, h'⟩
    · exact h.own j k e he he'
    · exact absurd (h' ▸ he) (hnew j)
    · exact absurd he' (hnew k)
    · rfl
  · rw [(hrest j).2] at hold
    have hseen := h.seen j id old hold
    refine ⟨hseen.owner, hseen.line, hseen.settled, fun hsettled k l hl => ?_⟩
    rw [(hrest k).1] at hl
    exact hseen.ahead hsettled k l hl

/-- Reading a latest record that is settled tells that no attempt of the instance is in
    hand. -/
theorem read (h : Apart settled opened c q) {id : InstanceId} {latest : Option Record}
    (hlatest : c.store.latest? id = .ok latest)
    (hsettled : ∀ id, ∀ l ∈ c.store.page id, l.Settled → ∀ n : Nat, l.attempt = n → settled id n) :
    Apart settled opened c (Function.update q i { q i with read := some (id, latest) }) := by
  generalize hq' : Function.update q i { q i with read := some (id, latest) } = q'
  have hrest : ∀ j, (q' j).stints = (q j).stints ∧ (q' j).minted = (q j).minted := by
    subst hq'
    exact forall_and.mpr ⟨unchanged (f := Stance.stints) rfl, unchanged (f := Stance.minted) rfl⟩
  have hreads : ∀ j id' r, (q' j).read = some (id', some r) →
      (q j).read = some (id', some r) ∨ (id' = id ∧ latest = some r) := by
    rw [← hq']
    refine (Function.forall_update_iff q (p := fun j x => ∀ id' r, x.read = some (id', some r) →
      (q j).read = some (id', some r) ∨ (id' = id ∧ latest = some r))).mpr ⟨?_, fun j _ _ _ h => Or.inl h⟩
    rintro id' r ⟨⟩
    exact Or.inr ⟨rfl, rfl⟩
  refine h.lesser h.filed h.follows (fun j => ?_) (fun j l hl => ?_) (fun j e he => ?_) (fun j id' r hr => ?_)
  · rw [(hrest j).1]
  · rw [(hrest j).1] at hl
    exact h.foremost j l hl
  · rw [(hrest j).2] at he
    exact ⟨he, h.unused j e he⟩
  · have hseen : Seen settled c.store q id' r := by
      rcases hreads j id' r hr with hr | ⟨rfl, rfl⟩
      · exact h.seen j id' r hr
      · obtain ⟨pre, old, hpage, htells⟩ := Store.page_of_latest?_some hlatest
        obtain ⟨howner, hsame⟩ := sameAttempt_of_tells h.filed hpage htells
        have hmem : old ∈ c.store.page id' := by simp [hpage]
        refine ⟨howner, ⟨old, hmem, hsame⟩, fun hr => ?_, fun hr k l hl howner => ?_⟩
        · exact hsettled id' old hmem (final_of_tells htells hr) r.attempt hsame.attempt
        · -- an attempt in hand would be the one that was read
          obtain ⟨pre', last, hlast, -, hopen⟩ := h.foremost k l hl
          rw [show (⟨l.owner⟩ : InstanceId) = id' from InstanceId.eq_iff.mpr howner, hpage] at hlast
          obtain ⟨-, heq⟩ := List.append_inj' hlast rfl
          cases heq
          rcases final_of_tells htells hr with hfinal | hfinal <;> rw [hfinal] at hopen <;> simp at hopen
    refine ⟨hseen.owner, hseen.line, hseen.settled, fun hr k l hl => ?_⟩
    rw [(hrest k).1] at hl
    exact hseen.ahead hr k l hl

theorem move (h : Apart settled opened c q) (hroom : c'.issued ≤ ExecutionId.room) {e : Option Event} {x : Stance}
    (hmove : Move c (q i) e c' x)
    (hsettled : ∀ id, ∀ l ∈ c.store.page id, l.Settled → ∀ n : Nat, l.attempt = n → settled id n)
    (hopened : ∀ l, l ∈ c'.store.page ⟨l.owner⟩ → (∀ y ∈ c.store.page ⟨l.owner⟩, y.key ≠ l.key) → l.final = none →
      opened i l) :
    Apart settled opened c' (Function.update q i x) := by
  cases hmove with
  | rest => rwa [Function.update_eq_self]
  | told e _ => rwa [Function.update_eq_self]
  | read hlatest => exact h.read hlatest hsettled
  | minted => exact h.mint hroom
  | marked hminted hread hnext _ happend => exact h.marked hminted hread hnext happend
  | @opened r latest s' hminted hread hnext hopen happend =>
    obtain ⟨hfiled, hgains, hattempt, hnone⟩ := h.append hminted hread hnext happend
    have hlast : s'.page r.instanceId = c.store.page r.instanceId ++ [Line.ofRecord r] := by
      rw [hgains.page, if_pos rfl]
    have hfinal : (Line.ofRecord r).final = none := congrArg (Option.map Status.name) hopen
    have hfresh := (h.unused i r.id hminted).fresh
    have hmarked := h.marked hminted hread hnext happend
    have hrest : ∀ j, (Function.update q i { q i with minted := none } j).stints = (q j).stints ∧
        (Function.update q i { q i with minted := none } j).read = (q j).read :=
      forall_and.mpr ⟨unchanged (f := Stance.stints) rfl, unchanged (f := Stance.read) rfl⟩
    have htaken := hmarked.take (i := i) (l := Line.ofRecord r) ?_ ?_ (fun j y hy hkey => ?_)
      fun j id old hold howner => ?_
    · rwa [Function.update_idem, Function.update_self] at htaken
    · exact ⟨_, _, hlast, .refl _, Or.inl hfinal⟩
    · have hmem : Line.ofRecord r ∈ s'.page r.instanceId := by simp [hlast]
      exact hopened (Line.ofRecord r) hmem (hfresh r.instanceId) hfinal
    · rw [(hrest j).1] at hy
      obtain ⟨last, hmem, hsame⟩ := (h.foremost j y hy).mem
      exact hfresh _ last hmem (hsame.key.trans hkey)
    · rw [(hrest j).2] at hold
      have hid : r.instanceId = id := InstanceId.eq_iff.mpr howner
      obtain ⟨l, hl, hsame⟩ := (h.seen j id old hold).line
      have hbound := (h.filed.numbered id).attempt_mem hl
      rw [hsame.attempt, ← hid] at hbound
      show (old.attempt : Int) < r.attempt
      omega
  | @noted r s' hmem hopen happend =>
    obtain ⟨old, hold, hsame⟩ := h.exists_line (r := r) hmem ⟨rfl, rfl, rfl⟩
    rw [Function.update_eq_self]
    exact h.again hold hsame happend (fun _ => .refl _) (fun _ => ⟨rfl, rfl⟩) fun _ _ _ _ => Or.inl hopen
  | @sealed r line s' hmem hline happend =>
    obtain ⟨old, hold, hsame⟩ := h.exists_line hmem hline
    generalize hq' : Function.update q i { q i with stints := (q i).stints.erase line } = q'
    have hrest : ∀ j, (q' j).minted = (q j).minted ∧ (q' j).read = (q j).read := by
      subst hq'
      exact forall_and.mpr ⟨unchanged (f := Stance.minted) rfl, unchanged (f := Stance.read) rfl⟩
    have hstints : ∀ j, (q' j).stints.Sublist (q j).stints := by
      rw [← hq']
      exact (Function.forall_update_iff q (p := fun j x => x.stints.Sublist (q j).stints)).mpr
        ⟨List.erase_sublist, fun _ _ => .refl _⟩
    have hgone : ∀ j, ∀ l ∈ (q' j).stints, l.key ≠ line.key := by
      rw [← hq']
      refine (Function.forall_update_iff q (p := fun j x => ∀ l ∈ x.stints, l.key ≠ line.key)).mpr
        ⟨fun l hl => ?_, fun j hj l hl hkey => hj (h.apart j i l hl line hmem hkey)⟩
      exact key_ne_of_mem_erase (h.distinct i) hmem hl
    exact h.again hold hsame happend hstints hrest fun j l hl hkey => absurd (hkey.trans hline.key.symm) (hgone j l hl)
  | abandoned hread _ hid hinstance hattempt hfinal happend =>
    obtain ⟨old, hold, hsame⟩ := h.exists_seen hread hid hinstance hattempt
    rw [Function.update_eq_self]
    exact h.again hold hsame happend (fun _ => .refl _) (fun _ => ⟨rfl, rfl⟩) fun _ _ _ _ => Or.inr hfinal

/-- What a move does to the store: nothing, another attempt at the end of its page, or
    another record of an attempt that is there, which is one in the call's hand or else
    one that it read open and abandons. -/
inductive Writes (c : Shared) (x : Stance) (s' : Store) : Prop
  | none : s' = c.store → Writes c x s'
  | new {r : Record} : c.store.Gains r s' → (∀ id, ∀ l ∈ c.store.page id, l.key ≠ r.id.text) →
      (r.finalStatus = none ∨ r.finalStatus = some .abandoned) → Writes c x s'
  | again {r : Record} {old : Line} : c.store.Revises r s' → old ∈ c.store.page r.instanceId → old.SameAttempt r →
      ((∃ line ∈ x.stints, line.SameAttempt r) ∨
        r.finalStatus = some .abandoned ∧ ∃ id latest, x.read = some (id, some latest) ∧ latest.finalStatus = none ∧
          latest.id = r.id) → Writes c x s'

theorem writes (h : Apart settled opened c q) {e : Option Event} {x : Stance} (hmove : Move c (q i) e c' x) :
    Writes c (q i) c'.store := by
  have hrevises : ∀ {r old s'}, c.store.append r = .ok s' → old ∈ c.store.page r.instanceId → old.SameAttempt r →
      c.store.Revises r s' := by
    intro r old s' happend hold hsame
    obtain ⟨s'', happend', -, hrevises⟩ := h.filed.append_again hold hsame
    cases happend.symm.trans happend'
    exact hrevises
  cases hmove with
  | rest => exact .none rfl
  | told e _ => exact .none rfl
  | read _ => exact .none rfl
  | minted => exact .none rfl
  | marked hminted hread hnext hfinal happend =>
    exact .new (h.append hminted hread hnext happend).2.1 (h.unused i _ hminted).fresh (Or.inr hfinal)
  | opened hminted hread hnext hopen happend =>
    exact .new (h.append hminted hread hnext happend).2.1 (h.unused i _ hminted).fresh (Or.inl hopen)
  | @noted r s' hmem _ happend =>
    obtain ⟨old, hold, hsame⟩ := h.exists_line (r := r) hmem ⟨rfl, rfl, rfl⟩
    exact .again (hrevises happend hold hsame) hold hsame (Or.inl ⟨_, hmem, rfl, rfl, rfl⟩)
  | sealed hmem hline happend =>
    obtain ⟨old, hold, hsame⟩ := h.exists_line hmem hline
    exact .again (hrevises happend hold hsame) hold hsame (Or.inl ⟨_, hmem, hline⟩)
  | abandoned hread hopen hid hinstance hattempt hfinal happend =>
    obtain ⟨old, hold, hsame⟩ := h.exists_seen hread hid hinstance hattempt
    exact .again (hrevises happend hold hsame) hold hsame (Or.inr ⟨hfinal, _, _, hread, hopen, hid.symm⟩)

/-- An attempt that a call takes in hand is a new one. -/
theorem stints_of (h : Apart settled opened c q) {e : Option Event} {x : Stance} (hmove : Move c (q i) e c' x)
    (hl : l ∈ x.stints) : l ∈ (q i).stints ∨ ∀ id, ∀ y ∈ c.store.page id, y.key ≠ l.key := by
  cases hmove with
  | opened hminted _ _ _ _ =>
    rcases List.mem_cons.mp hl with rfl | hl
    · exact Or.inr (h.unused i _ hminted).fresh
    · exact Or.inl hl
  | sealed _ _ _ => exact Or.inl (List.mem_of_mem_erase hl)
  | _ => exact Or.inl hl

/-- A line stays, as one of its attempt. -/
theorem exists_later (h : Apart settled opened c q) {e : Option Event} {x : Stance} (hmove : Move c (q i) e c' x)
    {id : InstanceId} (hl : l ∈ c.store.page id) : ∃ l' ∈ c'.store.page id, l'.Same l := by
  cases h.writes hmove with
  | none hstore =>
    rw [hstore]
    exact ⟨l, hl, .refl l⟩
  | new hgains _ _ =>
    refine ⟨l, ?_, .refl l⟩
    rw [hgains.page]
    split
    · exact List.mem_append_left _ hl
    · exact hl
  | again hrevises hold hsame _ =>
    rw [hrevises.page]
    exact ⟨_, List.mem_map_of_mem hl, h.filed.revised_same hold hsame hl⟩

end Apart

end Switchyard
