import Switchyard.Proofs.Engine.Frame
import Switchyard.Proofs.Store.Page

/-
  Switchyard.Proofs.History.Sound — pages in order, and what an append has to be like to
  keep them so.

  A history is `Filed` if every page is numbered from one and every line is its owner's
  and has an identifier that was given out and that no other line has. It is `Sound` if,
  besides, every attempt but the last of its page is over and open to another
  (`Orderly`).

  - `Filed.append_new`, `Filed.append_again`: the two ways in which a record is stored.
  - `Filed.append_taken`: the one in which it is refused.
  - `Sound.append_new`, `Sound.append_again`: the same at the end of a page in order.
  - `meets_append`, `meets_stored`: what storing a record does to the core of a world.
-/

namespace Switchyard

/-! ## Pages in order -/

def Numbered (page : List Line) : Prop :=
  page.map (·.attempt) = (List.range page.length).map fun i : Nat => (i : Int) + 1

/-- Attempts numbered from one, each but the last sealed `failed` or `stopped`. -/
structure Orderly (page : List Line) : Prop where
  numbered : page.map (·.attempt) = (List.range page.length).map fun i : Nat => (i : Int) + 1
  settled : ∀ l ∈ page.dropLast, l.final = some "FAILED" ∨ l.final = some "STOPPED"

structure Line.Same (l l' : Line) : Prop where
  key : l.key = l'.key
  owner : l.owner = l'.owner
  attempt : l.attempt = l'.attempt

namespace Line.Same

variable {l l' l'' : Line} {r : Record}

theorem refl (l : Line) : l.Same l := ⟨rfl, rfl, rfl⟩

theorem trans (h : l.Same l') (h' : l'.Same l'') : l.Same l'' :=
  ⟨h.key.trans h'.key, h.owner.trans h'.owner, h.attempt.trans h'.attempt⟩

theorem sameAttempt (h : l.Same l') (h' : l'.SameAttempt r) : l.SameAttempt r :=
  ⟨h.key.trans h'.key, h.owner.trans h'.owner, h.attempt.trans h'.attempt⟩

theorem of_sameAttempt (h : l.SameAttempt r) (h' : l'.SameAttempt r) : l.Same l' :=
  ⟨h.key.trans h'.key.symm, h.owner.trans h'.owner.symm, h.attempt.trans h'.attempt.symm⟩

end Line.Same

namespace Numbered

variable {page pre : List Line} {l old : Line}

theorem nil : Numbered [] := rfl

theorem attempt_of_getElem? (h : Numbered page) {i : Nat} (hl : page[i]? = some l) : l.attempt = i + 1 := by
  obtain ⟨hi, rfl⟩ := List.getElem?_eq_some_iff.mp hl
  have hmap := congrArg (·[i]?) h
  simpa [hi] using hmap

theorem pairwise (h : Numbered page) : page.Pairwise fun a b => a.attempt < b.attempt := by
  refine List.pairwise_iff_getElem.mpr fun i j hi hj hij => ?_
  rw [h.attempt_of_getElem? (List.getElem?_eq_getElem hi), h.attempt_of_getElem? (List.getElem?_eq_getElem hj)]
  omega

theorem attempt_mem (h : Numbered page) (hl : l ∈ page) : 1 ≤ l.attempt ∧ l.attempt ≤ page.length := by
  obtain ⟨i, hi, rfl⟩ := List.mem_iff_getElem.mp hl
  rw [h.attempt_of_getElem? (List.getElem?_eq_getElem hi)]
  omega

/-- Every number up to the last one is an attempt's. -/
theorem exists_attempt (h : Numbered page) {n : Nat} (hn : 1 ≤ n) (hlast : n ≤ page.length) :
    ∃ l ∈ page, l.attempt = n := by
  have hi : n - 1 < page.length := by omega
  refine ⟨page[n - 1], List.getElem_mem hi, ?_⟩
  rw [h.attempt_of_getElem? (List.getElem?_eq_getElem hi)]
  omega

theorem attempt_last (h : Numbered (pre ++ [old])) : old.attempt = pre.length + 1 :=
  h.attempt_of_getElem? (by simp)

theorem last_not_mem (h : Numbered (pre ++ [old])) : old ∉ pre := by
  intro hmem
  have := (List.pairwise_append.mp h.pairwise).2.2 old hmem old List.mem_cons_self
  omega

theorem snoc (h : Numbered page) (hattempt : l.attempt = page.length + 1) : Numbered (page ++ [l]) := by
  unfold Numbered at h ⊢
  simp [List.range_succ, h, hattempt]

/-- Lines may change as long as they keep their numbers. -/
theorem map (h : Numbered page) {f : Line → Line} (hf : ∀ l ∈ page, (f l).attempt = l.attempt) :
    Numbered (page.map f) := by
  unfold Numbered at h ⊢
  rw [List.map_map, List.length_map, ← h]
  exact List.map_congr_left hf

end Numbered

/-- Before another attempt, every one is over, if the last one is. -/
theorem Orderly.settled_snoc {page : List Line} {l : Line} (h : Orderly page)
    (hlast : ∀ last ∈ page.getLast?, last.final = some "FAILED" ∨ last.final = some "STOPPED") :
    ∀ x ∈ (page ++ [l]).dropLast, x.final = some "FAILED" ∨ x.final = some "STOPPED" := by
  intro x hx
  rw [List.dropLast_concat] at hx
  rcases List.eq_nil_or_concat page with rfl | ⟨pre, last, rfl⟩
  · cases hx
  · rw [List.concat_eq_append] at hx hlast
    rcases List.mem_append.mp hx with hx | hx
    · exact h.settled x (by simpa using hx)
    · exact hlast x (by simpa using (List.mem_singleton.mp hx).symm)

/-! ## Filed histories -/

structure Shared where
  store : Store
  millis : Nat
  issued : Nat

abbrev Core.shared (c : Core) : Shared := { store := c.store, millis := c.millis, issued := c.issued }

structure Filed (c : Shared) : Prop where
  numbered : ∀ id, Numbered (c.store.page id)
  owner : ∀ id, ∀ l ∈ c.store.page id, l.owner = id.text
  issued : ∀ id, ∀ l ∈ c.store.page id, ∃ n < c.issued, l.key = (ExecutionId.numbered c.millis n).text
  single : ∀ id id', ∀ l ∈ c.store.page id, ∀ l' ∈ c.store.page id', l.key = l'.key → l = l'

namespace Filed

variable {c : Shared} {r : Record} {id id' : InstanceId} {l l' : Line}

theorem key_ne (h : Filed c) (hroom : c.issued < ExecutionId.room) (id : InstanceId) :
    ∀ l ∈ c.store.page id, l.key ≠ (ExecutionId.numbered c.millis c.issued).text := by
  intro l hl heq
  obtain ⟨n, hn, hkey⟩ := h.issued id l hl
  have hid := ExecutionId.text_injective (hkey.symm.trans heq)
  have := ExecutionId.numbered_injective (Nat.lt_trans hn hroom) hroom hid
  omega

/-- More identifiers may have been given out. -/
theorem mono (h : Filed c) {issued : Nat} (hissued : c.issued ≤ issued) : Filed { c with issued } := by
  refine ⟨h.numbered, h.owner, fun id l hl => ?_, h.single⟩
  obtain ⟨n, hn, hkey⟩ := h.issued id l hl
  exact ⟨n, Nat.lt_of_lt_of_le hn hissued, hkey⟩

/-- An identifier stands on one page only. -/
theorem id_eq (h : Filed c) (hl : l ∈ c.store.page id) (hl' : l' ∈ c.store.page id') (hkey : l.key = l'.key) :
    id = id' := by
  obtain rfl := h.single id id' l hl l' hl' hkey
  exact InstanceId.eq_iff.mpr ((h.owner id l hl).symm.trans (h.owner id' l hl'))

/-- The lines of one instance with one number are one. -/
theorem eq_of_attempt (h : Filed c) (hl : l ∈ c.store.page id) (hl' : l' ∈ c.store.page id)
    (hattempt : l.attempt = l'.attempt) : l = l' := by
  obtain ⟨i, hi⟩ := List.getElem?_of_mem hl
  obtain ⟨j, hj⟩ := List.getElem?_of_mem hl'
  have hli := (h.numbered id).attempt_of_getElem? hi
  have hlj := (h.numbered id).attempt_of_getElem? hj
  obtain rfl : i = j := by omega
  exact Option.some.inj (hi.symm.trans hj)

/-- A record under an identifier that no line has, with the next attempt number, goes to
    the end of its instance's page. -/
theorem append_new (h : Filed c) {n : Nat} (hn : n < c.issued) (hid : r.id = ExecutionId.numbered c.millis n)
    (hfresh : ∀ id, ∀ l ∈ c.store.page id, l.key ≠ r.id.text)
    (hattempt : r.attempt = (c.store.page r.instanceId).length + 1) :
    ∃ s', c.store.append r = .ok s' ∧ Filed { c with store := s' } ∧ c.store.Gains r s' := by
  have hnext : ∀ l ∈ c.store.page r.instanceId, l.attempt < r.attempt := by
    intro l hl
    have := (h.numbered r.instanceId).attempt_mem hl
    omega
  obtain ⟨s', happend, hgains⟩ := Store.append_new (by omega) hfresh (h.numbered r.instanceId).pairwise hnext
  have hpage := hgains.page
  have hmem : ∀ id, ∀ l ∈ s'.page id, l ∈ c.store.page id ∨ (id = r.instanceId ∧ l = Line.ofRecord r) := by
    intro id l hl
    rw [hpage] at hl
    split at hl
    next hid =>
      rcases List.mem_append.mp hl with hl | hl
      · exact Or.inl hl
      · exact Or.inr ⟨hid, List.mem_singleton.mp hl⟩
    · exact Or.inl hl
  refine ⟨s', happend, ⟨fun id => ?_, fun id l hl => ?_, fun id l hl => ?_, fun id id' l hl l' hl' heq => ?_⟩, hgains⟩
  · show Numbered (s'.page id)
    rw [hpage]
    split
    next hid =>
      subst hid
      exact (h.numbered _).snoc (by simp [Line.ofRecord, Line.ofRow, Row.ofRecord, Row.ofRecordIn, hattempt])
    · exact h.numbered id
  · rcases hmem id l hl with hl | ⟨rfl, rfl⟩
    · exact h.owner id l hl
    · rfl
  · rcases hmem id l hl with hl | ⟨rfl, rfl⟩
    · exact h.issued id l hl
    · exact ⟨n, hn, congrArg ExecutionId.text hid⟩
  · rcases hmem id l hl with hl | ⟨rfl, rfl⟩ <;> rcases hmem id' l' hl' with hl' | ⟨rfl, rfl⟩
    · exact h.single id id' l hl l' hl' heq
    · exact absurd heq (hfresh id l hl)
    · exact absurd heq.symm (hfresh id' l' hl')
    · rfl

/-- A record under an identifier that no line has is refused if its instance has its
    attempt number already. -/
theorem append_taken (h : Filed c) (hfresh : ∀ id, ∀ l ∈ c.store.page id, l.key ≠ r.id.text)
    (hone : 1 ≤ r.attempt) (htaken : r.attempt ≤ (c.store.page r.instanceId).length) {s' : Store} :
    c.store.append r ≠ .ok s' := by
  obtain ⟨l, hl, hattempt⟩ := (h.numbered r.instanceId).exists_attempt hone htaken
  exact Store.append_taken hfresh hl hattempt

/-- A line stays one of its attempt. -/
theorem revised_same (h : Filed c) {old : Line} (hold : old ∈ c.store.page r.instanceId) (hsame : old.SameAttempt r)
    (hl : l ∈ c.store.page id) : (c.store.revised r l).Same l := by
  unfold Store.revised
  split
  next hkey =>
    obtain rfl := h.single id _ l hl old hold (hkey.trans hsame.key.symm)
    exact .of_sameAttempt (Store.again_sameAttempt hsame) hsame
  · exact .refl l

/-- A record whose attempt has a line changes that line only. -/
theorem append_again (h : Filed c) {old : Line} (hold : old ∈ c.store.page r.instanceId) (hsame : old.SameAttempt r) :
    ∃ s', c.store.append r = .ok s' ∧ Filed { c with store := s' } ∧ c.store.Revises r s' := by
  have hone : 1 ≤ r.attempt := by
    have := (h.numbered r.instanceId).attempt_mem hold
    have := hsame.attempt
    omega
  obtain ⟨s', happend, hrevises⟩ := Store.append_again hone hold hsame.key fun id l hl hkey =>
    h.id_eq hl hold (hkey.trans hsame.key.symm)
  have hpage := hrevises.page
  have hmem : ∀ id, ∀ l ∈ s'.page id, ∃ x ∈ c.store.page id, l.Same x ∧ l = c.store.revised r x := by
    intro id l hl
    rw [hpage] at hl
    obtain ⟨x, hx, rfl⟩ := List.mem_map.mp hl
    exact ⟨x, hx, h.revised_same hold hsame hx, rfl⟩
  refine ⟨s', happend, ⟨fun id => ?_, fun id l hl => ?_, fun id l hl => ?_, fun id id' l hl l' hl' heq => ?_⟩, hrevises⟩
  · show Numbered (s'.page id)
    rw [hpage]
    exact (h.numbered id).map fun l hl => (h.revised_same hold hsame hl).attempt
  · obtain ⟨x, hx, hsame, -⟩ := hmem id l hl
    rw [hsame.owner]
    exact h.owner id x hx
  · obtain ⟨x, hx, hsame, -⟩ := hmem id l hl
    rw [hsame.key]
    exact h.issued id x hx
  · obtain ⟨x, hx, hsame, rfl⟩ := hmem id l hl
    obtain ⟨x', hx', hsame', rfl⟩ := hmem id' l' hl'
    rw [h.single id id' x hx x' hx' (hsame.key.symm.trans (heq.trans hsame'.key))]

end Filed

/-! ## Sound histories -/

structure Sound (c : Core) : Prop extends Filed c.shared where
  settled : ∀ id, ∀ l ∈ (c.store.page id).dropLast, l.final = some "FAILED" ∨ l.final = some "STOPPED"

namespace Sound

variable {c : Core} {r : Record}

theorem orderly (h : Sound c) (id : InstanceId) : Orderly (c.store.page id) := ⟨h.numbered id, h.settled id⟩

theorem with_running (h : Sound c) (running : Dict Token) : Sound { c with running } := ⟨h.toFiled, h.settled⟩

theorem mono (h : Sound c) {issued : Nat} (hissued : c.issued ≤ issued) : Sound { c with issued } :=
  ⟨h.toFiled.mono hissued, h.settled⟩

theorem append_new (h : Sound c) {n : Nat} (hn : n < c.issued) (hid : r.id = ExecutionId.numbered c.millis n)
    (hfresh : ∀ id, ∀ l ∈ c.store.page id, l.key ≠ r.id.text)
    (hlast : ∀ last ∈ (c.store.page r.instanceId).getLast?, last.final = some "FAILED" ∨ last.final = some "STOPPED")
    (hattempt : r.attempt = (c.store.page r.instanceId).length + 1) :
    ∃ s', c.store.append r = .ok s' ∧ Sound { c with store := s' } ∧ c.store.Gains r s' := by
  obtain ⟨s', happend, hfiled, hgains⟩ := h.toFiled.append_new hn hid hfresh hattempt
  refine ⟨s', happend, ⟨hfiled, fun id => ?_⟩, hgains⟩
  show ∀ l ∈ (s'.page id).dropLast, _
  rw [hgains.page]
  split
  next hid =>
    subst hid
    exact (h.orderly _).settled_snoc hlast
  · exact h.settled id

/-- A record of the last attempt of its instance changes what is kept of that. -/
theorem append_again (h : Sound c) {pre : List Entry} {x : Entry} (hentries : c.store.entries r.instanceId = pre ++ [x])
    (hsame : x.line.SameAttempt r) :
    ∃ s', c.store.append r = .ok s' ∧ Sound { c with store := s' } ∧
      ∀ id, s'.entries id = if id = r.instanceId then pre ++ [x.revised r] else c.store.entries id := by
  have hmem : x.line ∈ c.store.page r.instanceId := Store.line_mem_page (by simp [hentries])
  have hnumbered := h.numbered r.instanceId
  rw [Store.page_eq_concat hentries] at hnumbered
  obtain ⟨s', happend, hfiled, hrevises⟩ := h.toFiled.append_again hmem hsame
  have hentries' : ∀ id, s'.entries id = if id = r.instanceId then pre ++ [x.revised r] else c.store.entries id := by
    intro id
    rw [hrevises id]
    split
    next hid =>
      subst hid
      have hpre : pre.map (Entry.revised r) = pre := by
        refine map_eq_self fun y hy => Entry.revised_of_ne fun hkey => hnumbered.last_not_mem ?_
        have hy' : y.line ∈ c.store.page r.instanceId := Store.line_mem_page (by simp [hentries, hy])
        rw [← h.single _ _ _ hy' _ hmem (hkey.trans hsame.key.symm)]
        exact List.mem_map_of_mem hy
      rw [hentries, List.map_append, hpre, List.map_singleton]
    next hid =>
      refine map_eq_self fun y hy => Entry.revised_of_ne fun hkey => hid ?_
      exact h.toFiled.id_eq (Store.line_mem_page hy) hmem (hkey.trans hsame.key.symm)
  refine ⟨s', happend, ⟨hfiled, fun id => ?_⟩, hentries'⟩
  show ∀ l ∈ (s'.page id).dropLast, _
  have hsettled := h.settled id
  rw [Store.page_eq, hentries']
  split
  next hid =>
    subst hid
    rw [Store.page_eq, hentries] at hsettled
    simpa using hsettled
  · rwa [Store.page_eq] at hsettled

end Sound

/-! ## Storing a record -/

variable {σ : Type}

/-- Storing a record either leaves the core alone or puts the record into the store. -/
theorem meets_append {I : World σ → Prop} {Q : Except Halt (Except StoreError Unit) → World σ → Prop} {r : Record}
    {w : World σ}
    (hrefused : ∀ w', w'.core = w.core → I w' ∧ ∀ x, (∀ u, x ≠ .ok (.ok u)) → Q x w')
    (hstored : ∀ s' w', w.core.store.append r = .ok s' → w'.core = { w.core with store := s' } →
      I w' ∧ Q (.ok (.ok ())) w') : (Act.append r).Meets I Q w := by
  simp only [Act.append, Act.meets_bind, Act.call, Act.meets_update]
  simp only [Repository.append, Repository.call]
  cases w.repository.faults .append _ with
  | some e =>
    obtain ⟨hI, hQ⟩ := hrefused { w with repository := { w.repository with
      counts := (w.repository.counts.next .append).2 } } rfl
    exact ⟨hI, hQ _ (fun _ h => by cases h)⟩
  | none =>
    dsimp only
    cases happend : w.repository.store.append r with
    | ok s' =>
      exact hstored s' { w with repository := { w.repository with
        counts := (w.repository.counts.next .append).2, store := s' } } happend rfl
    | error e =>
      obtain ⟨hI, hQ⟩ := hrefused { w with repository := { w.repository with
        counts := (w.repository.counts.next .append).2 } } rfl
      cases e with
      | refused e => exact ⟨hI, hQ _ (fun _ h => by cases h)⟩
      | unwritable => exact ⟨hI, hQ _ (fun _ h => by cases h)⟩

/-- Storing a record and then seeing to the live views does no more to the core than
    storing it. -/
theorem meets_stored {I : World σ → Prop} {Q : Except Halt (Except CheckpointError Unit) → World σ → Prop} {r : Record}
    {w : World σ} {f : World σ → World σ} (hf : ∀ w, (f w).core = w.core)
    (hrefused : ∀ w', w'.core = w.core → I w' ∧ ∀ x, x ≠ .ok (.ok ()) → Q x w')
    (hstored : ∀ s' w', w.core.store.append r = .ok s' → w'.core = { w.core with store := s' } →
      I w' ∧ Q (.ok (.ok ())) w') :
    (do
      match ← Checkpoint.persist r with
      | .ok () =>
        Act.change f
        return .ok ()
      | .error e => return .error e : Act σ (Except CheckpointError Unit)).Meets I Q w := by
  simp only [Checkpoint.persist, bind_assoc, Act.meets_bind]
  refine meets_append (fun w' hcore => ?_) (fun s' w' happend hcore => ?_)
  · obtain ⟨hI, hQ⟩ := hrefused w' hcore
    refine ⟨hI, fun x hx => ?_⟩
    rcases x with halt | e | u
    · exact hQ _ (by rintro ⟨⟩)
    · exact hQ _ (by rintro ⟨⟩)
    · exact absurd rfl (hx u)
  · exact ⟨(hstored s' w' happend hcore).1, hstored s' (f w') happend ((hf w').trans hcore)⟩

end Switchyard
