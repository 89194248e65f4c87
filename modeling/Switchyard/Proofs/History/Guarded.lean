import Switchyard.Engine.Runner
import Switchyard.Proofs.Flow.Start
import Switchyard.Proofs.History.Sound

/-
  Switchyard.Proofs.History.Guarded — what is stored of a claimed instance changes by its
  own attempt only, and whatever is asked of a runner keeps the history sound.

  `Guarded` is what every action of a runner keeps: the schedule of faults stays, claims
  that are held stay with their tokens, and, while identifiers last, the history is sound
  and whatever is so of the entries of held instances stays so. An attempt adds itself to
  the holds of the runs it is nested in as soon as its record is opened, and leaves when
  it is sealed or broken off; its checkpoints change the record that is kept of it, but
  not its line (`Hold.ofRecord`, `Hold.ofLine`).

  - `meets_opening`, `keeps_abandoning`: what opening an attempt and abandoning one do to the
    core, whatever is to be kept of it.
  - `meets_begin?`, `meets_drive`: an attempt opened, and walked to its end.
  - `keeps_abandon`: abandoning, in place or by another attempt.
  - `keeps_run`, `keeps_request`: by induction on the levels that runs nest.
-/

namespace Switchyard

/-- An instance whose claim is held, and what is so of all that is stored of it. -/
structure Hold where
  id : InstanceId
  token : Token
  stored : List Entry → Prop

def Hold.ofLine (id : InstanceId) (token : Token) (line : Line) : Hold :=
  ⟨id, token, fun es => ∃ x ∈ es.getLast?, x.line = line⟩

def Hold.ofRecord (id : InstanceId) (token : Token) (r : Record) : Hold :=
  ⟨id, token, fun es => ∃ x ∈ es.getLast?, x.Of r⟩

/-- What a runner's actions keep of the core while these claims are held. -/
structure Guarded (faults : Method → Nat → Option StoreError) (holds : List Hold) (c : Core) : Prop where
  faults : c.faults = faults
  claimed : ∀ h ∈ holds, c.running.get? h.id.text = some h.token
  sound : c.issued ≤ ExecutionId.room → Sound c ∧ ∀ h ∈ holds, h.stored (c.store.entries h.id)

variable {σ α : Type} {faults : Method → Nat → Option StoreError} {holds : List Hold} {c : Core}

namespace Guarded

theorem of_cons {hold : Hold} (h : Guarded faults (hold :: holds) c) : Guarded faults holds c :=
  ⟨h.faults, fun x hx => h.claimed x (List.mem_cons_of_mem _ hx), fun hroom =>
    ⟨(h.sound hroom).1, fun x hx => (h.sound hroom).2 x (List.mem_cons_of_mem _ hx)⟩⟩

/-- An attempt keeps its line along with its record. -/
theorem ofLine {id : InstanceId} {t : Token} {r : Record} (h : Guarded faults (.ofRecord id t r :: holds) c) :
    Guarded faults (.ofLine id t (Line.ofRecord r) :: holds) c := by
  refine ⟨h.faults, List.forall_mem_cons.mpr (List.forall_mem_cons.mp h.claimed), fun hroom => ?_⟩
  obtain ⟨hsound, hstored⟩ := h.sound hroom
  obtain ⟨⟨x, hx, hof⟩, hrest⟩ := List.forall_mem_cons.mp hstored
  exact ⟨hsound, List.forall_mem_cons.mpr ⟨⟨x, hx, hof.line_eq⟩, hrest⟩⟩

/-- Another identifier is given out. -/
theorem issue (h : Guarded faults holds c) : Guarded faults holds { c with issued := c.issued + 1 } := by
  refine ⟨h.faults, h.claimed, fun hroom => ?_⟩
  have hroom : c.issued + 1 ≤ ExecutionId.room := hroom
  obtain ⟨hsound, hpages⟩ := h.sound (by omega)
  exact ⟨hsound.mono (Nat.le_succ _), hpages⟩

/-- An append to what is stored of an instance that is not held. -/
theorem append (h : Guarded faults holds c) {s' : Store} {id : InstanceId} (es : List Entry)
    (hne : ∀ x ∈ holds, x.id ≠ id)
    (hsound : c.issued ≤ ExecutionId.room → Sound { c with store := s' } ∧
      ∀ i, s'.entries i = if i = id then es else c.store.entries i) :
    Guarded faults holds { c with store := s' } := by
  refine ⟨h.faults, h.claimed, fun hroom => ?_⟩
  obtain ⟨hsound, hentries⟩ := hsound hroom
  refine ⟨hsound, fun x hx => ?_⟩
  show x.stored (s'.entries x.id)
  rw [hentries, if_neg (hne x hx)]
  exact (h.sound hroom).2 x hx

/-- A claim is taken. -/
theorem claim (h : Guarded faults holds c) {id : InstanceId} {t : Token} (hfree : c.running.contains id.text = false) :
    (∀ x ∈ holds, x.id ≠ id) ∧ Guarded faults holds { c with running := c.running.insert id.text t } := by
  have hne : ∀ x ∈ holds, x.id ≠ id := by
    rintro x hx rfl
    simp [Dict.contains, h.claimed x hx] at hfree
  refine ⟨hne, h.faults, fun x hx => ?_, fun hroom => ?_⟩
  · rw [← h.claimed x hx]
    exact Dict.get?_insert_of_ne _ (InstanceId.text_ne (hne x hx)) _
  · obtain ⟨hsound, hpages⟩ := h.sound hroom
    exact ⟨hsound.with_running _, hpages⟩

/-- A claim is given back. -/
theorem release (h : Guarded faults holds c) {id : InstanceId} (hne : ∀ x ∈ holds, x.id ≠ id) :
    Guarded faults holds { c with running := c.running.erase id.text } := by
  refine ⟨h.faults, fun x hx => ?_, fun hroom => ?_⟩
  · rw [← h.claimed x hx]
    exact Dict.get?_erase_of_ne _ (InstanceId.text_ne (hne x hx))
  · obtain ⟨hsound, hpages⟩ := h.sound hroom
    exact ⟨hsound.with_running _, hpages⟩

end Guarded

/-! ## Single steps of a runner -/

section Steps

variable {I : World σ → Prop} {w : World σ}

theorem meets_now {Q : Except Halt Instant → World σ → Prop}
    (h : ∀ t w', w'.core = w.core → I w' ∧ Q (.ok t) w') : (Act.now : Act σ Instant).Meets I Q w :=
  Act.meets_update.mpr (h _ _ rfl)

theorem meets_freshId {Q : Except Halt ExecutionId → World σ → Prop}
    (h : ∀ w', w'.core = { w.core with issued := w.core.issued + 1 } →
      I w' ∧ Q (.ok (ExecutionId.numbered w.core.millis w.core.issued)) w') :
    (Act.freshId : Act σ ExecutionId).Meets I Q w :=
  Act.meets_update.mpr (h _ rfl)

theorem meets_loadLatest {Q : Except Halt (Except StoreError (Option Record)) → World σ → Prop} {id : InstanceId}
    (h : ∀ x w', w'.core = w.core → (∀ latest, x = .ok latest → w.core.store.latest? id = .ok latest) →
      I w' ∧ Q (.ok x) w') : (Act.loadLatest id : Act σ _).Meets I Q w := by
  simp only [Act.loadLatest, Act.call, Act.meets_update, Repository.loadLatest, Repository.call]
  cases w.repository.faults .loadLatest _ with
  | some e => exact h (.error e) _ rfl fun _ h => by cases h
  | none => exact h _ _ rfl fun _ h => h

end Steps

/-! ## Opening an attempt -/

theorem final_of_tells {l : Line} {r : Record} (h : l.Tells r)
    (hopen : r.finalStatus = some .failed ∨ r.finalStatus = some .stopped) :
    l.final = some "FAILED" ∨ l.final = some "STOPPED" := by
  rw [h.final]
  exact hopen.imp (fun h => by rw [h]; rfl) (fun h => by rw [h]; rfl)

/-- The last line of an instance's page is the one of the record read as its latest. -/
theorem sameAttempt_of_tells {c : Shared} (hfiled : Filed c) {id : InstanceId} {pre : List Line} {old : Line}
    {latest : Record} (hpage : c.store.page id = pre ++ [old]) (htells : old.Tells latest) :
    latest.instanceId = id ∧ old.SameAttempt latest := by
  have hmem : old ∈ c.store.page id := by simp [hpage]
  obtain ⟨n, -, hkey⟩ := hfiled.issued id old hmem
  have hid : latest.id = ExecutionId.numbered c.millis n := by
    have := htells.key
    rw [hkey, ExecutionId.parse?_text] at this
    exact (Option.some.inj this).symm
  refine ⟨InstanceId.eq_iff.mpr (htells.owner.symm.trans (hfiled.owner id old hmem)), ?_, htells.owner, htells.attempt⟩
  rw [hid, hkey]

def NextAfter (latest : Option Record) (n : Nat) : Prop :=
  match latest with
  | none => n = 1
  | some r => (r.finalStatus = some .failed ∨ r.finalStatus = some .stopped) ∧ n = r.attempt + 1

theorem next_attempt (hsound : Sound c) {id : InstanceId} {latest : Option Record} {n : Nat}
    (hlatest : c.store.latest? id = .ok latest) (hnext : NextAfter latest n) :
    (∀ last ∈ (c.store.page id).getLast?, last.final = some "FAILED" ∨ last.final = some "STOPPED") ∧
      n = (c.store.page id).length + 1 := by
  cases latest with
  | none =>
    rw [Store.page_of_latest?_none hlatest]
    exact ⟨by simp, hnext⟩
  | some r =>
    obtain ⟨pre, old, hpage, htells⟩ := Store.page_of_latest?_some hlatest
    obtain ⟨hopen, rfl⟩ := hnext
    have horder := hsound.numbered id
    rw [hpage] at horder ⊢
    have hattempt := horder.attempt_last
    rw [htells.attempt] at hattempt
    refine ⟨fun last hlast => ?_, ?_⟩
    · rw [List.getLast?_concat] at hlast
      cases hlast
      exact final_of_tells htells hopen
    · rw [List.length_append]
      simp only [List.length_cons, List.length_nil]
      omega

/-- The record of a next attempt, under an identifier just given out, goes to the end of
    what is stored of its instance. -/
theorem append_next (hsound : Sound c) (hroom : c.issued < ExecutionId.room) {latest : Option Record} {r : Record}
    (hlatest : c.store.latest? r.instanceId = .ok latest) (hnext : NextAfter latest r.attempt)
    (hid : r.id = ExecutionId.numbered c.millis c.issued) :
    ∃ s', c.store.append r = .ok s' ∧ Sound { c with issued := c.issued + 1, store := s' } ∧ c.store.Gains r s' := by
  obtain ⟨hlast, hattempt⟩ := next_attempt hsound hlatest hnext
  have hfresh : ∀ i, ∀ l ∈ c.store.page i, l.key ≠ r.id.text := by
    rw [hid]
    exact hsound.key_ne hroom
  exact (hsound.mono (Nat.le_succ c.issued)).append_new (Nat.lt_succ_self _) hid hfresh hlast hattempt

theorem nextAfter_of_resolve {latest : Option Record} {g : Graph} {restartable : Bool} {point : StartPoint}
    (h : StartPoint.resolve latest g restartable = .ok point) : NextAfter latest point.attempt := by
  have h := StartPoint.resolve_eq_ok_iff.mp h
  cases latest with
  | none =>
    subst h
    rfl
  | some r =>
    obtain ⟨hopen, -, -, -, rfl⟩ := h
    exact ⟨hopen, rfl⟩

/-- To open an attempt is to take an identifier and to append the next record under it. -/
theorem meets_opening {I : Core → Prop} {O : Record → Core → Prop} {w : World σ} (hw : On I w)
    (hissued : I { w.core with issued := w.core.issued + 1 }) (hI : ∀ r c, O r c → I c) (d : Definition)
    (id : InstanceId) (parameters : Parameters)
    (hopened : ∀ latest r s', r.instanceId = id → r.finalStatus = none → w.core.store.latest? id = .ok latest →
      NextAfter latest r.attempt → r.id = ExecutionId.numbered w.core.millis w.core.issued →
      w.core.store.append r = .ok s' → O r { w.core with issued := w.core.issued + 1, store := s' }) :
    (Runner.begin? d id parameters).Meets (On I)
      (fun x w' => On I w' ∧ ∀ start r, x = .ok (.ok (start, r)) → On (O r) w') w := by
  refine Act.meets_bind.mpr (meets_loadLatest fun latest w₁ hcore₁ hlatest => ?_)
  have hw₁ : On I w₁ := by rwa [On, hcore₁]
  refine ⟨hw₁, ?_⟩
  rcases latest with e | latest
  · exact ⟨hw₁, by rintro _ _ ⟨⟩⟩
  simp only [Act.Then]
  split
  next e he => cases e <;> exact ⟨hw₁, by rintro _ _ ⟨⟩⟩
  next point hpoint =>
    refine Act.meets_bind.mpr (meets_freshId fun w₂ hcore₂ => ?_)
    have hw₂ : On I w₂ := by rwa [On, hcore₂, hcore₁]
    refine ⟨hw₂, Act.meets_bind.mpr (meets_now fun now w₃ hcore₃ => ?_)⟩
    have hcore : w₃.core = { w.core with issued := w.core.issued + 1 } := by rw [hcore₃, hcore₂, hcore₁]
    have hw₃ : On I w₃ := by rwa [On, hcore]
    refine ⟨hw₃, Act.meets_bind.mpr (meets_stored (fun _ => rfl) (fun w' hw' => ?_) (fun s' w' happend hw' => ?_))⟩
    · have hw' : On I w' := by rwa [On, hw']
      refine ⟨hw', fun x hx => ?_⟩
      rcases x with halt | e | u
      · exact ⟨hw', by rintro _ _ ⟨⟩⟩
      · exact ⟨hw', by rintro _ _ ⟨⟩⟩
      · exact absurd rfl hx
    · rw [hcore] at happend hw'
      rw [hcore₁] at happend ⊢
      generalize hr : Record.start _ _ _ _ _ _ _ = r at happend ⊢
      have hnext : NextAfter latest r.attempt := by
        rw [← hr]
        exact nextAfter_of_resolve hpoint
      have hopened : On (O r) w' := by
        rw [On, hw']
        exact hopened latest r s' (by rw [← hr]; rfl) (by rw [← hr]; rfl) (hlatest latest rfl) hnext (by rw [← hr]; rfl)
          happend
      refine ⟨hI r _ hopened, hI r _ hopened, ?_⟩
      rintro start r' ⟨⟩
      exact hopened

/-- The attempt that a next record opens is held from then on. -/
theorem Guarded.opened (h : Guarded faults holds c) {r : Record} {t : Token} {latest : Option Record} {s' : Store}
    (hclaim : c.running.get? r.instanceId.text = some t) (hne : ∀ x ∈ holds, x.id ≠ r.instanceId)
    (hlatest : c.store.latest? r.instanceId = .ok latest) (hnext : NextAfter latest r.attempt)
    (hid : r.id = ExecutionId.numbered c.millis c.issued) (happend : c.store.append r = .ok s') :
    Guarded faults (.ofRecord r.instanceId t r :: holds) { c with issued := c.issued + 1, store := s' } := by
  refine ⟨h.faults, List.forall_mem_cons.mpr ⟨hclaim, h.claimed⟩, fun hroom => ?_⟩
  have hroom : c.issued + 1 ≤ ExecutionId.room := hroom
  obtain ⟨hsound, hstored⟩ := h.sound (by omega)
  obtain ⟨s'', happend', hsound', hgains⟩ := append_next hsound (by omega) hlatest hnext hid
  cases happend.symm.trans happend'
  refine ⟨hsound', List.forall_mem_cons.mpr ⟨⟨c.store.entry r, ?_, Store.entry_of _ _⟩, fun x hx => ?_⟩⟩
  · show _ ∈ (s'.entries r.instanceId).getLast?
    rw [hgains, if_pos rfl, List.getLast?_concat]
    rfl
  · show x.stored (s'.entries x.id)
    rw [hgains, if_neg (hne x hx)]
    exact hstored x hx

theorem meets_begin? {w : World σ} (hw : Guarded faults holds w.core) (d : Definition) {id : InstanceId}
    (parameters : Parameters) {t : Token} (hclaim : w.running.get? id.text = some t) (hne : ∀ x ∈ holds, x.id ≠ id) :
    (Runner.begin? d id parameters).Meets (On (Guarded faults holds))
      (fun x w' => On (Guarded faults holds) w' ∧ ∀ start r, x = .ok (.ok (start, r)) →
        r.instanceId = id ∧ r.finalStatus = none ∧ On (Guarded faults (.ofRecord id t r :: holds)) w') w := by
  have hheld : ∀ (r : Record) (c : Core), (r.instanceId = id ∧ r.finalStatus = none ∧
      Guarded faults (.ofRecord id t r :: holds) c) → Guarded faults holds c := fun _ _ h => h.2.2.of_cons
  refine meets_opening hw hw.issue hheld d id parameters ?_
  rintro latest r s' rfl hopen hlatest hnext hid happend
  exact ⟨rfl, hopen, hw.opened hclaim hne hlatest hnext hid happend⟩

/-! ## Storing the record of an attempt under way -/

namespace Guarded

variable {id : InstanceId} {t : Token} {line : Line} {r : Record} {s' : Store}

/-- A checkpoint leaves the line of its attempt as it is. -/
theorem checkpoint (h : Guarded faults (.ofLine id t (Line.ofRecord r) :: holds) c) (hne : ∀ x ∈ holds, x.id ≠ id)
    (hid : r.instanceId = id) (happend : c.store.append r = .ok s') :
    Guarded faults (.ofRecord id t r :: holds) { c with store := s' } := by
  subst hid
  refine ⟨h.faults, List.forall_mem_cons.mpr (List.forall_mem_cons.mp h.claimed), fun hroom => ?_⟩
  obtain ⟨hsound, hstored⟩ := h.sound hroom
  obtain ⟨⟨x, hx, hline⟩, hrest⟩ := List.forall_mem_cons.mp hstored
  obtain ⟨pre, hentries⟩ := List.getLast?_eq_some_iff.mp hx
  obtain ⟨s'', happend', hsound', hentries'⟩ := hsound.append_again hentries (by rw [hline]; exact ⟨rfl, rfl, rfl⟩)
  cases happend.symm.trans happend'
  have hof : (x.revised r).Of r := Entry.revised_of (by rw [hline])
  refine ⟨hsound', List.forall_mem_cons.mpr ⟨⟨x.revised r, ?_, hof⟩, fun y hy => ?_⟩⟩
  · show _ ∈ (s'.entries r.instanceId).getLast?
    rw [hentries', if_pos rfl, List.getLast?_concat]
    rfl
  · show y.stored (s'.entries y.id)
    rw [hentries', if_neg (hne y hy)]
    exact hrest y hy

/-- What is stored last of an attempt may change its line. -/
theorem sealing (h : Guarded faults (.ofLine id t line :: holds) c) (hne : ∀ x ∈ holds, x.id ≠ id)
    (hid : r.instanceId = id) (hline : line.SameAttempt r) (happend : c.store.append r = .ok s') :
    Guarded faults holds { c with store := s' } := by
  subst hid
  refine h.of_cons.append ((c.store.entries r.instanceId).dropLast ++
    (c.store.entries r.instanceId).getLast?.toList.map (Entry.revised r)) hne fun hroom => ?_
  obtain ⟨hsound, hstored⟩ := h.sound hroom
  obtain ⟨⟨x, hx, rfl⟩, -⟩ := List.forall_mem_cons.mp hstored
  obtain ⟨pre, hentries⟩ := List.getLast?_eq_some_iff.mp hx
  have hentries : c.store.entries r.instanceId = pre ++ [x] := hentries
  obtain ⟨s'', happend', hsound', hentries'⟩ := hsound.append_again hentries hline
  cases happend.symm.trans happend'
  refine ⟨hsound', fun i => ?_⟩
  rw [hentries', hentries]
  simp

end Guarded

section Attempts

variable {id : InstanceId} {t : Token} {line : Line} {r : Record}

theorem storable (ex : Executor σ) (hline : line.owner = id.text) (hne : ∀ x ∈ holds, x.id ≠ id) :
    ex.Storable (fun r => Line.ofRecord r = line) (keeping (Guarded faults (.ofLine id t line :: holds))) := by
  refine ⟨fun r p o h => (Line.ofRecord_note r o).trans h, ?_, fun _ _ _ _ => .change fun _ hw => hw⟩
  rintro r rfl w hw
  have hid : r.instanceId = id := InstanceId.eq_iff.mpr hline
  refine meets_stored (fun _ => rfl) (fun w' hw' => ?_) (fun s' w' happend hw' => ?_)
  · have hw' : On (Guarded faults (.ofLine id t (Line.ofRecord r) :: holds)) w' := by rwa [On, hw']
    exact ⟨hw', fun _ _ => hw'⟩
  · have hw' : On (Guarded faults (.ofLine id t (Line.ofRecord r) :: holds)) w' := by
      rw [On, hw']
      exact (hw.checkpoint hne hid happend).ofLine
    exact ⟨hw', hw'⟩

theorem meets_sealed {w : World σ} (hw : On (Guarded faults (.ofLine id t line :: holds)) w)
    (hne : ∀ x ∈ holds, x.id ≠ id) (hid : r.instanceId = id) (hline : line.SameAttempt r) :
    (Checkpoint.sealed r).Meets (On (Guarded faults holds)) (fun _ w' => On (Guarded faults holds) w') w := by
  refine meets_stored (fun _ => rfl) (fun w' hw' => ?_) (fun s' w' happend hw' => ?_)
  · have hw' : On (Guarded faults holds) w' := by
      rw [On, hw']
      exact hw.of_cons
    exact ⟨hw', fun _ _ => hw'⟩
  · have hw' : On (Guarded faults holds) w' := by
      rw [On, hw']
      exact hw.sealing hne hid hline happend
    exact ⟨hw', hw'⟩

/-- The record that an attempt seals has the attempt's line but for the end. -/
theorem sameAttempt_sealWith {kept : Record} (h : Line.ofRecord kept = line) (context : Context)
    (o : FlowOutcome) (now : Instant) :
    line.SameAttempt (({ kept with context }.sealWith? o now).getD { kept with context }) := by
  subst h
  unfold Record.sealWith?
  split <;> exact ⟨rfl, rfl, rfl⟩

theorem meets_execute {ex : Executor σ} {g : Graph} {start : FlowStart} {w : World σ}
    (hex : ex.Closed (keeping (Guarded faults (.ofLine id t (Line.ofRecord r) :: holds))))
    (hw : On (Guarded faults (.ofLine id t (Line.ofRecord r) :: holds)) w) (hid : r.instanceId = id)
    (hne : ∀ x ∈ holds, x.id ≠ id) :
    (ex.execute g start r).Meets (On (Guarded faults holds)) (fun _ w' => On (Guarded faults holds) w') w := by
  have hstorable : ex.Storable (fun r' => Line.ofRecord r' = Line.ofRecord r)
      (keeping (Guarded faults (.ofLine id t (Line.ofRecord r) :: holds))) :=
    storable ex (congrArg InstanceId.text hid) hne
  have hrecord : ∀ r' ∈ some r, Line.ofRecord r' = Line.ofRecord r := by simp
  have hwalk : (ex.traverseGraph g start r.context (some r)).Keeps
      (On (Guarded faults (.ofLine id t (Line.ofRecord r) :: holds))) :=
    Executor.has_traverseGraph hex hstorable g start r.context hrecord
  refine Act.meets_bind.mpr ((hwalk w hw).with_run.mono (fun _ h => h.of_cons) ?_)
  rintro x w' ⟨hw', hrun⟩
  rcases x with halt | ⟨e | traversal, kept⟩
  · exact hw'.of_cons
  · exact hw'.of_cons
  have hkept : ∀ r' ∈ kept, Line.ofRecord r' = Line.ofRecord r :=
    Executor.kept_of_traverse_yields hstorable.noted hrecord (.of_run hrun)
  have hline : Line.ofRecord (kept.getD r) = Line.ofRecord r := by
    cases kept with
    | none => rfl
    | some r' => exact hkept r' rfl
  simp only [Act.Then]
  refine Act.meets_bind.mpr (meets_now fun now w₁ hcore => ?_)
  have hw₁ : On (Guarded faults (.ofLine id t (Line.ofRecord r) :: holds)) w₁ := by rwa [On, hcore]
  refine ⟨hw₁.of_cons, ?_⟩
  have hsame := sameAttempt_sealWith hline traversal.context traversal.outcome now
  have hid' := InstanceId.eq_iff.mpr (hsame.owner.symm.trans (congrArg InstanceId.text hid))
  refine Act.meets_bind.mpr ((meets_sealed hw₁ hne hid' hsame).mono (fun _ h => h) fun x w₂ hw₂ => ?_)
  rcases x with halt | e | u <;> exact hw₂

end Attempts

/-! ## Abandoning -/

theorem abandoned_eq_ok {id : InstanceId} {latest : Record} {fresh : ExecutionId} {now : Instant} {r : Record}
    (h : abandoned id latest fresh now = .ok r) :
    (latest.finalStatus = none ∧ r.id = latest.id ∧ r.instanceId = latest.instanceId ∧ r.attempt = latest.attempt) ∨
      (r.id = fresh ∧ r.instanceId = id ∧ NextAfter (some latest) r.attempt) := by
  unfold abandoned at h
  cases hfinal : latest.finalStatus with
  | none =>
    have hopen : latest.isSealed = false := by simp [Record.isSealed, hfinal]
    simp only [Record.abandon?, hopen, Bool.false_eq_true, if_false] at h
    cases h
    exact Or.inl ⟨rfl, rfl, rfl, rfl⟩
  | some status =>
    have hsealed : latest.isSealed = true := by simp [Record.isSealed, hfinal]
    simp only [Record.abandon?, hsealed, if_true] at h
    by_cases hopen : latest.status.isRestartable = true
    · simp only [hopen, Bool.not_true, Bool.false_eq_true, if_false] at h
      cases hnext : StartPoint.nextAttempt latest with
      | error e => simp [hnext, Except.map] at h
      | ok n =>
        obtain ⟨-, rfl⟩ := StartPoint.nextAttempt_eq_ok_iff.mp hnext
        simp only [hnext, Except.map] at h
        cases h
        exact Or.inr ⟨rfl, rfl, latest.restartable_iff.mp ⟨hsealed, hopen⟩, rfl⟩
    · simp [hopen] at h

theorem finalStatus_of_abandoned {id : InstanceId} {latest : Record} {fresh : ExecutionId} {now : Instant} {r : Record}
    (h : abandoned id latest fresh now = .ok r) : r.finalStatus = some .abandoned := by
  unfold abandoned at h
  cases hold : latest.abandon? now with
  | some sealed =>
    rw [hold] at h
    cases h
    unfold Record.abandon? at hold
    split at hold
    · cases hold
    · cases hold
      rfl
  | none =>
    simp only [hold] at h
    split at h
    · cases h
    · cases hnext : StartPoint.nextAttempt latest with
      | error e => simp [hnext, Except.map] at h
      | ok n =>
        simp only [hnext, Except.map] at h
        cases h
        rfl

/-- Abandoning changes the last line of an instance that is not held or adds one. -/
theorem Guarded.abandoned (h : Guarded faults holds c) {id : InstanceId} (hne : ∀ x ∈ holds, x.id ≠ id)
    {latest : Record} (hlatest : c.store.latest? id = .ok (some latest)) {now : Instant} {r : Record}
    (hr : Switchyard.abandoned id latest (ExecutionId.numbered c.millis c.issued) now = .ok r) {s' : Store}
    (happend : c.store.append r = .ok s') :
    Guarded faults holds { c with issued := c.issued + 1, store := s' } := by
  rcases abandoned_eq_ok hr with ⟨-, hid, hinstance, hattempt⟩ | ⟨hid, rfl, hnext⟩
  · refine h.issue.append ((c.store.entries id).dropLast ++
      (c.store.entries id).getLast?.toList.map (Entry.revised r)) hne fun hroom => ?_
    have hroom : c.issued + 1 ≤ ExecutionId.room := hroom
    obtain ⟨hsound, -⟩ := h.sound (by omega)
    obtain ⟨pre, x, hentries, htells⟩ := Store.entries_of_latest?_some hlatest
    obtain ⟨howner, hsame⟩ := sameAttempt_of_tells hsound.toFiled (Store.page_eq_concat hentries) htells
    have hid' : r.instanceId = id := hinstance.trans howner
    obtain ⟨s'', happend', hsound', hentries'⟩ := hsound.append_again (r := r) (hid' ▸ hentries)
      ⟨hsame.key.trans (by rw [hid]), hsame.owner.trans (by rw [hinstance]), hsame.attempt.trans (by rw [hattempt])⟩
    cases happend.symm.trans happend'
    refine ⟨hsound'.mono (Nat.le_succ _), fun i => ?_⟩
    rw [hentries', hid', hentries]
    simp
  · refine h.issue.append (c.store.entries r.instanceId ++ [c.store.entry r]) hne fun hroom => ?_
    have hroom : c.issued + 1 ≤ ExecutionId.room := hroom
    obtain ⟨hsound, -⟩ := h.sound (by omega)
    obtain ⟨s'', happend', hsound', hgains⟩ := append_next hsound (by omega) hlatest hnext hid
    cases happend.symm.trans happend'
    refine ⟨hsound', fun i => (hgains i).trans ?_⟩
    split
    next hi => rw [hi]
    · rfl

/-- To abandon an instance that nobody holds is to take an identifier and to append what its
    latest record comes to. -/
theorem keeps_abandoning {I : Core → Prop} {id : InstanceId}
    (hissued : ∀ c, I c → I { c with issued := c.issued + 1 })
    (hstored : ∀ c latest now r s', I c → c.running.contains id.text = false →
      c.store.latest? id = .ok (some latest) →
      abandoned id latest (ExecutionId.numbered c.millis c.issued) now = .ok r → c.store.append r = .ok s' →
      I { c with issued := c.issued + 1, store := s' }) :
    (Runner.abandon id : Act σ (Except JobError Record)).Keeps (On I) := by
  intro w hw
  simp only [Runner.abandon, Act.meets_bind, Runner.isClaimed, Act.meets_find]
  refine ⟨hw, ?_⟩
  simp only [Act.Then]
  split
  · exact hw
  next hfree =>
    have hunclaimed : w.core.running.contains id.text = false := Bool.eq_false_iff.mpr hfree
    refine Act.meets_bind.mpr (meets_loadLatest fun latest w₁ hcore₁ hlatest => ?_)
    have hw₁ : On I w₁ := by rwa [On, hcore₁]
    refine ⟨hw₁, ?_⟩
    rcases latest with e | _ | latest
    · exact hw₁
    · exact hw₁
    refine Act.meets_bind.mpr (meets_now fun now w₂ hcore₂ => ?_)
    have hw₂ : On I w₂ := by rwa [On, hcore₂]
    refine ⟨hw₂, Act.meets_bind.mpr (meets_freshId fun w₃ hcore₃ => ?_)⟩
    have hw₃ : On I w₃ := by
      rw [On, hcore₃]
      exact hissued _ hw₂
    refine ⟨hw₃, ?_⟩
    simp only [Act.Then]
    split
    · exact Runner.has_refuse (M := keeping _) _ w₃ hw₃
    next r hr =>
      rw [hcore₂, hcore₁] at hcore₃ hr
      refine Act.meets_bind.mpr (meets_append (fun w' hw' => ?_) (fun s' w' happend hw' => ?_))
      · have hw' : On I w' := by rwa [On, hw']
        refine ⟨hw', fun x hx => ?_⟩
        rcases x with halt | e | u
        · exact hw'
        · exact hw'
        · exact absurd rfl (hx u)
      · rw [hcore₃] at happend hw'
        have hw' : On I w' := by
          rw [On, hw']
          exact hstored _ _ _ _ _ hw hunclaimed (hlatest _ rfl) hr happend
        exact ⟨hw', hw'⟩

theorem keeps_abandon (id : InstanceId) :
    (Runner.abandon id : Act σ (Except JobError Record)).Keeps (On (Guarded faults holds)) := by
  refine keeps_abandoning (fun _ h => h.issue) fun c latest now r s' h hfree hlatest hr happend => ?_
  -- no claim that is held is on this instance
  have hne : ∀ x ∈ holds, x.id ≠ id := by
    rintro x hx rfl
    simp [Dict.contains, h.claimed x hx] at hfree
  exact h.abandoned hne hlatest hr happend

/-! ## Runs -/

def RunKeeps (faults : Method → Nat → Option StoreError) (run : Runner.Run σ) : Prop :=
  ∀ holds depth job parameters, (run depth job parameters).Keeps (On (Guarded faults holds))

variable {r : Runner σ} {run : Runner.Run σ}

theorem closed_executor (hrun : RunKeeps faults run) (record : Record) (depth : Nat) (t : Token) :
    (r.executor run record depth t).Closed (keeping (Guarded faults holds)) :=
  Runner.closed_executor (M := keeping _) (hrun holds) keeps_abandon record depth t fun e _ _ => Act.keeps_publish e

theorem meets_drive (hrun : RunKeeps faults run) {d : Definition} {start : FlowStart} {record : Record} {depth : Nat}
    {t : Token} {id : InstanceId} {w : World σ}
    (hw : On (Guarded faults (.ofLine id t (Line.ofRecord record) :: holds)) w) (hid : record.instanceId = id)
    (hne : ∀ x ∈ holds, x.id ≠ id) :
    (r.drive run d start record depth t).Meets (On (Guarded faults holds))
      (fun _ w' => On (Guarded faults holds) w') w := by
  have hex : (r.executor run record depth t).Closed
      (keeping (Guarded faults (.ofLine id t (Line.ofRecord record) :: holds))) :=
    closed_executor hrun record depth t
  simp only [Runner.drive, Act.meets_bind, Act.publish, Act.meets_change]
  refine ⟨hw.of_cons, ?_⟩
  simp only [Act.Then, Act.meets_bind, Act.waited, Act.meets_find]
  refine ⟨hw.of_cons, (meets_execute hex ?_ hid hne).mono (fun _ h => h) ?_⟩
  · exact hw
  rintro (halt | ⟨e | outcome, sealed⟩) w' hw'
  · exact hw'
  · exact hw'
  · exact ⟨hw', hw', hw'⟩

theorem meets_attemptOver (hrun : RunKeeps faults run) {d : Definition} {id : InstanceId} {depth : Nat} {t : Token}
    {parameters : Parameters} {w : World σ} (hw : Guarded faults holds w.core)
    (hclaim : w.running.get? id.text = some t) (hne : ∀ x ∈ holds, x.id ≠ id) :
    (r.attemptOver run d id depth t parameters).Meets (On (Guarded faults holds))
      (fun _ w' => On (Guarded faults holds) w') w := by
  refine Act.meets_bind.mpr ((meets_begin? hw d parameters hclaim hne).mono (fun _ h => h) ?_)
  rintro (halt | e | ⟨start, record⟩) w' ⟨hw', hopened⟩
  · exact hw'
  · exact hw'
  · obtain ⟨hid, -, hheld⟩ := hopened start record rfl
    exact meets_drive hrun hheld.ofLine hid hne

theorem keeps_runOver (hrun : RunKeeps faults run) : RunKeeps faults (r.runOver run) := by
  intro holds depth job parameters
  refine .bind .find fun found => ?_
  rcases found with _ | d
  · exact .pure
  intro w hw
  refine Act.meets_bind.mpr (Runner.meets_claim (fun _ => ⟨hw, hw⟩) fun hfree => ?_)
  obtain ⟨hne, hclaimed⟩ := Guarded.claim (t := w.tokens) hw hfree
  refine ⟨hclaimed, Runner.meets_releasing ?_⟩
  refine (meets_attemptOver hrun hclaimed (Dict.get?_insert_self _ _ _) hne).mono (fun _ h => h) fun x w' hw' => ?_
  have hreleased := Guarded.release hw' hne
  exact ⟨hreleased, hreleased⟩

theorem keeps_run (r : Runner σ) (levels : Nat) : RunKeeps faults (r.run levels) := by
  induction levels with
  | zero => exact fun _ _ _ _ => .broken
  | succ levels ih => exact keeps_runOver ih

theorem keeps_request (r : Runner σ) (q : Request) : (r.request q).Keeps (On (Guarded faults holds)) :=
  Runner.has_handle (M := keeping _) (keeps_run r Runner.ampleLevels holds 0) keeps_abandon q

end Switchyard
