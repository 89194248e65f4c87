import Switchyard.Proofs.Cluster.Moves
import Switchyard.Proofs.Engine.Errands
import Switchyard.Proofs.History.Reached
import Switchyard.Proofs.Store.Tidy

/-
  Switchyard.Proofs.History.Finished — an instance that is finished stays as it is,
  whatever runners are asked.

  An instance is finished if its latest record is sealed, and neither `failed` nor
  `stopped`. A run that claims it reads that record and is refused before it opens an
  attempt; so is whoever would abandon it. Whatever else is stored is a record of another
  instance, under an identifier given out since or read from that instance's own page, so
  under none of this one's (`Bygone.Foreign`).

  `Bygone.Kept` is what is so at every moment, and `Bygone.Free` what is so besides wherever
  something new is begun: nobody holds the claim. All that runners do leads from `Free` to
  `Free` within `Kept` (`Bygone.sparing`). Of identifiers there are `ExecutionId.room`; once
  they are used up neither says anything.

  - `spares_run`, `spares_abandon`: runs of any job and abandoning of any instance.
  - `refused_of_run`, `refused_of_abandon`: a run or an abandonment of the instance itself.
  - `finished_stays`: after any requests, at every moment of another one, and for all that is
    begun in its course.
  - `finished_of_reached`: what that takes is so in every history that runners made.
-/

namespace Switchyard

variable {σ α : Type}

/-! ## The instance -/

structure Bygone where
  id : InstanceId
  store : Store
  latest : Record
  status : Status
  /-- Where identifiers come from. -/
  millis : Nat
  read : store.latest? id = .ok (some latest)
  sealed : latest.finalStatus = some status
  ended : status ≠ .failed ∧ status ≠ .stopped

inductive Refusal (id : InstanceId) (status : Status) : JobError → Prop
  | notRestartable : Refusal id status (.restart (.notRestartable id status))
  | history (e : StoreError) : Refusal id status (.history e)

namespace Bygone

def entries (b : Bygone) : List Entry := b.store.entries b.id

/-- What is stored of the instance stays, and at least `k` identifiers were given out. -/
structure Kept (b : Bygone) (k : Nat) (c : Core) : Prop where
  millis : c.millis = b.millis
  issued : k ≤ c.issued
  fresh : ∀ n, c.issued ≤ n → n < ExecutionId.room → ∀ x ∈ b.entries, ¬x.IsRow (ExecutionId.numbered b.millis n)
  stored : c.issued ≤ ExecutionId.room → c.store.Tidy ∧ c.store.entries b.id = b.entries

structure Free (b : Bygone) (k : Nat) (c : Core) : Prop extends b.Kept k c where
  unclaimed : c.issued ≤ ExecutionId.room → c.running.contains b.id.text = false

/-- A record of another instance, under no identifier of this one's rows. -/
def Foreign (b : Bygone) (k : Nat) (r : Record) : Prop :=
  k ≤ ExecutionId.room → r.instanceId ≠ b.id ∧ ∀ x ∈ b.entries, ¬x.IsRow r.id

variable {b : Bygone} {k k' : Nat} {c : Core} {r : Record} {s' : Store} {w : World σ}

theorem isSealed_latest (b : Bygone) : b.latest.isSealed = true := by
  rw [Record.isSealed, b.sealed]
  rfl

theorem status_latest (b : Bygone) : b.latest.status = b.status := by
  rw [Record.status, b.sealed]
  rfl

theorem not_restartable (b : Bygone) : b.status.isRestartable = false := by
  have hover := b.ended
  cases hstatus : b.status <;> simp_all [Status.isRestartable]

theorem not_next (b : Bygone) : ¬(b.latest.finalStatus = some .failed ∨ b.latest.finalStatus = some .stopped) := by
  rw [b.sealed, Option.some.injEq, Option.some.injEq]
  exact not_or.mpr b.ended

theorem resolve_latest (b : Bygone) (g : Graph) (restartable : Bool) :
    StartPoint.resolve (some b.latest) g restartable = .error (.notRestartable b.latest.instanceId b.status) := by
  simp only [StartPoint.resolve, isSealed_latest, status_latest, not_restartable, Bool.not_true, Bool.not_false,
    Bool.false_eq_true, if_false, if_true]

theorem abandoned_latest (b : Bygone) (fresh : ExecutionId) (now : Instant) :
    abandoned b.id b.latest fresh now = .error (.notRestartable b.id b.status) := by
  simp only [abandoned, Record.abandon?, isSealed_latest, status_latest, not_restartable, if_true, Bool.not_false]

namespace Kept

theorem latest (h : b.Kept k c) (hroom : c.issued ≤ ExecutionId.room) : c.store.latest? b.id = .ok (some b.latest) := by
  rw [(Store.read_congr (h.stored hroom).2).1]
  exact b.read

theorem owner (h : b.Kept k c) (hroom : c.issued ≤ ExecutionId.room) : b.latest.instanceId = b.id :=
  (h.stored hroom).1.owner_of_latest (h.latest hroom)

theorem since (h : b.Kept k c) (hk : k' ≤ c.issued) : b.Kept k' c := ⟨h.millis, hk, h.fresh, h.stored⟩

theorem weaken (h : b.Kept k' c) (hk : k ≤ k') : b.Kept k c := h.since (Nat.le_trans hk h.issued)

/-- Another identifier is given out. -/
theorem issue (h : b.Kept k c) : b.Kept k { c with issued := c.issued + 1 } := by
  have hissued := h.issued
  refine ⟨h.millis, ?_, fun n hn hlt => ?_, fun hroom => ?_⟩
  · show k ≤ c.issued + 1
    omega
  · have hn : c.issued + 1 ≤ n := hn
    exact h.fresh n (by omega) hlt
  · have hroom : c.issued + 1 ≤ ExecutionId.room := hroom
    exact h.stored (by omega)

theorem append (h : b.Kept k c) (hr : b.Foreign k r) (happend : c.store.append r = .ok s') :
    b.Kept k { c with store := s' } := by
  refine ⟨h.millis, h.issued, h.fresh, fun hroom => ?_⟩
  obtain ⟨htidy, hentries⟩ := h.stored hroom
  obtain ⟨hother, hapart⟩ := hr (Nat.le_trans h.issued hroom)
  refine ⟨htidy.append happend, ?_⟩
  show s'.entries b.id = b.entries
  rw [← hentries] at hapart ⊢
  exact Store.entries_of_append happend hother hapart

end Kept

namespace Free

theorem since (h : b.Free k c) (hk : k' ≤ c.issued) : b.Free k' c := ⟨h.toKept.since hk, h.unclaimed⟩

theorem weaken (h : b.Free k' c) (hk : k ≤ k') : b.Free k c := h.since (Nat.le_trans hk h.issued)

theorem issue (h : b.Free k c) : b.Free k { c with issued := c.issued + 1 } := by
  refine ⟨h.toKept.issue, fun hroom => ?_⟩
  have hroom : c.issued + 1 ≤ ExecutionId.room := hroom
  exact h.unclaimed (by omega)

theorem append (h : b.Free k c) (hr : b.Foreign k r) (happend : c.store.append r = .ok s') :
    b.Free k { c with store := s' } :=
  ⟨h.toKept.append hr happend, h.unclaimed⟩

/-- Another instance is claimed. -/
theorem claim (h : b.Free k c) {id : InstanceId} (hne : c.issued ≤ ExecutionId.room → id ≠ b.id) (t : Token) :
    b.Free k { c with running := c.running.insert id.text t } := by
  refine ⟨⟨h.millis, h.issued, h.fresh, h.stored⟩, fun hroom => ?_⟩
  rw [← h.unclaimed hroom]
  exact congrArg Option.isSome (Dict.get?_insert_of_ne _ (InstanceId.text_ne (hne hroom).symm) _)

/-- A claim is given back, be it the one on the instance. -/
theorem release (h : b.Kept k c) {id : InstanceId}
    (hfree : c.issued ≤ ExecutionId.room → id ≠ b.id → c.running.contains b.id.text = false) :
    b.Free k { c with running := c.running.erase id.text } := by
  refine ⟨⟨h.millis, h.issued, h.fresh, h.stored⟩, fun hroom => ?_⟩
  by_cases hid : id = b.id
  · rw [hid]
    exact congrArg Option.isSome (Dict.get?_erase_self _ _)
  · rw [← hfree hroom hid]
    exact congrArg Option.isSome (Dict.get?_erase_of_ne _ (InstanceId.text_ne fun heq => hid heq.symm))

end Free

/-- To leave the instance alone, and free wherever nothing is under way. -/
def sparing (b : Bygone) (k : Nat) : Manner σ := between (b.Kept k) (b.Free k) fun _ h => h.toKept

/-! ## What may be stored -/

theorem Foreign.of_eq {r' : Record} (h : b.Foreign k r) (hinstance : r'.instanceId = r.instanceId) (hid : r'.id = r.id) :
    b.Foreign k r' := by
  intro hroom
  rw [hinstance, hid]
  exact h hroom

namespace Kept

/-- An identifier that is given out is that of none of the instance's rows. -/
theorem apart_numbered (h : b.Kept k c) (hroom : c.issued < ExecutionId.room) :
    ∀ x ∈ b.entries, ¬x.IsRow (ExecutionId.numbered c.millis c.issued) := by
  rw [h.millis]
  exact h.fresh c.issued (Nat.le_refl _) hroom

/-- No attempt is the next one of the instance. -/
theorem foreign_of_next (h : b.Kept k c) {latest : Option Record} (hlatest : c.store.latest? r.instanceId = .ok latest)
    (hnext : NextAfter latest r.attempt) (hid : r.id = ExecutionId.numbered c.millis c.issued) :
    b.Foreign (c.issued + 1) r := by
  intro hroom
  refine ⟨fun hown => ?_, hid ▸ h.apart_numbered (by omega)⟩
  rw [hown, h.latest (by omega)] at hlatest
  cases hlatest
  exact b.not_next hnext.1

theorem foreign_of_abandoned (h : b.Kept k c) {id : InstanceId} {latest : Record} {now : Instant}
    (hlatest : c.store.latest? id = .ok (some latest))
    (hr : Switchyard.abandoned id latest (ExecutionId.numbered c.millis c.issued) now = .ok r) :
    b.Foreign (c.issued + 1) r := by
  rcases abandoned_eq_ok hr with ⟨hopen, hid, hinstance, -⟩ | ⟨hid, rfl, hnext⟩
  · -- The latest record is sealed where it stands, under the identifier it was read with.
    intro hroom
    obtain ⟨htidy, hentries⟩ := h.stored (by omega)
    have hne : id ≠ b.id := by
      rintro rfl
      rw [h.latest (by omega)] at hlatest
      cases hlatest
      rw [b.sealed] at hopen
      cases hopen
    rw [hid, hinstance, htidy.owner_of_latest hlatest, ← hentries]
    exact ⟨hne, htidy.latest_apart hne hlatest⟩
  · exact h.foreign_of_next hlatest hnext hid

end Kept

/-! ## Attempts of other instances -/

theorem spares_stored (hr : b.Foreign k r) {f : World σ → World σ} (hf : ∀ w, (f w).core = w.core) :
    (b.sparing k).Has (do
      match ← Checkpoint.persist r with
      | .ok () =>
        Act.change f
        return .ok ()
      | .error e => return .error e : Act σ (Except CheckpointError Unit)) := by
  intro w hw
  refine meets_stored hf (fun w' hw' => ?_) (fun s' w' happend hw' => ?_)
  · have hleft : On (b.Free k) w' := by rwa [On, hw']
    exact ⟨hleft.toKept, fun _ _ => hleft⟩
  · have hleft : On (b.Free k) w' := by
      rw [On, hw']
      exact Free.append hw hr happend
    exact ⟨hleft.toKept, hleft⟩

theorem storable (ex : Executor σ) : ex.Storable (b.Foreign k) (b.sparing k) := by
  refine ⟨fun r p o h => h.of_eq (instanceId_noted r p o) ?_, fun r hr => ?_, fun r hr phase node w hw => ?_⟩
  · unfold Executor.noted Record.note
    split <;> rfl
  · exact spares_stored hr fun _ => rfl
  · exact ⟨Free.toKept hw, hw⟩

theorem sealable : Executor.Sealable (b.Foreign k) (b.sparing k : Manner σ) := by
  intro r context o now hr
  refine spares_stored (hr.of_eq ?_ ?_) fun _ => rfl
  · exact instanceId_sealWith _ o now
  · unfold Record.sealWith?
    split <;> rfl

theorem spares_publish (e : Event) : (b.sparing k).Has (Act.publish e : Act σ Unit) := fun _ hw => ⟨Free.toKept hw, hw⟩

theorem spares_abandon (id : InstanceId) : (b.sparing k).Has (Runner.abandon id : Act σ (Except JobError Record)) := by
  have hkeeps : (Runner.abandon id : Act σ (Except JobError Record)).Keeps (On (b.Free k)) := by
    refine keeps_abandoning (fun _ h => h.issue) fun c latest now r s' h _ hlatest hr happend => ?_
    have hissued : b.Free (c.issued + 1) { c with issued := c.issued + 1 } := h.issue.since (Nat.le_refl _)
    exact (hissued.append (h.toKept.foreign_of_abandoned hlatest hr) happend).weaken (Nat.le_succ_of_le h.issued)
  exact fun w hw => (hkeeps w hw).mono (fun _ h => h.toKept) fun _ _ h => h

/-- A record that an attempt is opened with may be stored. -/
theorem meets_begin (hw : On (b.Free k) w) (d : Definition) (id : InstanceId) (parameters : Parameters) :
    (Runner.begin? d id parameters).Meets (On (b.Kept k))
      (fun x w' => On (b.Free k) w' ∧ ∀ start r, x = .ok (.ok (start, r)) →
        ∃ k', k ≤ k' ∧ On (b.Free k') w' ∧ b.Foreign k' r) w := by
  have hk : k ≤ w.core.issued + 1 := Nat.le_succ_of_le (Free.toKept hw).issued
  have hweaken : ∀ (r : Record) (c : Core), b.Free (w.core.issued + 1) c ∧ b.Foreign (w.core.issued + 1) r →
      b.Free k c := fun _ _ h => h.1.weaken hk
  have hopening := meets_opening hw (Free.issue hw) hweaken d id parameters ?_
  · refine hopening.mono (fun _ h => h.toKept) fun x w' ⟨hw', hopened⟩ => ⟨hw', fun start r hx => ?_⟩
    exact ⟨_, hk, hopened start r hx⟩
  · rintro latest r s' rfl - hlatest hnext hid happend
    have hforeign := (Free.toKept hw).foreign_of_next hlatest hnext hid
    have hissued : b.Free (w.core.issued + 1) { w.core with issued := w.core.issued + 1 } :=
      (Free.issue hw).since (Nat.le_refl _)
    exact ⟨hissued.append hforeign happend, hforeign⟩

variable {r : Runner σ} {run : Runner.Run σ}

theorem spares_attemptOver (hrun : ∀ k depth job parameters, (b.sparing k).Has (run depth job parameters))
    (d : Definition) (id : InstanceId) (depth : Nat) (t : Token) (parameters : Parameters) :
    (b.sparing k).Has (r.attemptOver run d id depth t parameters) := by
  intro w hw
  refine Act.meets_bind.mpr ((meets_begin hw d id parameters).mono (fun _ h => h) ?_)
  rintro (halt | e | ⟨start, record⟩) w' ⟨hw', hopened⟩
  · exact hw'
  · exact hw'
  · obtain ⟨k', hk, hfree, hforeign⟩ := hopened start record rfl
    have hdrive : (b.sparing k').Has (r.drive run d start record depth t) :=
      Runner.has_drive (hrun k') spares_abandon (fun e _ => spares_publish e) (storable _) sealable hforeign d start
    exact (hdrive w' hfree).mono (fun _ h => h.weaken hk) fun _ _ h => h.weaken hk

/-! ## Requests about the instance itself -/

theorem refused_of_begin (hw : On (b.Kept k) w) (hroom : w.core.issued ≤ ExecutionId.room) (d : Definition)
    (parameters : Parameters) :
    (Runner.begin? d b.id parameters).Meets (On (b.Kept k))
      (fun x w' => w'.core = w.core ∧ ∃ e, Refusal b.id b.status e ∧ x = .ok (.error e)) w := by
  refine Act.meets_bind.mpr (meets_loadLatest fun latest w₁ hcore₁ hlatest => ?_)
  have hw₁ : On (b.Kept k) w₁ := by rwa [On, hcore₁]
  refine ⟨hw₁, ?_⟩
  rcases latest with e | latest
  · exact ⟨hcore₁, _, .history e, rfl⟩
  · have hread := hlatest latest rfl
    rw [Kept.latest hw hroom] at hread
    cases hread
    simp only [Act.Then, resolve_latest, Kept.owner hw hroom]
    exact ⟨hcore₁, _, .notRestartable, rfl⟩

theorem refused_of_run (hw : On (b.Free k) w) (hroom : w.core.issued ≤ ExecutionId.room) {depth : Nat} {job : String}
    {d : Definition} {parameters : Parameters} (hjob : w.jobs.get? job = some d)
    (hid : InstanceId.derive d.name parameters = b.id) :
    (r.runOver run depth job parameters).Meets (On (b.Kept k))
      (fun x w' => On (b.Free k) w' ∧ ∃ e, Refusal b.id b.status e ∧ x = .ok (.error e)) w := by
  simp only [Runner.runOver, Runner.job?, Act.meets_bind, Act.meets_find, Act.Then, hjob, hid]
  refine ⟨Free.toKept hw, Runner.meets_claim (fun hheld => ?_) fun _ => ?_⟩
  · have hunclaimed : w.running.contains b.id.text = false := hw.unclaimed hroom
    rw [hunclaimed] at hheld
    cases hheld
  have hclaimed : On (b.Kept k) (w.claiming b.id) := ⟨hw.millis, hw.issued, hw.fresh, hw.stored⟩
  refine ⟨hclaimed, Runner.meets_releasing ?_⟩
  refine Act.meets_bind.mpr ((refused_of_begin hclaimed hroom d parameters).mono (fun _ h => h) ?_)
  rintro _ w' ⟨hcore, e, he, rfl⟩
  have hkept : On (b.Kept k) w' := by rwa [On, hcore]
  have hreleased : On (b.Free k) (w'.releasing b.id) := Free.release hkept fun _ hne => absurd rfl hne
  exact ⟨hreleased.toKept, hreleased, e, he, rfl⟩

theorem refused_of_abandon (hw : On (b.Free k) w) (hroom : w.core.issued ≤ ExecutionId.room) :
    ∃ e, Refusal b.id b.status e ∧ ((Runner.abandon b.id).run w).1 = .ok (.error e) := by
  have hunclaimed : w.running.contains b.id.text = false := hw.unclaimed hroom
  have hmeets : (Runner.abandon b.id).Meets (fun _ => True)
      (fun x _ => ∃ e, Refusal b.id b.status e ∧ x = .ok (.error e)) w := by
    simp only [Runner.abandon, Runner.isClaimed, Act.meets_bind, Act.meets_find, Act.Then, hunclaimed, Bool.false_eq_true,
      if_false]
    refine ⟨trivial, Act.meets_bind.mpr (meets_loadLatest fun latest w₁ hcore₁ hlatest => ⟨trivial, ?_⟩)⟩
    rcases latest with e | latest
    · exact ⟨_, .history e, rfl⟩
    have hread := hlatest latest rfl
    rw [(Free.toKept hw).latest hroom] at hread
    cases hread
    refine Act.meets_bind.mpr (meets_now fun now w₂ _ => ⟨trivial, ?_⟩)
    refine Act.meets_bind.mpr (meets_freshId fun w₃ _ => ⟨trivial, ?_⟩)
    simp only [Act.Then, abandoned_latest]
    exact ⟨_, .notRestartable, rfl⟩
  exact hmeets.run

/-! ## Runs -/

theorem spares_runOver (hrun : ∀ k depth job parameters, (b.sparing k).Has (run depth job parameters))
    (depth : Nat) (job : String) (parameters : Parameters) : (b.sparing k).Has (r.runOver run depth job parameters) := by
  intro w hw
  cases hjob : w.jobs.get? job with
  | none =>
    simp only [Runner.runOver, Runner.job?, Act.meets_bind, Act.meets_find, Act.Then, hjob]
    exact ⟨Free.toKept hw, hw⟩
  | some d =>
    -- A run of the instance itself holds the claim for a while, so that its worlds are not
    -- free in between; it is refused under the claim, before it begins anything.
    by_cases hown : w.core.issued ≤ ExecutionId.room ∧ InstanceId.derive d.name parameters = b.id
    · exact (refused_of_run hw hown.1 hjob hown.2).mono (fun _ h => h) fun _ _ h => h.1
    have hne : w.core.issued ≤ ExecutionId.room → InstanceId.derive d.name parameters ≠ b.id :=
      fun hroom heq => hown ⟨hroom, heq⟩
    simp only [Runner.runOver, Runner.job?, Act.meets_bind, Act.meets_find, Act.Then, hjob]
    refine ⟨Free.toKept hw, Runner.meets_claim (fun _ => ⟨Free.toKept hw, hw⟩) fun _ => ?_⟩
    have hclaimed : On (b.Free k) (w.claiming (InstanceId.derive d.name parameters)) := Free.claim hw hne _
    refine ⟨hclaimed.toKept, Runner.meets_releasing ?_⟩
    refine (spares_attemptOver hrun d _ depth _ parameters _ hclaimed).mono (fun _ h => h) fun x w' hw' => ?_
    have hreleased : On (b.Free k) (w'.releasing (InstanceId.derive d.name parameters)) :=
      Free.release (Free.toKept hw') fun hroom _ => hw'.unclaimed hroom
    exact ⟨hreleased.toKept, hreleased⟩

theorem spares_run (r : Runner σ) (levels k depth : Nat) (job : String) (parameters : Parameters) :
    (b.sparing k).Has (r.run levels depth job parameters) := by
  induction levels generalizing k depth job parameters with
  | zero => exact (b.sparing k).broken _
  | succ levels ih => exact spares_runOver ih depth job parameters

theorem spares_request (r : Runner σ) (q : Request) : (b.sparing k).Has (r.request q) :=
  Runner.has_handle (spares_run r Runner.ampleLevels k 0) spares_abandon q

/-! ## What is begun in the course of a request -/

section Errands

variable {d : Definition} {parameters : Parameters} {o : Opened σ}

theorem unopened (hw : On (b.Kept k) w) (hroom : w.core.issued ≤ ExecutionId.room)
    (hid : InstanceId.derive d.name parameters = b.id) : Runner.opened? d parameters w = none := by
  by_contra hopened
  obtain ⟨o, ho⟩ := Option.ne_none_iff_exists'.mp hopened
  obtain ⟨latest, point, fresh, now, hlatest, hresolve, -, -⟩ := Runner.start_of_opened ho
  rw [hid] at hlatest
  have hread : w.repository.store.latest? b.id = .ok (some b.latest) := hw.latest hroom
  rw [hread] at hlatest
  cases hlatest
  rw [resolve_latest] at hresolve
  cases hresolve

theorem free_of_opened (hw : On (b.Free k) w) (ho : Runner.opened? d parameters w = some o) :
    ∃ k', On (b.Free k') o.world ∧ b.Foreign k' o.record := by
  have hne : w.core.issued ≤ ExecutionId.room → InstanceId.derive d.name parameters ≠ b.id := by
    intro hroom hid
    rw [unopened (Free.toKept hw) hroom hid] at ho
    cases ho
  obtain ⟨claimed, begun, hclaim, hbegin, hworld⟩ := Runner.opened?_eq_some ho
  obtain ⟨-, -, rfl⟩ := Runner.claim?_eq_some hclaim
  have hclaimed : On (b.Free k) (w.claiming (InstanceId.derive d.name parameters)) := Free.claim hw hne _
  have hbegun := (meets_begin hclaimed d (InstanceId.derive d.name parameters) parameters).run
  rw [hbegin] at hbegun
  obtain ⟨k', -, hfree, hforeign⟩ := hbegun.2 o.start o.record rfl
  refine ⟨k', ?_, hforeign⟩
  rw [hworld]
  exact hfree

theorem ordered_of_opened (hw : On (b.Free k) w) (ho : Runner.opened? d parameters w = some o) (r : Runner σ)
    (levels depth : Nat) : ∃ k', (r.tourOf (r.run levels) depth d o).Ordered (b.Foreign k')
      fun c (h : b.Free k' c) => h.toKept := by
  obtain ⟨k', hworld, hforeign⟩ := free_of_opened hw ho
  refine ⟨k', ?_, storable _, ?_, hworld⟩
  · exact Runner.closed_executor (M := b.sparing k') (spares_run r levels k') spares_abandon o.record depth o.token
      fun e _ _ => spares_publish e
  · rintro _ ⟨⟩
    exact hforeign

/-- What an errand makes is begun in a world that is free, if it is itself. -/
theorem free_of_nests {r : Runner σ} {x y : Outset σ} (hx : On (b.Free 0) x.world) (h : r.Nests x y) :
    On (b.Free 0) y.world := by
  cases h with
  | answered => exact hx
  | @asked levels depth job d parameters w o t s α script q w' _ ho ht hs _ hasks =>
    obtain ⟨k', htour⟩ := ordered_of_opened hx ho r levels depth
    have hunit := htour.makes ht
    have htimed : On (b.Free k') (t.ex.timed s.entered) := by
      have hentered := hunit.entered s hs
      unfold Executor.timed
      split <;> exact hentered
    exact (hasks.from hunit.closed htimed).weaken (Nat.zero_le _)
  | @launched levels depth job d parameters w o t s _ _ _ _ ho ht hs _ =>
    obtain ⟨k', htour⟩ := ordered_of_opened hx ho r levels depth
    exact ((htour.makes ht).entered s hs).weaken (Nat.zero_le _)

theorem free_of_errand {r : Runner σ} {x y : Outset σ} (hx : On (b.Free 0) x.world)
    (h : Relation.ReflTransGen r.Nests x y) : On (b.Free 0) y.world := by
  induction h with
  | refl => exact hx
  | tail _ hnests ih => exact free_of_nests ih hnests

end Errands

end Bygone

/-! ## Finished instances -/

/-- The instance is finished, nobody holds it, and none of its rows has an identifier that
    is still to be given out. -/
structure World.Finished (w : World σ) (id : InstanceId) (status : Status) : Prop where
  tidy : w.repository.store.Tidy
  latest : ∃ latest, w.repository.store.latest? id = .ok (some latest) ∧ latest.finalStatus = some status
  ended : status ≠ .failed ∧ status ≠ .stopped
  unclaimed : w.running.contains id.text = false
  fresh : ∀ n, w.clock.issued ≤ n → n < ExecutionId.room →
    ∀ x ∈ w.repository.store.entries id, ¬x.IsRow (ExecutionId.numbered w.clock.originMillis n)

def World.after (w : World σ) (requests : List (Runner σ × Request)) : World σ :=
  requests.foldl (fun w x => ((x.1.request x.2).run w).2) w

/-- What is stored of the instance, and read of it, is as it was. -/
structure World.Retains (w w' : World σ) (id : InstanceId) : Prop where
  entries : w'.repository.store.entries id = w.repository.store.entries id
  latest : w'.repository.store.latest? id = w.repository.store.latest? id
  list : w'.repository.store.list id = w.repository.store.list id

/-- An errand that does nothing for the instance, and refuses what it is asked about it. -/
structure Outset.Spares (x : Outset σ) (r : Runner σ) (id : InstanceId) (status : Status) : Prop where
  unknown : ∀ {levels depth : Nat} {job : String} {parameters : Parameters}, x.levels = levels + 1 →
    x.errand = .run depth job parameters → x.world.jobs.get? job = none →
    ((r.run x.levels depth job parameters).run x.world).1 = .ok (.error (.unknownJob job))
  refused : ∀ {levels depth : Nat} {job : String} {d : Definition} {parameters : Parameters}, x.levels = levels + 1 →
    x.errand = .run depth job parameters → x.world.jobs.get? job = some d → InstanceId.derive d.name parameters = id →
    ∃ e, Refusal id status e ∧ ((r.run x.levels depth job parameters).run x.world).1 = .ok (.error e)
  /-- Whatever node is visited, be it of a branch, is visited for another instance. -/
  elsewhere : ∀ {levels depth : Nat} {job : String} {d : Definition} {parameters : Parameters} {o : Opened σ}
    {t : Tour σ}, x.levels = levels + 1 → x.errand = .run depth job parameters → x.world.jobs.get? job = some d →
    Runner.opened? d parameters x.world = some o → (r.tourOf (r.run levels) depth d o).Makes t →
    t.ex.scope.instanceId ≠ id
  abandoned : x.errand = .answer (.abandon id) →
    ∃ e, Refusal id status e ∧ ((r.handle (r.run x.levels) (.abandon id)).run x.world).1 = .ok (.record (.error e))

namespace Bygone

variable {b : Bygone} {w : World σ}

theorem free_after (hw : On (b.Free 0) w) (requests : List (Runner σ × Request)) : On (b.Free 0) (w.after requests) := by
  induction requests generalizing w with
  | nil => exact hw
  | cons x rest ih => exact ih (spares_request x.1 x.2 w hw).run

theorem spares_of_free {x : Outset σ} (hx : On (b.Free 0) x.world) (hroom : x.world.core.issued ≤ ExecutionId.room)
    (r : Runner σ) : x.Spares r b.id b.status where
  unknown := by
    intro levels depth job parameters hlevels _ hjob
    rw [hlevels]
    simp only [Runner.run, Runner.runOver, Runner.job?, Act.run_bind, Act.run_find, hjob]
    rfl
  refused := by
    intro levels depth job d parameters hlevels _ hjob hid
    rw [hlevels]
    exact (refused_of_run hx hroom hjob hid).run.2
  elsewhere := by
    intro levels depth job d parameters o t _ _ _ ho ht hid
    obtain ⟨latest, point, fresh, now, -, -, -, hrecord⟩ := Runner.start_of_opened ho
    have hscope : t.ex.scope.instanceId = InstanceId.derive d.name parameters := by
      rw [ht.ex_eq]
      exact congrArg Record.instanceId hrecord
    rw [unopened (Free.toKept hx) hroom (hscope.symm.trans hid)] at ho
    cases ho
  abandoned := by
    intro _
    obtain ⟨e, he, habandon⟩ := refused_of_abandon hx hroom
    refine ⟨e, he, ?_⟩
    generalize hrun : (Runner.abandon b.id).run x.world = came at habandon
    obtain ⟨_, w'⟩ := came
    cases habandon
    rw [Runner.handle, Act.run_bind_ok hrun]
    rfl

theorem retains_of_kept {w' : World σ} (hstore : b.store = w.repository.store) (h : On (b.Kept 0) w')
    (hroom : w'.clock.issued ≤ ExecutionId.room) : w.Retains w' b.id := by
  have hentries : w'.repository.store.entries b.id = w.repository.store.entries b.id := by
    rw [← hstore]
    exact (h.stored hroom).2
  obtain ⟨hlatest, hlist⟩ := Store.read_congr hentries
  exact ⟨hentries, hlatest, hlist⟩

end Bygone

section

variable {w : World σ} {id : InstanceId} {status : Status}

theorem World.Finished.bygone (h : w.Finished id status) :
    ∃ b : Bygone, b.id = id ∧ b.status = status ∧ b.store = w.repository.store ∧ On (b.Free 0) w := by
  obtain ⟨latest, hread, hsealed⟩ := h.latest
  refine ⟨⟨id, w.repository.store, latest, status, w.clock.originMillis, hread, hsealed, h.ended⟩, rfl, rfl, rfl, ?_⟩
  exact ⟨⟨rfl, Nat.zero_le _, h.fresh, fun _ => ⟨h.tidy, rfl⟩⟩, fun _ => h.unclaimed⟩

/-- Whatever runners are asked, and whatever their units ask for and their nodes launch in
    the course of it: what is stored of a finished instance stays, no node is visited for
    it, and every run and abandonment of it is refused. -/
theorem finished_stays (h : w.Finished id status) (requests : List (Runner σ × Request)) (r : Runner σ) (q : Request) :
    (∀ w', (r.request q).Passes (w.after requests) w' → w'.clock.issued ≤ ExecutionId.room → w.Retains w' id) ∧
    ∀ x, Relation.ReflTransGen r.Nests ⟨Runner.ampleLevels, .answer q, w.after requests⟩ x →
      x.world.clock.issued ≤ ExecutionId.room → x.Spares r id status := by
  obtain ⟨b, rfl, rfl, hstore, hw⟩ := h.bygone
  have hafter : On (b.Free 0) (w.after requests) := Bygone.free_after hw requests
  refine ⟨fun w' hpasses hroom => ?_, fun x hx hroom => ?_⟩
  · have hkept := (Bygone.spares_request r q _ hafter).passes hafter.toKept hpasses
    exact Bygone.retains_of_kept hstore hkept hroom
  · exact Bygone.spares_of_free (Bygone.free_of_errand hafter hx) hroom r

end

/-! ## Histories that runners made -/

theorem tidy_of_move {c c' : Shared} {q q' : Stance} {e : Option Event} (h : Move c q e c' q') (hc : c.store.Tidy) :
    c'.store.Tidy := by
  cases h with
  | rest => exact hc
  | told => exact hc
  | read => exact hc
  | minted => exact hc
  | opened _ _ _ _ happend => exact hc.append happend
  | marked _ _ _ _ happend => exact hc.append happend
  | noted _ _ happend => exact hc.append happend
  | sealed _ _ happend => exact hc.append happend
  | abandoned _ _ _ _ _ _ happend => exact hc.append happend

theorem keeps_of_plays {P : Shared → Prop} (hP : ∀ {c c' q q' e}, Move c q e c' q' → P c → P c')
    {Q : Except Halt α → Stance → Prop} {x : Act σ α} {q : Stance} (h : x.Plays Q q) :
    x.Keeps fun w => P w.shared := by
  intro w hw
  induction x generalizing q w with
  | done a => exact hw
  | broken e => exact hw
  | step f next ih =>
    obtain ⟨e, q', hmove, -, hnext⟩ := h w
    have hleft := hP hmove hw
    exact ⟨hleft, ih _ hnext _ hleft⟩

theorem tidy_of_reached {w : World σ} (h : Reached w) : w.repository.store.Tidy := by
  induction h with
  | empty hempty => exact Store.tidy_of_empty hempty
  | during r q _ hpasses ih => exact (keeps_of_plays tidy_of_move (plays_request r q)).passes ih hpasses
  | reopened _ hstore _ _ ih =>
    rw [hstore]
    exact ih

/-- In a history that runners made an instance is finished as soon as its latest record
    says so and nobody holds it. -/
theorem finished_of_reached {w : World σ} (h : Reached w) (hids : w.clock.issued ≤ ExecutionId.room) {id : InstanceId}
    {status : Status} {latest : Record} (hlatest : w.repository.store.latest? id = .ok (some latest))
    (hsealed : latest.finalStatus = some status) (hover : status ≠ .failed ∧ status ≠ .stopped)
    (hunclaimed : w.running.contains id.text = false) : w.Finished id status := by
  refine ⟨tidy_of_reached h, ⟨latest, hlatest, hsealed⟩, hover, hunclaimed, fun n hn hroom x hx hrow => ?_⟩
  have hfiled : Filed { w.core.shared with issued := n } := (sound_of_reached h hids).toFiled.mono hn
  exact hfiled.key_ne hroom id x.line (Store.line_mem_page hx) hrow.key_eq

/-! ### Books that are closed -/

namespace Books

def runner : Runner Nat :=
  { config := {}
    units :=
      { step := fun _ => some fun _ calls => .finish (calls + 1) (.result { status := .completed, exit := Exit.completed })
        decider := fun _ => none } }

def closing : Definition := { graph := ⟨"closing", "close", [⟨"close", .step "close", []⟩]⟩ }

def audit : Definition := { graph := ⟨"audit", "books", [⟨"books", .subJob "closing" [], []⟩]⟩ }

def world : World Nat :=
  { repository := { store := .table Table.empty }
    jobs := (Dict.empty.insert "closing" closing).insert "audit" audit
    bus := Bus.ofCapacity 4
    clock := { origin := Instant.ofSeconds 0 0 }
    memory := 0 }

def closed : World Nat := ((runner.request (.run "closing" Dict.empty)).run world).2

def id : InstanceId := InstanceId.derive "closing" Dict.empty

def requests : List (Runner Nat × Request) :=
  [(runner, .register { graph := ⟨"closing", "reopen", [⟨"reopen", .step "reopen", []⟩]⟩ }),
    (runner, .run "audit" Dict.empty)]

def attempts (w : World Nat) : List (Int × Option String) :=
  (w.repository.store.page id).map fun l => (l.attempt, l.final)

def verdict (w : World Nat) : Option Status :=
  match w.repository.store.latest? id with
  | .ok (some latest) => latest.finalStatus
  | _ => none

theorem finished : closed.Finished id .completed := by
  have hreached : Reached closed := .after (.empty (Or.inr rfl)) runner _
  have hclosed : verdict closed = some .completed ∧ closed.clock.issued ≤ ExecutionId.room ∧
      closed.running.contains id.text = false := by decide +kernel
  obtain ⟨hverdict, hids, hunclaimed⟩ := hclosed
  unfold verdict at hverdict
  split at hverdict
  next latest hlatest => exact finished_of_reached hreached hids hlatest hverdict (by decide) hunclaimed
  · cases hverdict

theorem closed_books_stay :
    attempts closed = [(1, some "COMPLETED")] ∧ (closed.after requests).memory = closed.memory ∧
    attempts ((runner.request (.abandon id)).run (closed.after requests)).2 = [(1, some "COMPLETED")] ∧
    ∃ e, Refusal id .completed e ∧
      ((runner.request (.abandon id)).run (closed.after requests)).1 = .ok (.record (.error e)) := by
  have hattempts : attempts closed = [(1, some "COMPLETED")] := by decide +kernel
  have hids : (closed.after requests).clock.issued ≤ ExecutionId.room ∧
      ((runner.request (.abandon id)).run (closed.after requests)).2.clock.issued ≤ ExecutionId.room ∧
      (closed.after requests).memory = closed.memory := by decide +kernel
  obtain ⟨hids, hleft, hmemory⟩ := hids
  obtain ⟨hretains, hspares⟩ := finished_stays finished requests runner (.abandon id)
  have hkept := hretains _ (Act.passes_run _ _) hleft
  refine ⟨hattempts, hmemory, ?_, (hspares _ .refl hids).abandoned rfl⟩
  rw [← hattempts, attempts, attempts, Store.page_eq, Store.page_eq, hkept.entries]

end Books

end Switchyard
