import Switchyard.Proofs.History.Guarded

/-
  Switchyard.Proofs.Cluster.Moves — what a single step of a call can do to a history that
  it shares with other calls.

  A call's `Stance` is what it goes by: the attempts it has in hand, the latest record it
  read, and the identifier it was given. A `Move` is all that one step of a call can do to
  what is shared: nothing, read a latest record, take an identifier, open the next attempt
  after the record read, store or seal an attempt in hand, or abandon what was read. An
  attempt's nodes are told of only while it is in hand. Between two moves the others may
  do whatever they like, so what was read may be out of date.

  - `plays_request`: whatever a runner is asked, every step it takes is a move.
-/

namespace Switchyard

structure Stance where
  /-- The lines of the attempts in hand, as they were opened, innermost first. -/
  stints : List Line := []
  /-- The latest record that was read last, and whose. -/
  read : Option (InstanceId × Option Record) := none
  /-- The identifier taken, until it is used. -/
  minted : Option ExecutionId := none

/-- What one step of a call can do, what it may tell of, and how it stands then. -/
inductive Move (c : Shared) (q : Stance) : Option Event → Shared → Stance → Prop
  | rest : Move c q none c q
  | told (e : Event) : (e.isNode = true → ∃ l ∈ q.stints, l.key = e.id.text) → Move c q (some e) c q
  | read {id : InstanceId} {latest : Option Record} : c.store.latest? id = .ok latest →
      Move c q none c { q with read := some (id, latest) }
  | minted : Move c q none { c with issued := c.issued + 1 }
      { q with minted := some (ExecutionId.numbered c.millis c.issued) }
  /-- The attempt after the record read is opened and in hand from then on. -/
  | opened {r : Record} {latest : Option Record} {s' : Store} : q.minted = some r.id →
      q.read = some (r.instanceId, latest) → NextAfter latest r.attempt → r.finalStatus = none →
      c.store.append r = .ok s' →
      Move c q none { c with store := s' } { q with stints := Line.ofRecord r :: q.stints, minted := none }
  /-- The attempt after the record read is abandoned from the start. -/
  | marked {r : Record} {latest : Option Record} {s' : Store} : q.minted = some r.id →
      q.read = some (r.instanceId, latest) → NextAfter latest r.attempt → r.finalStatus = some .abandoned →
      c.store.append r = .ok s' → Move c q none { c with store := s' } { q with minted := none }
  | noted {r : Record} {s' : Store} : Line.ofRecord r ∈ q.stints → r.finalStatus = none → c.store.append r = .ok s' →
      Move c q none { c with store := s' } q
  /-- An attempt in hand is sealed and out of hand from then on. -/
  | sealed {r : Record} {line : Line} {s' : Store} : line ∈ q.stints → line.SameAttempt r → c.store.append r = .ok s' →
      Move c q none { c with store := s' } { q with stints := q.stints.erase line }
  /-- The record read is abandoned where it stands. -/
  | abandoned {id : InstanceId} {r latest : Record} {s' : Store} : q.read = some (id, some latest) →
      latest.finalStatus = none → r.id = latest.id → r.instanceId = latest.instanceId → r.attempt = latest.attempt →
      r.finalStatus = some .abandoned → c.store.append r = .ok s' → Move c q none { c with store := s' } q

theorem Move.issued_le {c c' : Shared} {q q' : Stance} {e : Option Event} (h : Move c q e c' q') :
    c.issued ≤ c'.issued := by
  cases h with
  | minted => exact Nat.le_succ _
  | _ => exact Nat.le_refl _

theorem Move.exists_stint {c c' : Shared} {q q' : Stance} {e : Event} (h : Move c q (some e) c' q')
    (hnode : e.isNode = true) : ∃ l ∈ q.stints, l.key = e.id.text := by
  cases h with
  | told e hwhy => exact hwhy hnode

theorem Move.latest_of_read {c c' : Shared} {q q' : Stance} {e : Option Event} (h : Move c q e c' q')
    {id : InstanceId} {r : Record} (hread : q'.read = some (id, some r)) :
    q.read = some (id, some r) ∨ c.store.latest? id = .ok (some r) := by
  cases h with
  | read hlatest =>
    cases hread
    exact Or.inr hlatest
  | _ => exact Or.inl hread

def World.shared {σ : Type} (w : World σ) : Shared := w.core.shared

def Bus.after (b : Bus Event) : Option Event → Bus Event
  | none => b
  | some e => b.publish e

namespace Act

variable {σ α β : Type}

/-- Every step of an action is a move, whatever world it finds, and `Q` holds of what the
    action comes to and how the call stands then. -/
def Plays (Q : Except Halt α → Stance → Prop) : Act σ α → Stance → Prop
  | .done a, q => Q (.ok a) q
  | .broken h, q => Q (.error h) q
  | .step f next, q => ∀ w : World σ, ∃ e q', Move w.shared q e (f w).2.shared q' ∧ (f w).2.bus = w.bus.after e ∧
      (next (f w).1).Plays Q q'

def ThenPlays (Q : Except Halt β → Stance → Prop) (g : α → Act σ β) : Except Halt α → Stance → Prop
  | .ok a, q => (g a).Plays Q q
  | .error h, q => Q (.error h) q

variable {Q Q' : Except Halt α → Stance → Prop} {q : Stance}

@[simp] theorem plays_pure {a : α} : (pure a : Act σ α).Plays Q q ↔ Q (.ok a) q := Iff.rfl

@[simp] theorem plays_broken {h : Halt} : (broken h : Act σ α).Plays Q q ↔ Q (.error h) q := Iff.rfl

theorem plays_bind {Q : Except Halt β → Stance → Prop} {x : Act σ α} {g : α → Act σ β} :
    (x >>= g).Plays Q q ↔ x.Plays (ThenPlays Q g) q := by
  show (x.bind g).Plays Q q ↔ _
  induction x generalizing q with
  | done a => exact Iff.rfl
  | broken h => exact Iff.rfl
  | step f next ih => simp only [Act.bind, Plays, ih]

theorem plays_attempt {Q : Except Halt (Except Halt α) → Stance → Prop} {x : Act σ α} :
    x.attempt.Plays Q q ↔ x.Plays (fun r q => Q (.ok r) q) q := by
  induction x generalizing q with
  | done a => exact Iff.rfl
  | broken h => exact Iff.rfl
  | step f next ih => simp only [attempt, Plays, ih]

/-- What an action plays to is something it yields. -/
theorem Plays.mono {x : Act σ α} (h : x.Plays Q q) (hok : ∀ a, x.Yields a → ∀ q, Q (.ok a) q → Q' (.ok a) q)
    (herror : ∀ e q, Q (.error e) q → Q' (.error e) q) : x.Plays Q' q := by
  induction x generalizing q with
  | done a => exact hok a (.done a) q h
  | broken e => exact herror e q h
  | step f next ih =>
    intro w
    obtain ⟨e, q', hmove, hbus, hnext⟩ := h w
    exact ⟨e, q', hmove, hbus, ih _ hnext fun a ha => hok a (.step w ha)⟩

theorem plays_update {f : World σ → α × World σ}
    (h : ∀ w, ∃ e q', Move w.shared q e (f w).2.shared q' ∧ (f w).2.bus = w.bus.after e ∧ Q (.ok (f w).1) q') :
    (update f).Plays Q q := h

/-- A step that leaves alone what is shared. -/
theorem plays_still {f : World σ → α × World σ} (hf : ∀ w, (f w).2.shared = w.shared ∧ (f w).2.bus = w.bus)
    (h : ∀ a, Q (.ok a) q) : (update f).Plays Q q := by
  refine plays_update fun w => ⟨none, q, ?_, (hf w).2, h _⟩
  rw [(hf w).1]
  exact .rest

theorem plays_find {f : World σ → α} (h : ∀ a, Q (.ok a) q) : (find f).Plays Q q :=
  plays_still (f := fun w => (f w, w)) (fun _ => ⟨rfl, rfl⟩) h

theorem plays_change {Q : Except Halt Unit → Stance → Prop} {f : World σ → World σ}
    (hf : ∀ w, (f w).shared = w.shared ∧ (f w).bus = w.bus) (h : Q (.ok ()) q) : (change f).Plays Q q :=
  plays_still (f := fun w => ((), f w)) hf fun _ => h

theorem plays_publish {Q : Except Halt Unit → Stance → Prop} {e : Event}
    (htold : e.isNode = true → ∃ l ∈ q.stints, l.key = e.id.text) (h : Q (.ok ()) q) :
    (publish e : Act σ Unit).Plays Q q :=
  plays_update (f := fun w => ((), { w with bus := w.bus.publish e })) fun _ => ⟨some e, q, .told e htold, rfl, h⟩

theorem plays_now {Q : Except Halt Instant → Stance → Prop} (h : ∀ t, Q (.ok t) q) : (now : Act σ Instant).Plays Q q :=
  plays_still (fun _ => ⟨rfl, rfl⟩) h

theorem plays_freshId {Q : Except Halt ExecutionId → Stance → Prop}
    (h : ∀ fresh, Q (.ok fresh) { q with minted := some fresh }) : (freshId : Act σ ExecutionId).Plays Q q :=
  plays_update fun _ => ⟨none, _, .minted, rfl, h _⟩

theorem plays_loadLatest {Q : Except Halt (Except StoreError (Option Record)) → Stance → Prop} {id : InstanceId}
    (hfailed : ∀ e, Q (.ok (.error e)) q)
    (hread : ∀ latest, Q (.ok (.ok latest)) { q with read := some (id, latest) }) :
    (loadLatest id : Act σ _).Plays Q q := by
  refine plays_update fun w => ?_
  simp only [Repository.loadLatest, Repository.call]
  cases w.repository.faults .loadLatest _ with
  | some e => exact ⟨none, q, .rest, rfl, hfailed e⟩
  | none =>
    dsimp only
    cases hlatest : w.repository.store.latest? id with
    | error e => exact ⟨none, q, .rest, rfl, hfailed e⟩
    | ok latest => exact ⟨none, _, .read hlatest, rfl, hread latest⟩

theorem plays_append {Q : Except Halt (Except StoreError Unit) → Stance → Prop} {r : Record}
    (hrefused : ∀ x, (∀ u, x ≠ .ok (.ok u)) → Q x q)
    (hstored : ∀ c s', c.store.append r = .ok s' →
      ∃ q', Move c q none { c with store := s' } q' ∧ Q (.ok (.ok ())) q') :
    (append r : Act σ _).Plays Q q := by
  refine plays_bind.mpr (plays_update fun w => ?_)
  simp only [Repository.append, Repository.call]
  cases w.repository.faults .append _ with
  | some e => exact ⟨none, q, .rest, rfl, hrefused _ fun _ h => by cases h⟩
  | none =>
    dsimp only
    cases happend : w.repository.store.append r with
    | ok s' =>
      obtain ⟨q', hmove, hQ⟩ := hstored w.shared s' happend
      exact ⟨none, q', hmove, rfl, hQ⟩
    | error e =>
      refine ⟨none, q, .rest, rfl, ?_⟩
      cases e with
      | refused e => exact hrefused _ fun _ h => by cases h
      | unwritable => exact hrefused _ fun _ h => by cases h

/-- Storing a record and then seeing to the live views. -/
theorem plays_stored {Q : Except Halt (Except CheckpointError Unit) → Stance → Prop} {r : Record}
    {f : World σ → World σ} (hf : ∀ w, (f w).shared = w.shared ∧ (f w).bus = w.bus)
    (hrefused : ∀ x, x ≠ .ok (.ok ()) → Q x q)
    (hstored : ∀ c s', c.store.append r = .ok s' →
      ∃ q', Move c q none { c with store := s' } q' ∧ Q (.ok (.ok ())) q') :
    (do
      match ← Checkpoint.persist r with
      | .ok () =>
        change f
        return .ok ()
      | .error e => return .error e : Act σ (Except CheckpointError Unit)).Plays Q q := by
  simp only [Checkpoint.persist, bind_assoc]
  refine plays_bind.mpr (plays_append (fun x hx => ?_) (fun c s' happend => ?_))
  · rcases x with halt | e | u
    · exact hrefused _ (by rintro ⟨⟩)
    · exact hrefused _ (by rintro ⟨⟩)
    · exact absurd rfl (hx u)
  · obtain ⟨q', hmove, hQ⟩ := hstored c s' happend
    refine ⟨q', hmove, ?_⟩
    show (change f >>= fun _ => pure (.ok ())).Plays Q q'
    exact plays_bind.mpr (plays_change hf hQ)

end Act

/-! ## Attempts stay in hand -/

variable {σ α : Type}

/-- To move only, and to have these attempts in hand afterwards if they were before. -/
def holding (lines : List Line) : Manner σ :=
  { Has := fun x => ∀ q : Stance, lines.Sublist q.stints → x.Plays (fun _ q' => lines.Sublist q'.stints) q
    pure := fun _ _ hq => hq
    broken := fun _ _ hq => hq
    quiet := fun hf _ hq => Act.plays_still (fun w => ⟨congrArg Core.shared (hf w).1, (hf w).2.1⟩) fun _ => hq
    status := fun _ _ _ hq => Act.plays_change (fun _ => ⟨rfl, rfl⟩) hq
    bind := fun hx hg q hq => Act.plays_bind.mpr ((hx q hq).mono (fun a ha q' hq' => hg a ha q' hq') fun _ _ h => h)
    attempt := fun hx q hq => Act.plays_attempt.mpr (hx q hq) }

variable {lines : List Line} {r : Runner σ} {run : Runner.Run σ}

/-! ### Abandoning -/

theorem holds_abandon (id : InstanceId) : (holding lines).Has (Runner.abandon id : Act σ (Except JobError Record)) := by
  intro q hq
  refine Act.plays_bind.mpr (Act.plays_find fun claimed => ?_)
  simp only [Act.ThenPlays]
  split
  · exact hq
  refine Act.plays_bind.mpr (Act.plays_loadLatest (fun e => hq) fun latest => ?_)
  cases latest with
  | none => exact hq
  | some latest =>
    refine Act.plays_bind.mpr (Act.plays_now fun now => Act.plays_bind.mpr (Act.plays_freshId fun fresh => ?_))
    simp only [Act.ThenPlays]
    split
    next e he => exact Runner.has_refuse (M := holding lines) e _ hq
    next rec hrec =>
      refine Act.plays_bind.mpr (Act.plays_append (fun x hx => ?_) fun c s' happend => ?_)
      · rcases x with halt | e | u
        · exact hq
        · exact hq
        · exact absurd rfl (hx u)
      · have hfinal := finalStatus_of_abandoned hrec
        rcases abandoned_eq_ok hrec with ⟨hopen, hid, hinstance, hattempt⟩ | ⟨rfl, rfl, hnext⟩
        · exact ⟨_, .abandoned rfl hopen hid hinstance hattempt hfinal happend, hq⟩
        · exact ⟨_, .marked rfl rfl hnext hfinal happend, hq⟩

/-! ### Runs -/

/-- Opening an attempt takes it in hand. -/
theorem plays_begin? {q : Stance} (hq : lines.Sublist q.stints) (d : Definition) (id : InstanceId)
    (parameters : Parameters) :
    (Runner.begin? d id parameters : Act σ _).Plays
      (fun x q' => lines.Sublist q'.stints ∧ ∀ start rec, x = .ok (.ok (start, rec)) →
        rec.finalStatus = none ∧ (Line.ofRecord rec :: lines).Sublist q'.stints) q := by
  refine Act.plays_bind.mpr (Act.plays_loadLatest (fun e => ⟨hq, by rintro _ _ ⟨⟩⟩) fun latest => ?_)
  simp only [Act.ThenPlays]
  split
  next e he =>
    have hrefuse : (Runner.refuse e : Act σ (Except JobError (FlowStart × Record))).Plays
        (fun _ q' => lines.Sublist q'.stints) { q with read := some (id, latest) } :=
      Runner.has_refuse (M := holding lines) e _ hq
    refine hrefuse.mono (fun a ha q' hq' => ⟨hq', ?_⟩) fun _ _ hq' => ⟨hq', by rintro _ _ ⟨⟩⟩
    rintro start rec ⟨⟩
    cases e <;> cases ha
  next point hpoint =>
    refine Act.plays_bind.mpr (Act.plays_freshId fun fresh => Act.plays_bind.mpr (Act.plays_now fun now => ?_))
    refine Act.plays_bind.mpr (Act.plays_stored (fun _ => ⟨rfl, rfl⟩) (fun x hx => ?_) fun c s' happend => ?_)
    · rcases x with halt | e | u
      · exact ⟨hq, by rintro _ _ ⟨⟩⟩
      · exact ⟨hq, by rintro _ _ ⟨⟩⟩
      · exact absurd rfl hx
    · refine ⟨_, .opened rfl rfl (nextAfter_of_resolve hpoint) rfl happend, hq.cons _, ?_⟩
      rintro start rec ⟨⟩
      exact ⟨rfl, hq.cons_cons _⟩

section Attempts

variable {rec : Record} (hopen : rec.finalStatus = none)

include hopen

theorem finalStatus_of_sameLine {rec' : Record} (h : Line.ofRecord rec' = Line.ofRecord rec) :
    rec'.finalStatus = none := by
  have hfinal : rec'.finalStatus.map Status.name = rec.finalStatus.map Status.name := congrArg Line.final h
  rw [hopen] at hfinal
  exact Option.map_eq_none_iff.mp hfinal

/-- The record of an attempt in hand may be stored after every node. -/
theorem storable_holding (ex : Executor σ) : ex.Storable (fun rec' => Line.ofRecord rec' = Line.ofRecord rec)
    (holding (Line.ofRecord rec :: lines)) := by
  refine ⟨fun rec' p o h => (Line.ofRecord_note rec' o).trans h, fun rec' hline q hq => ?_,
    fun _ _ _ _ _ hq => Act.plays_change (fun _ => ⟨rfl, rfl⟩) hq⟩
  refine Act.plays_stored (fun _ => ⟨rfl, rfl⟩) (fun _ _ => hq) fun c s' happend => ⟨q, ?_, hq⟩
  have hmem : Line.ofRecord rec' ∈ q.stints := hline ▸ hq.subset List.mem_cons_self
  exact .noted hmem (finalStatus_of_sameLine hopen hline) happend

theorem plays_execute {ex : Executor σ} {g : Graph} {start : FlowStart} {q : Stance}
    (hex : ex.Closed (holding (Line.ofRecord rec :: lines))) (hq : (Line.ofRecord rec :: lines).Sublist q.stints) :
    (ex.execute g start rec).Plays (fun _ q' => lines.Sublist q'.stints) q := by
  have hrecord : ∀ rec' ∈ some rec, Line.ofRecord rec' = Line.ofRecord rec := by simp
  have hstorable : ex.Storable (fun rec' => Line.ofRecord rec' = Line.ofRecord rec)
      (holding (Line.ofRecord rec :: lines)) := storable_holding hopen ex
  have hwalk : (holding (Line.ofRecord rec :: lines)).Has (ex.traverseGraph g start rec.context (some rec)) :=
    Executor.has_traverseGraph hex hstorable g start rec.context hrecord
  refine Act.plays_bind.mpr ((hwalk q hq).mono (fun walked hwalked q' hq' => ?_) fun e q' hq' => ?_)
  swap
  · exact (List.sublist_cons_self _ _).trans hq'
  rcases walked with ⟨e | traversal, kept⟩
  · exact (List.sublist_cons_self _ _).trans hq'
  have hkept : ∀ rec' ∈ kept, Line.ofRecord rec' = Line.ofRecord rec :=
    Executor.kept_of_traverse_yields hstorable.noted hrecord hwalked
  have hline : Line.ofRecord (kept.getD rec) = Line.ofRecord rec := by
    cases kept with
    | none => rfl
    | some rec' => exact hkept rec' rfl
  refine Act.plays_bind.mpr (Act.plays_now fun now => ?_)
  have hsame := sameAttempt_sealWith hline traversal.context traversal.outcome now
  refine Act.plays_bind.mpr (Act.plays_stored (fun _ => ⟨rfl, rfl⟩) (fun x hx => ?_) fun c s' happend => ?_)
  · have hlines : lines.Sublist q'.stints := (List.sublist_cons_self _ _).trans hq'
    rcases x with halt | e | u
    · exact hlines
    · exact hlines
    · exact absurd rfl hx
  · refine ⟨_, .sealed (hq'.subset List.mem_cons_self) hsame happend, ?_⟩
    have herased := hq'.erase (Line.ofRecord rec)
    rwa [List.erase_cons_head] at herased

theorem plays_drive (hrun : ∀ lines depth job parameters, (holding lines).Has (run depth job parameters))
    {d : Definition} {start : FlowStart} {depth : Nat} {t : Token} {q : Stance}
    (hq : (Line.ofRecord rec :: lines).Sublist q.stints) :
    (r.drive run d start rec depth t).Plays (fun _ q' => lines.Sublist q'.stints) q := by
  have htell : ∀ e : Event, e.isNode = true → e.id = rec.id →
      (holding (Line.ofRecord rec :: lines)).Has (Act.publish e : Act σ Unit) := by
    intro e _ he q hq
    refine Act.plays_publish (fun _ => ⟨Line.ofRecord rec, hq.subset List.mem_cons_self, ?_⟩) hq
    rw [he]
    rfl
  have hex : (r.executor run rec depth t).Closed (holding (Line.ofRecord rec :: lines)) :=
    Runner.closed_executor (hrun _) holds_abandon rec depth t htell
  refine Act.plays_bind.mpr (Act.plays_publish (fun h => by cases h) ?_)
  refine Act.plays_bind.mpr (Act.plays_find fun before => ?_)
  refine Act.plays_bind.mpr ((plays_execute hopen hex hq).mono (fun done _ q' hq' => ?_) fun _ _ hq' => hq')
  rcases done with ⟨e | outcome, final⟩
  · exact hq'
  · refine Act.plays_bind.mpr (Act.plays_find fun after => ?_)
    exact Act.plays_bind.mpr (Act.plays_publish (fun h => by cases h) hq')

end Attempts

theorem holds_runOver (hrun : ∀ lines depth job parameters, (holding lines).Has (run depth job parameters))
    (depth : Nat) (job : String) (parameters : Parameters) :
    (holding lines).Has (r.runOver run depth job parameters) := by
  intro q hq
  refine Act.plays_bind.mpr (Act.plays_find fun found => ?_)
  cases found with
  | none => exact hq
  | some d =>
    refine Act.plays_bind.mpr (Act.plays_still (fun w => ?_) fun claimed => ?_)
    · split <;> exact ⟨rfl, rfl⟩
    cases claimed with
    | none => exact hq
    | some t =>
      have hattempt : (r.attemptOver run d (InstanceId.derive d.name parameters) depth t parameters).Plays
          (fun _ q' => lines.Sublist q'.stints) q := by
        refine Act.plays_bind.mpr ((plays_begin? hq d _ parameters).mono (fun begun _ q' hbegun => ?_)
          fun _ _ hbegun => hbegun.1)
        rcases begun with e | ⟨start, rec⟩
        · exact hbegun.1
        · obtain ⟨hopen, hline⟩ := hbegun.2 start rec rfl
          exact plays_drive hopen hrun hline
      refine Act.plays_bind.mpr (Act.plays_attempt.mpr (hattempt.mono (fun _ _ q' hq' => ?_) fun _ q' hq' => ?_))
      all_goals exact Act.plays_bind.mpr (Act.plays_change (fun _ => ⟨rfl, rfl⟩) hq')

theorem holds_run (r : Runner σ) (levels : Nat) (lines : List Line) (depth : Nat) (job : String)
    (parameters : Parameters) : (holding lines).Has (r.run levels depth job parameters) := by
  induction levels generalizing lines depth job parameters with
  | zero => exact fun _ hq => hq
  | succ levels ih => exact holds_runOver ih depth job parameters

theorem plays_request (r : Runner σ) (q : Request) : (r.request q).Plays (fun _ _ => True) {} := by
  have hhandle : (holding []).Has (r.request q) :=
    Runner.has_handle (holds_run r Runner.ampleLevels [] 0) holds_abandon q
  exact (hhandle {} (List.Sublist.refl _)).mono (fun _ _ _ _ => trivial) fun _ _ _ => trivial

end Switchyard
