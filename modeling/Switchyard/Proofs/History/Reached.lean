import Switchyard.Proofs.History.Guarded

/-
  Switchyard.Proofs.History.Reached — whatever runners are asked, in whatever order, every
  instance's attempts are numbered without a gap and only the latest one may be open.

  `Reached` are the worlds that requests lead to from an empty store of either kind, at
  every moment in the middle of a request, with any calls to the store failing, and over
  any number of runners and registered jobs. `history_orderly` says what every page of
  such a world looks like.
-/

namespace Switchyard

variable {σ : Type}

inductive Reached : World σ → Prop
  /-- An empty store; the rest of the world may be anything. -/
  | empty {w : World σ} : w.repository.store = .shelf Shelf.empty ∨ w.repository.store = .table Table.empty → Reached w
  /-- Some moment of a request, be it the last one. -/
  | during {w w' : World σ} (r : Runner σ) (q : Request) : Reached w → (r.request q).Passes w w' → Reached w'
  /-- The store is opened again, and identifiers go on where they were or further. -/
  | reopened {w w' : World σ} : Reached w → w'.repository.store = w.repository.store →
      w'.clock.originMillis = w.clock.originMillis → w.clock.issued ≤ w'.clock.issued → Reached w'

/-- A request done from beginning to end. -/
theorem Reached.after {w : World σ} (h : Reached w) (r : Runner σ) (q : Request) :
    Reached ((r.request q).run w).2 := .during r q h (Act.passes_run _ _)

theorem page_of_empty {s : Store} (h : s = .shelf Shelf.empty ∨ s = .table Table.empty) (id : InstanceId) :
    s.page id = [] := by
  rcases h with rfl | rfl <;> rfl

theorem filed_of_empty {c : Shared} (h : c.store = .shelf Shelf.empty ∨ c.store = .table Table.empty) : Filed c := by
  have hno : ∀ id, ∀ l, l ∉ c.store.page id := by
    intro id l hl
    rw [page_of_empty h] at hl
    cases hl
  refine ⟨fun id => ?_, fun id l hl => absurd hl (hno id l), fun id l hl => absurd hl (hno id l),
    fun id _ l hl => absurd hl (hno id l)⟩
  rw [page_of_empty h]
  exact .nil

theorem sound_of_empty {c : Core} (h : c.store = .shelf Shelf.empty ∨ c.store = .table Table.empty) : Sound c := by
  refine ⟨filed_of_empty h, fun id l hl => ?_⟩
  rw [page_of_empty h] at hl
  cases hl

theorem sound_of_reached {w : World σ} (h : Reached w) (hids : w.clock.issued ≤ ExecutionId.room) : Sound w.core := by
  induction h with
  | empty hempty => exact sound_of_empty hempty
  | @during w w' r q _ hpasses ih =>
    have hw : On (Guarded w.core.faults []) w := ⟨rfl, by simp, fun hroom => ⟨ih hroom, by simp⟩⟩
    have hw' : On (Guarded w.core.faults []) w' := (keeps_request r q).passes hw hpasses
    exact (hw'.sound hids).1
  | @reopened w w' _ hstore hmillis hissued ih =>
    have hw := (ih (Nat.le_trans hissued hids)).mono hissued
    have hshared : { w.core with issued := w'.clock.issued }.shared = w'.core.shared := by
      simp only [Core.shared, World.core, hstore, hmillis]
    refine ⟨hshared ▸ hw.toFiled, fun id => ?_⟩
    rw [show w'.core.store = w.core.store from hstore]
    exact hw.settled id

theorem history_orderly {w : World σ} (h : Reached w) (hids : w.clock.issued ≤ ExecutionId.room) (id : InstanceId) :
    Orderly (w.repository.store.page id) :=
  (sound_of_reached h hids).orderly id

/-! ### A history with a fault in it -/

def flakyUnits : Units Nat :=
  { step := fun _ => some fun b calls =>
      .finish (calls + 1) (.result
        (if b.attempt = 1 then { status := .failed, exit := Exit.failed }
         else { status := .completed, exit := Exit.completed }))
    decider := fun _ => none }

def flakyRunner : Runner Nat := { config := {}, units := flakyUnits }

def faultyWorld : World Nat :=
  { repository :=
      { store := .table Table.empty
        faults := fun m n => if m = .append ∧ n = 6 then some .connection else none }
    jobs := Dict.empty.insert "nightly" { graph := ⟨"nightly", "load", [⟨"load", .step "load", []⟩]⟩ }
    bus := Bus.ofCapacity 4
    clock := { origin := Instant.ofSeconds 0 0 }
    memory := 0 }

def nightly : InstanceId := InstanceId.derive "nightly" Dict.empty

def faultyEnd : World Nat :=
  let afterOne := ((flakyRunner.request (.run "nightly" Dict.empty)).run faultyWorld).2
  let afterTwo := ((flakyRunner.request (.run "nightly" Dict.empty)).run afterOne).2
  ((flakyRunner.request (.abandon nightly)).run afterTwo).2

theorem history_orderly_of_fault :
    (faultyEnd.repository.store.page nightly).map (fun l => (l.attempt, l.final))
        = [(1, some "FAILED"), (2, some "ABANDONED")] ∧
      Orderly (faultyEnd.repository.store.page nightly) := by
  refine ⟨by decide +kernel, history_orderly ?_ (by decide +kernel) nightly⟩
  have hstart : Reached faultyWorld := .empty (Or.inr rfl)
  exact ((hstart.after flakyRunner _).after flakyRunner _).after flakyRunner _

end Switchyard
