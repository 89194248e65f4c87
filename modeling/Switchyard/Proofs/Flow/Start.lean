import Switchyard.Flow.Start

/-
  Switchyard.Proofs.Flow.Start — when an instance may begin another attempt, and where.

  `resolve_eq_ok_iff` gives the decision in full; `restartable_iff` says which records
  are open to another attempt.
-/

namespace Switchyard

theorem Record.restartable_iff (r : Record) : (r.isSealed = true ∧ r.status.isRestartable = true) ↔
    r.finalStatus = some .failed ∨ r.finalStatus = some .stopped := by
  unfold Record.isSealed Record.status
  cases r.finalStatus with
  | none => simp
  | some s => cases s <;> simp [Status.isRestartable]

namespace StartPoint

theorem nextAttempt_eq_ok_iff {r : Record} {n : Nat} :
    nextAttempt r = .ok n ↔ r.attempt < Text.maxU32 ∧ n = r.attempt + 1 := by
  unfold nextAttempt
  split
  next h => simp [h, eq_comm]
  next h => simp [h]

def resumed (g : Graph) (r : Record) : StartPoint :=
  { attempt := r.attempt + 1
    context := r.context
    start :=
      { node := restartNode g r
        last := lastOutcome? r.lastNode r.lastExit
        prior := r.branches.get? (restartNode g r) } }

theorem resolve_eq_ok_iff {latest : Option Record} {g : Graph} {restartable : Bool} {point : StartPoint} :
    resolve latest g restartable = .ok point ↔
      match latest with
      | none => point = fresh g
      | some r => (r.finalStatus = some .failed ∨ r.finalStatus = some .stopped) ∧ restartable = true ∧
          g.contains (restartNode g r) = true ∧ r.attempt < Text.maxU32 ∧ point = resumed g r := by
  cases latest with
  | none => simp [resolve, eq_comm]
  | some r =>
    dsimp only
    rw [← r.restartable_iff]
    simp only [resolve]
    cases hsealed : r.isSealed with
    | false => simp
    | true =>
      cases hstatus : r.status.isRestartable with
      | false => simp
      | true =>
        cases restartable with
        | false => simp
        | true =>
          cases hcontains : g.contains (restartNode g r) with
          | false => simp
          | true =>
            cases hnext : nextAttempt r with
            | error e =>
              have hno : ¬r.attempt < Text.maxU32 := fun h => by simp [nextAttempt, h] at hnext
              simp [hno, Except.map]
            | ok n =>
              obtain ⟨hlt, rfl⟩ := nextAttempt_eq_ok_iff.mp hnext
              simp [hlt, Except.map, resumed, eq_comm]

end StartPoint

end Switchyard
