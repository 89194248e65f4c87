import Switchyard.Proofs.Act

/-
  Switchyard.Proofs.Identity — the identifier of an instance can be told in part, so a
  record of it can always be appended or refused.

  The identifier that a job and its parameters derive has only hexadecimal digits, of one
  byte each. It may be cut anywhere (`isSome_short?_derive`), and so an attempt that is
  there already is a conflict that can be told of (`Repository.append_ne_unwritable`).

  - `Act.run_append_of_short`: an append of such a record comes to what the repository answers.
-/

namespace Switchyard

theorem Text.utf8Size_hexDigit : ∀ n < 16, (hexDigit n).utf8Size = 1 := by decide

theorem Text.utf8Size_of_mem_hexByte {b : UInt8} {c : Char} (h : c ∈ hexByte b) : c.utf8Size = 1 := by
  have hlt : b.toNat < 256 := b.toNat_lt
  simp only [hexByte, List.mem_cons, List.not_mem_nil, or_false] at h
  rcases h with rfl | rfl
  · exact utf8Size_hexDigit _ (by omega)
  · exact utf8Size_hexDigit _ (by omega)

namespace InstanceId

theorem isSome_cut? {cs : List Char} (h : ∀ c ∈ cs, c.utf8Size = 1) (n : Nat) : (cut? n cs).isSome = true := by
  induction cs generalizing n with
  | nil => cases n <;> rfl
  | cons c rest ih =>
    cases n with
    | zero => rfl
    | succ n =>
      have hc : c.utf8Size = 1 := h c List.mem_cons_self
      have hle : c.utf8Size ≤ n + 1 := by omega
      simp only [cut?, if_pos hle, Option.isSome_map]
      exact ih (fun c hc => h c (List.mem_cons_of_mem _ hc)) _

theorem isSome_short?_derive (job : String) (parameters : Parameters) :
    (derive job parameters).short?.isSome = true := by
  rw [short?, Option.isSome_map]
  refine isSome_cut? (fun c hc => ?_) 12
  rw [derive, Text.hex, String.toList_ofList] at hc
  obtain ⟨b, -, hb⟩ := List.mem_flatMap.mp hc
  exact Text.utf8Size_of_mem_hexByte hb

theorem head?_straddle (id : InstanceId) : id.straddle.toList.head? = some 'b' := by
  have hfront : ∀ s t : String, s.toList.head? = some 'b' → (s ++ t).toList.head? = some 'b' := by
    intro s t hs
    rw [String.toList_append, List.head?_append, hs]
    rfl
  unfold straddle
  dsimp only
  repeat apply hfront
  decide

end InstanceId

variable {r : Record}

theorem Store.append_ne_unwritable (hid : r.instanceId.short?.isSome = true) (s : Store) :
    s.append r ≠ .error .unwritable := by
  obtain ⟨short, hshort⟩ := Option.isSome_iff_exists.mp hid
  cases s with
  | shelf l =>
    simp only [append, Shelf.append, Shelf.taken, hshort]
    split
    · nofun
    · split <;> nofun
  | table t =>
    simp only [append, Table.append]
    split
    · nofun
    · split
      · nofun
      · split <;> nofun

theorem Repository.append_ne_unwritable (hid : r.instanceId.short?.isSome = true) (h : Repository) :
    (h.append r).1 ≠ .error .unwritable := by
  unfold append
  cases h.call .append with
  | mk fault counted =>
    cases fault with
    | some e => nofun
    | none =>
      dsimp only
      cases hs : counted.store.append r with
      | ok s => nofun
      | error e =>
        intro he
        cases he
        exact Store.append_ne_unwritable hid counted.store hs

/-! ## What the caller of an append gets -/

namespace Act

variable {σ : Type} {w : World σ}

theorem world_append (w : World σ) (r : Record) :
    ((append r).run w).2 = { w with repository := (w.repository.append r).2 } := by
  simp only [append, call, run_bind, run_update]
  rcases (w.repository.append r).1 with (e | _) | _ <;> rfl

theorem append_of_ok (h : (w.repository.append r).1 = .ok ()) : ((append r).run w).1 = .ok (.ok ()) := by
  simp only [append, call, run_bind, run_update, h, run_pure]

theorem append_of_refused {e : StoreError} (h : (w.repository.append r).1 = .error (.refused e)) :
    ((append r).run w).1 = .ok (.error e) := by
  simp only [append, call, run_bind, run_update, h, run_pure]

theorem append_of_unwritable (h : (w.repository.append r).1 = .error .unwritable) :
    ∃ p, ((append r).run w).1 = .error (.panic p) := by
  refine ⟨.text r.instanceId.straddle, ?_⟩
  simp only [append, call, run_bind, run_update, h, run_broken]

/-- What the repository answers to an append of a record whose instance can be told of. -/
theorem run_append_of_short (hid : r.instanceId.short?.isSome = true) (w : World σ) :
    (w.repository.append r).1 = .ok () ∧
        (append r).run w = (.ok (.ok ()), { w with repository := (w.repository.append r).2 }) ∨
      ∃ e, (w.repository.append r).1 = .error (.refused e) ∧
        (append r).run w = (.ok (.error e), { w with repository := (w.repository.append r).2 }) := by
  have hwritable := Repository.append_ne_unwritable hid w.repository
  rcases hanswer : (w.repository.append r).1 with (e | _) | _
  · exact Or.inr ⟨e, rfl, Prod.ext (append_of_refused hanswer) (world_append w r)⟩
  · exact absurd hanswer hwritable
  · exact Or.inl ⟨rfl, Prod.ext (append_of_ok hanswer) (world_append w r)⟩

end Act

end Switchyard
