import Switchyard.Engine.Act

/-
  Switchyard.Proofs.Act — what an action does to the world, told step by step.

  `x.Passes w w'` says that `x`, done from `w`, goes through `w'`. `x.Meets I Q w` says
  that every world after a step of `x` is in `I`, and that `Q` holds of what `x` comes
  to, broken off or not, and of the world it leaves. `x.Keeps J` says that `x`, done from
  a world in `J`, never leaves `J`.

  An action is put together by `bind`, `attempt` and `within`; `meets_bind`,
  `meets_attempt` and their kin for `Keeps` take it apart again, so that what an engine
  function keeps follows from what its parts keep.

  `x.Yields a` says that `x` may come to `a` while others act: each of its steps is
  taken in whatever world it then finds. `x.Goes steps y` tells these steps one by one, as
  far as it has come, with what is left to do; `x.Preserves J` says that none of them
  leads out of `J`, `x.Spares f` that none of them changes this part of the world, `x.Sure`
  that nothing breaks it off, and `x.Calm` that no panic does. `x.path` are its steps with
  nothing in between.
-/

namespace Switchyard.Act

variable {σ α β : Type}

/-! ## Running single steps -/

@[simp] theorem run_find (f : World σ → α) (w : World σ) : (find f).run w = (.ok (f w), w) := rfl

@[simp] theorem run_change (f : World σ → World σ) (w : World σ) : (change f).run w = (.ok (), f w) := rfl

@[simp] theorem run_update (f : World σ → α × World σ) (w : World σ) : (update f).run w = (.ok (f w).1, (f w).2) := rfl

@[simp] theorem run_broken (h : Halt) (w : World σ) : (broken h : Act σ α).run w = (.error h, w) := rfl

theorem run_bind_ok {x : Act σ α} {g : α → Act σ β} {w w' : World σ} {a : α} (h : x.run w = (.ok a, w')) :
    (x >>= g).run w = (g a).run w' := by
  rw [run_bind, h]

theorem run_bind_error {x : Act σ α} {g : α → Act σ β} {w w' : World σ} {e : Halt} (h : x.run w = (.error e, w')) :
    (x >>= g).run w = (.error e, w') := by
  rw [run_bind, h]

theorem run_bind_eq_ok {x : Act σ α} {g : α → Act σ β} {w w' : World σ} {b : β}
    (h : (x >>= g).run w = (.ok b, w')) : ∃ a w₁, x.run w = (.ok a, w₁) ∧ (g a).run w₁ = (.ok b, w') := by
  rw [run_bind] at h
  cases hx : x.run w with
  | mk r w₁ =>
    rw [hx] at h
    cases r with
    | error e => cases h
    | ok a => exact ⟨a, w₁, rfl, h⟩

/-! ## The worlds an action goes through -/

inductive Passes : {α : Type} → Act σ α → World σ → World σ → Prop
  | start {α : Type} (x : Act σ α) (w : World σ) : Passes x w w
  | step {α β : Type} {f : World σ → β × World σ} {next : β → Act σ α} {w w' : World σ} :
      Passes (next (f w).1) (f w).2 w' → Passes (.step f next) w w'

theorem passes_run (x : Act σ α) (w : World σ) : x.Passes w (x.run w).2 := by
  induction x generalizing w with
  | done a => exact .start _ _
  | broken h => exact .start _ _
  | step f next ih => exact .step (ih _ _)

theorem passes_of_run {x : Act σ α} {r : Except Halt α} {w w' : World σ} (h : x.run w = (r, w')) : x.Passes w w' := by
  have hpasses := passes_run x w
  rwa [h] at hpasses

theorem Passes.bind_left {x : Act σ α} {w w' : World σ} (h : x.Passes w w') (g : α → Act σ β) :
    (x >>= g).Passes w w' := by
  induction x generalizing w with
  | done a =>
    cases h
    exact .start _ _
  | broken e =>
    cases h
    exact .start _ _
  | step f next ih =>
    cases h with
    | start => exact .start _ _
    | step h => exact .step (ih _ h)

theorem Passes.bind_right {x : Act σ α} {g : α → Act σ β} {w w₁ w' : World σ} {a : α} (hx : x.run w = (.ok a, w₁))
    (h : (g a).Passes w₁ w') : (x >>= g).Passes w w' := by
  induction x generalizing w with
  | done b =>
    cases hx
    exact h
  | broken e => cases hx
  | step f next ih => exact .step (ih _ hx)

theorem Passes.attempt {x : Act σ α} {w w' : World σ} (h : x.Passes w w') : x.attempt.Passes w w' := by
  induction x generalizing w with
  | done a =>
    cases h
    exact .start _ _
  | broken e =>
    cases h
    exact .start _ _
  | step f next ih =>
    cases h with
    | start => exact .start _ _
    | step h => exact .step (ih _ h)

/-! ## Every step and the end -/

def Meets (I : World σ → Prop) (Q : Except Halt α → World σ → Prop) : Act σ α → World σ → Prop
  | .done a, w => Q (.ok a) w
  | .broken h, w => Q (.error h) w
  | .step f next, w => I (f w).2 ∧ (next (f w).1).Meets I Q (f w).2

def Then (I : World σ → Prop) (Q : Except Halt β → World σ → Prop) (g : α → Act σ β) :
    Except Halt α → World σ → Prop
  | .ok a, w => (g a).Meets I Q w
  | .error h, w => Q (.error h) w

variable {I J : World σ → Prop}

@[simp] theorem meets_pure {Q : Except Halt α → World σ → Prop} {a : α} {w : World σ} :
    (pure a : Act σ α).Meets I Q w ↔ Q (.ok a) w := Iff.rfl

@[simp] theorem meets_broken {Q : Except Halt α → World σ → Prop} {h : Halt} {w : World σ} :
    (broken h : Act σ α).Meets I Q w ↔ Q (.error h) w := Iff.rfl

@[simp] theorem meets_find {Q : Except Halt α → World σ → Prop} {f : World σ → α} {w : World σ} :
    (find f).Meets I Q w ↔ I w ∧ Q (.ok (f w)) w := Iff.rfl

@[simp] theorem meets_change {Q : Except Halt Unit → World σ → Prop} {f : World σ → World σ} {w : World σ} :
    (change f).Meets I Q w ↔ I (f w) ∧ Q (.ok ()) (f w) := Iff.rfl

@[simp] theorem meets_update {Q : Except Halt α → World σ → Prop} {f : World σ → α × World σ} {w : World σ} :
    (update f).Meets I Q w ↔ I (f w).2 ∧ Q (.ok (f w).1) (f w).2 := Iff.rfl

@[simp] theorem meets_bind {Q : Except Halt β → World σ → Prop} {x : Act σ α} {g : α → Act σ β} {w : World σ} :
    (x >>= g).Meets I Q w ↔ x.Meets I (Then I Q g) w := by
  show (x.bind g).Meets I Q w ↔ _
  induction x generalizing w with
  | done a => exact Iff.rfl
  | broken h => exact Iff.rfl
  | step f next ih => simp only [Act.bind, Meets, ih]

@[simp] theorem meets_attempt {Q : Except Halt (Except Halt α) → World σ → Prop} {x : Act σ α} {w : World σ} :
    x.attempt.Meets I Q w ↔ x.Meets I (fun r w => Q (.ok r) w) w := by
  induction x generalizing w with
  | done a => exact Iff.rfl
  | broken h => exact Iff.rfl
  | step f next ih => simp only [attempt, Meets, ih]

theorem Meets.mono {Q Q' : Except Halt α → World σ → Prop} {x : Act σ α} {w : World σ} (h : x.Meets I Q w)
    (hI : ∀ w, I w → J w) (hQ : ∀ r w, Q r w → Q' r w) : x.Meets J Q' w := by
  induction x generalizing w with
  | done a => exact hQ _ _ h
  | broken e => exact hQ _ _ h
  | step f next ih => exact ⟨hI _ h.1, ih _ h.2⟩

theorem Meets.run {Q : Except Halt α → World σ → Prop} {x : Act σ α} {w : World σ} (h : x.Meets I Q w) :
    Q (x.run w).1 (x.run w).2 := by
  induction x generalizing w with
  | done a => exact h
  | broken e => exact h
  | step f next ih => exact ih _ h.2

theorem Meets.with_run {Q : Except Halt α → World σ → Prop} {x : Act σ α} {w : World σ} (h : x.Meets I Q w) :
    x.Meets I (fun r w' => Q r w' ∧ x.run w = (r, w')) w := by
  induction x generalizing w with
  | done a => exact ⟨h, rfl⟩
  | broken e => exact ⟨h, rfl⟩
  | step f next ih => exact ⟨h.1, ih _ h.2⟩

theorem Meets.passes {Q : Except Halt α → World σ → Prop} {x : Act σ α} {w w' : World σ} (h : x.Meets I Q w)
    (hw : I w) (hp : x.Passes w w') : I w' := by
  induction hp with
  | start => exact hw
  | step _ ih => exact ih h.2 h.1

/-- Every step of an action is one that it passes, and it ends as it runs. -/
theorem passes_meets (x : Act σ α) (w : World σ) : x.Meets (x.Passes w) (fun r w' => x.run w = (r, w')) w := by
  induction x generalizing w with
  | done a => rfl
  | broken e => rfl
  | step f next ih => exact ⟨.step (.start _ _), (ih _ _).mono (fun _ h => .step h) fun _ _ h => h⟩

/-! ## What an action may come to while others act -/

inductive Yields : {α : Type} → Act σ α → α → Prop
  | done {α : Type} (a : α) : Yields (.done a) a
  | step {α β : Type} {f : World σ → β × World σ} {next : β → Act σ α} {a : α} (w : World σ) :
      Yields (next (f w).1) a → Yields (.step f next) a

theorem Yields.of_run {x : Act σ α} {w w' : World σ} {a : α} (h : x.run w = (.ok a, w')) : x.Yields a := by
  induction x generalizing w with
  | done b =>
    cases h
    exact .done _
  | broken e => cases h
  | step f next ih => exact .step w (ih _ h)

theorem yields_pure {a b : α} (h : (pure a : Act σ α).Yields b) : b = a := by
  cases h
  rfl

theorem not_yields_broken {h : Halt} {a : α} : ¬ (broken h : Act σ α).Yields a := nofun

theorem yields_bind {x : Act σ α} {g : α → Act σ β} {b : β} (h : (x >>= g).Yields b) :
    ∃ a, x.Yields a ∧ (g a).Yields b := by
  change (x.bind g).Yields b at h
  induction x with
  | done a => exact ⟨a, .done a, h⟩
  | broken e => cases h
  | step f next ih =>
    cases h with
    | step w h =>
      obtain ⟨a, hx, hg⟩ := ih _ h
      exact ⟨a, .step w hx, hg⟩

theorem yields_attempt {x : Act σ α} {a : α} (h : x.attempt.Yields (.ok a)) : x.Yields a := by
  induction x with
  | done b =>
    cases h
    exact .done _
  | broken e => cases h
  | step f next ih =>
    cases h with
    | step w h => exact .step w (ih _ h)

/-! ## Actions that never leave a set of worlds -/

def Keeps (J : World σ → Prop) (x : Act σ α) : Prop := ∀ w, J w → x.Meets J (fun _ w => J w) w

theorem Keeps.pure {a : α} : (Pure.pure a : Act σ α).Keeps J := fun _ hw => hw

theorem Keeps.broken {h : Halt} : (broken h : Act σ α).Keeps J := fun _ hw => hw

theorem Keeps.find {f : World σ → α} : (find f).Keeps J := fun _ hw => ⟨hw, hw⟩

theorem Keeps.change {f : World σ → World σ} (h : ∀ w, J w → J (f w)) : (change f).Keeps J :=
  fun w hw => ⟨h w hw, h w hw⟩

theorem Keeps.update {f : World σ → α × World σ} (h : ∀ w, J w → J (f w).2) : (update f).Keeps J :=
  fun w hw => ⟨h w hw, h w hw⟩

/-- What comes after an action may count on what the action can come to. -/
theorem Keeps.bind_yields {x : Act σ α} {g : α → Act σ β} (hx : x.Keeps J) (hg : ∀ a, x.Yields a → (g a).Keeps J) :
    (x >>= g).Keeps J := by
  intro w hw
  refine meets_bind.mpr ((hx w hw).with_run.mono (fun _ h => h) ?_)
  rintro (e | a) w' ⟨hw', hrun⟩
  · exact hw'
  · exact hg a (.of_run hrun) w' hw'

theorem Keeps.bind {x : Act σ α} {g : α → Act σ β} (hx : x.Keeps J) (hg : ∀ a, (g a).Keeps J) :
    (x >>= g).Keeps J := hx.bind_yields fun a _ => hg a

theorem Keeps.attempt {x : Act σ α} (hx : x.Keeps J) : x.attempt.Keeps J :=
  fun w hw => meets_attempt.mpr (hx w hw)

theorem Keeps.run {x : Act σ α} (hx : x.Keeps J) {w : World σ} (hw : J w) : J (x.run w).2 := (hx w hw).run

theorem Keeps.passes {x : Act σ α} (hx : x.Keeps J) {w w' : World σ} (hw : J w) (hp : x.Passes w w') : J w' :=
  (hx w hw).passes hw hp

/-! ## The steps of an action while others act -/

/-- Each step is taken in whatever world it finds, and is told by that and by the world it
    leaves; what is left to do in the end is `y`. -/
inductive Goes : {α : Type} → Act σ α → List (World σ × World σ) → Act σ α → Prop
  | here {α : Type} (x : Act σ α) : Goes x [] x
  | step {α β : Type} {f : World σ → β × World σ} {next : β → Act σ α} {steps : List (World σ × World σ)} {y : Act σ α}
      (w : World σ) : Goes (next (f w).1) steps y → Goes (.step f next) ((w, (f w).2) :: steps) y

theorem goes_pure {a : α} {steps : List (World σ × World σ)} {y : Act σ α} (h : (pure a : Act σ α).Goes steps y) :
    steps = [] ∧ y = pure a := by
  cases h
  exact ⟨rfl, rfl⟩

theorem goes_find {f : World σ → α} {steps : List (World σ × World σ)} {a : α} (h : (find f).Goes steps (pure a)) :
    ∃ w, steps = [(w, w)] ∧ f w = a := by
  cases h with
  | step w h =>
    obtain ⟨rfl, ha⟩ := goes_pure h
    cases ha
    exact ⟨w, rfl, rfl⟩

/-- Either it has not come to the second part yet, or it is done with the first. -/
theorem goes_bind {x : Act σ α} {g : α → Act σ β} {steps : List (World σ × World σ)} {z : Act σ β}
    (h : (x >>= g).Goes steps z) :
    (∃ y, x.Goes steps y ∧ z = y >>= g) ∨
      ∃ a before after, steps = before ++ after ∧ x.Goes before (pure a) ∧ (g a).Goes after z := by
  change (x.bind g).Goes steps z at h
  induction x generalizing steps with
  | done a => exact Or.inr ⟨a, [], steps, rfl, .here _, h⟩
  | broken e =>
    cases h
    exact Or.inl ⟨_, .here _, rfl⟩
  | step f next ih =>
    cases h with
    | here => exact Or.inl ⟨_, .here _, rfl⟩
    | step w h =>
      rcases ih _ h with ⟨y, hx, rfl⟩ | ⟨a, before, after, rfl, hx, hg⟩
      · exact Or.inl ⟨y, .step w hx, rfl⟩
      · exact Or.inr ⟨a, _ :: before, after, rfl, .step w hx, hg⟩

/-- There is something left to do, or it was broken off. -/
def Open (x : Act σ α) : Prop := ∀ a, x ≠ pure a

/-- Either it is still at the first part, or it is done with that. -/
theorem goes_bind_open {x : Act σ α} {g : α → Act σ β} {steps : List (World σ × World σ)} {z : Act σ β}
    (h : (x >>= g).Goes steps z) :
    (∃ y, x.Goes steps y ∧ y.Open ∧ z = y >>= g) ∨
      ∃ a before after, steps = before ++ after ∧ x.Goes before (pure a) ∧ (g a).Goes after z := by
  rcases goes_bind h with ⟨y, hx, rfl⟩ | hdone
  · cases y with
    | done a => exact Or.inr ⟨a, steps, [], by simp, hx, .here _⟩
    | broken e => exact Or.inl ⟨_, hx, nofun, rfl⟩
    | step f next => exact Or.inl ⟨_, hx, nofun, rfl⟩
  · exact Or.inr hdone

theorem Open.bind {x : Act σ α} (h : x.Open) (g : α → Act σ β) : (x >>= g).Open := by
  intro b hb
  cases x with
  | done a => exact h a rfl
  | broken e => cases hb
  | step f next => cases hb

theorem goes_bind_pure {x : Act σ α} {g : α → Act σ β} {steps : List (World σ × World σ)} {b : β}
    (h : (x >>= g).Goes steps (pure b)) :
    ∃ a before after, steps = before ++ after ∧ x.Goes before (pure a) ∧ (g a).Goes after (pure b) := by
  rcases goes_bind_open h with ⟨y, -, hopen, hy⟩ | hdone
  · exact absurd hy.symm (hopen.bind g b)
  · exact hdone

/-- Only where it can be broken off itself is an action broken off that is not done yet. -/
theorem Open.eq_broken {x : Act σ α} (h : x.Open) {g : α → Act σ β} {e : Halt} (hb : x >>= g = broken e) :
    x = broken e := by
  cases x with
  | done a => exact absurd rfl (h a)
  | broken e' =>
    cases hb
    rfl
  | step f next => cases hb

theorem Goes.yields {x : Act σ α} {steps : List (World σ × World σ)} {a : α} (h : x.Goes steps (pure a)) :
    x.Yields a := by
  generalize hy : (pure a : Act σ α) = y at h
  induction h with
  | here => exact hy ▸ .done a
  | step w _ ih => exact .step w (ih hy)

theorem Yields.exists_goes {x : Act σ α} {a : α} (h : x.Yields a) : ∃ steps, x.Goes steps (pure a) := by
  induction h with
  | done a => exact ⟨[], .here _⟩
  | step w _ ih =>
    obtain ⟨steps, h⟩ := ih
    exact ⟨_, .step w h⟩

theorem Goes.trans {x y z : Act σ α} {before after : List (World σ × World σ)} (hx : x.Goes before y)
    (hy : y.Goes after z) : x.Goes (before ++ after) z := by
  induction hx with
  | here => exact hy
  | step w _ ih => exact .step w (ih hy)

theorem Goes.bind {x y : Act σ α} {steps : List (World σ × World σ)} (h : x.Goes steps y) (g : α → Act σ β) :
    (x >>= g).Goes steps (y >>= g) := by
  induction h with
  | here => exact .here _
  | step w _ ih => exact .step w ih

theorem goes_attempt {x : Act σ α} {steps : List (World σ × World σ)} {z : Act σ (Except Halt α)}
    (h : x.attempt.Goes steps z) : ∃ y, x.Goes steps y ∧ z = y.attempt := by
  induction x generalizing steps with
  | done a =>
    obtain ⟨rfl, rfl⟩ := goes_pure h
    exact ⟨_, .here _, rfl⟩
  | broken e =>
    obtain ⟨rfl, rfl⟩ := goes_pure h
    exact ⟨_, .here _, rfl⟩
  | step f next ih =>
    cases h with
    | here => exact ⟨_, .here _, rfl⟩
    | step w h =>
      obtain ⟨y, hx, rfl⟩ := ih _ h
      exact ⟨y, .step w hx, rfl⟩

/-- What is made of the value an action comes to takes no step. -/
theorem goes_map {x : Act σ α} {f : α → β} {steps : List (World σ × World σ)} {z : Act σ β}
    (h : (x >>= fun a => pure (f a)).Goes steps z) : ∃ y, x.Goes steps y ∧ z = y >>= fun a => pure (f a) := by
  rcases goes_bind h with hfirst | ⟨a, before, after, rfl, hx, hmade⟩
  · exact hfirst
  · obtain ⟨rfl, rfl⟩ := goes_pure hmade
    exact ⟨pure a, by simpa using hx, rfl⟩

/-- Nor does what is made of it case by case. -/
theorem goes_bind_told {x : Act σ α} {g : α → Act σ β} (hg : ∀ a, ∃ b, g a = pure b)
    {steps : List (World σ × World σ)} {b : β} (h : (x >>= g).Goes steps (pure b)) :
    ∃ a, x.Goes steps (pure a) ∧ g a = pure b := by
  obtain ⟨a, before, after, rfl, hx, hmade⟩ := goes_bind_pure h
  obtain ⟨told, ha⟩ := hg a
  rw [ha] at hmade
  obtain ⟨rfl, htold⟩ := goes_pure hmade
  exact ⟨a, by simpa using hx, by rw [ha, htold]⟩

def path : Act σ α → World σ → List (World σ × World σ)
  | .done _, _ => []
  | .broken _, _ => []
  | .step f next, w => (w, (f w).2) :: (next (f w).1).path (f w).2

theorem goes_path {x : Act σ α} {w w' : World σ} {a : α} (h : x.run w = (.ok a, w')) : x.Goes (x.path w) (pure a) := by
  induction x generalizing w with
  | done b =>
    cases h
    exact .here _
  | broken e => cases h
  | step f next ih => exact .step w (ih _ h)

/-! ## Steps that keep what they find -/

/-- Each step leaves a world in `J` if it is taken in one, whatever is done in between. -/
def Preserves (J : World σ → Prop) : Act σ α → Prop
  | .done _ => True
  | .broken _ => True
  | .step f next => ∀ w, (J w → J (f w).2) ∧ (next (f w).1).Preserves J

theorem Preserves.update {f : World σ → α × World σ} (h : ∀ w, J w → J (f w).2) : (update f).Preserves J :=
  fun w => ⟨h w, trivial⟩

theorem Preserves.bind_yields {x : Act σ α} {g : α → Act σ β} (hx : x.Preserves J)
    (hg : ∀ a, x.Yields a → (g a).Preserves J) : (x >>= g).Preserves J := by
  show (x.bind g).Preserves J
  induction x with
  | done a => exact hg a (.done a)
  | broken e => trivial
  | step f next ih => exact fun w => ⟨(hx w).1, ih _ (hx w).2 fun a ha => hg a (.step w ha)⟩

theorem Preserves.attempt {x : Act σ α} (hx : x.Preserves J) : x.attempt.Preserves J := by
  induction x with
  | done a => trivial
  | broken e => trivial
  | step f next ih => exact fun w => ⟨(hx w).1, ih _ (hx w).2⟩

theorem Preserves.goes {x : Act σ α} (hx : x.Preserves J) {steps : List (World σ × World σ)} {y : Act σ α}
    (h : x.Goes steps y) : ∀ s ∈ steps, J s.1 → J s.2 := by
  induction h with
  | here => simp
  | step w _ ih => exact List.forall_mem_cons.mpr ⟨(hx w).1, ih (hx w).2⟩

theorem Preserves.run {x : Act σ α} (hx : x.Preserves J) {w : World σ} (hw : J w) : J (x.run w).2 := by
  induction x generalizing w with
  | done a => exact hw
  | broken e => exact hw
  | step f next ih => exact ih _ (hx w).2 ((hx w).1 hw)

/-- No step changes this part of the world. -/
def Spares {γ : Type} (f : World σ → γ) (x : Act σ α) : Prop := ∀ c, x.Preserves fun w => f w = c

section Spares

variable {γ : Type} {f : World σ → γ}

theorem Spares.pure {a : α} : (Pure.pure a : Act σ α).Spares f := fun _ => trivial

theorem Spares.update {g : World σ → α × World σ} (h : ∀ w, f (g w).2 = f w) : (update g).Spares f :=
  fun _ => .update fun w hw => (h w).trans hw

theorem Spares.bind {x : Act σ α} {g : α → Act σ β} (hx : x.Spares f) (hg : ∀ a, (g a).Spares f) : (x >>= g).Spares f :=
  fun c => (hx c).bind_yields fun a _ => hg a c

theorem Spares.goes {x y : Act σ α} (hx : x.Spares f) {steps : List (World σ × World σ)} (h : x.Goes steps y) :
    ∀ s ∈ steps, f s.2 = f s.1 :=
  fun s hs => (hx (f s.1)).goes h s hs rfl

end Spares

/-! ## Actions that nothing breaks off -/

/-- Never broken off, whatever is done in between. -/
def Sure : Act σ α → Prop
  | .done _ => True
  | .broken _ => False
  | .step f next => ∀ w, (next (f w).1).Sure

theorem Sure.find {f : World σ → α} : (find f).Sure := fun _ => trivial

theorem Sure.change {f : World σ → World σ} : (change f).Sure := fun _ => trivial

theorem Sure.bind {x : Act σ α} {g : α → Act σ β} (hx : x.Sure) (hg : ∀ a, (g a).Sure) : (x >>= g).Sure := by
  show (x.bind g).Sure
  induction x with
  | done a => exact hg a
  | broken e => exact hx
  | step f next ih => exact fun w => ih _ (hx w)

theorem Sure.goes {x y : Act σ α} (hx : x.Sure) {steps : List (World σ × World σ)} (h : x.Goes steps y) : y.Sure := by
  induction h with
  | here => exact hx
  | step w _ ih => exact ih (hx w)

theorem sure_attempt (x : Act σ α) : x.attempt.Sure := by
  induction x with
  | done a => trivial
  | broken e => trivial
  | step f next ih => exact fun w => ih _

def Going : Act σ α → Prop
  | .step _ _ => True
  | _ => False

theorem Going.open {x : Act σ α} (h : x.Going) : x.Open := by
  rintro a rfl
  cases h

theorem Going.bind {x : Act σ α} (h : x.Going) (g : α → Act σ β) : (x >>= g).Going := by
  cases x with
  | step f next => trivial
  | _ => cases h

theorem Going.attempt {x : Act σ α} (h : x.Going) : x.attempt.Going := by
  cases x with
  | step f next => trivial
  | _ => cases h

theorem Sure.going {x : Act σ α} (h : x.Sure) (hopen : x.Open) : x.Going := by
  cases x with
  | done a => exact absurd rfl (hopen a)
  | broken e => cases h
  | step f next => trivial

def Only (x : Act σ α) (a : α) : Prop := x.Sure ∧ ∀ b, x.Yields b → b = a

theorem only_pure (a : α) : (pure a : Act σ α).Only a := ⟨trivial, fun _ => yields_pure⟩

/-! ## Steps that commit an action -/

def Settled (Q : α → Prop) (x : Act σ α) : Prop := x.Sure ∧ ∀ a, x.Yields a → Q a

/-- A step that changes this part of the world settles what the action comes to. -/
def Commits {γ : Type} (f : World σ → γ) (Q : α → Prop) : Act σ α → Prop
  | .done _ => True
  | .broken _ => True
  | .step g next => ∀ w, (f (g w).2 = f w ∧ (next (g w).1).Commits f Q) ∨ (next (g w).1).Settled Q

section Commits

variable {γ : Type} {f : World σ → γ} {Q : α → Prop} {Q' : β → Prop}

theorem Commits.update {g : World σ → α × World σ} {k : α → Act σ β}
    (h : ∀ w, (f (g w).2 = f w ∧ (k (g w).1).Commits f Q') ∨ (k (g w).1).Settled Q') :
    (Act.update g >>= k).Commits f Q' := h

theorem Commits.spared {g : World σ → α × World σ} {k : α → Act σ β} (h : ∀ w, f (g w).2 = f w)
    (hk : ∀ a, (k a).Commits f Q') : (Act.update g >>= k).Commits f Q' := .update fun w => Or.inl ⟨h w, hk _⟩

theorem Settled.bind {x : Act σ α} {g : α → Act σ β} (hx : x.Settled Q) (hg : ∀ a, Q a → (g a).Settled Q') :
    (x >>= g).Settled Q' := by
  obtain ⟨hsure, hvalue⟩ := hx
  constructor
  · show (x.bind g).Sure
    induction x with
    | done a => exact (hg a (hvalue a (.done a))).1
    | broken e => exact hsure
    | step f next ih => exact fun w => ih _ (hsure w) fun a ha => hvalue a (.step w ha)
  · intro b hb
    obtain ⟨a, ha, hb⟩ := yields_bind hb
    exact (hg a (hvalue a ha)).2 b hb

theorem Commits.bind {x : Act σ α} {g : α → Act σ β} (hx : x.Commits f Q) (hg : ∀ a, (g a).Commits f Q')
    (hsettled : ∀ a, Q a → (g a).Settled Q') : (x >>= g).Commits f Q' := by
  show (x.bind g).Commits f Q'
  induction x with
  | done a => exact hg a
  | broken e => trivial
  | step f next ih =>
    intro w
    rcases hx w with ⟨hsame, hrest⟩ | hrest
    · exact Or.inl ⟨hsame, ih _ hrest⟩
    · exact Or.inr (hrest.bind hsettled)

theorem Settled.goes {x y : Act σ α} (hx : x.Settled Q) {steps : List (World σ × World σ)} (h : x.Goes steps y) :
    y.Settled Q := by
  induction h with
  | here => exact hx
  | step w _ ih => exact ih ⟨hx.1 w, fun a ha => hx.2 a (.step w ha)⟩

theorem Commits.goes {x y : Act σ α} (hx : x.Commits f Q) {steps : List (World σ × World σ)} (h : x.Goes steps y) :
    (∀ s ∈ steps, f s.2 = f s.1) ∨ y.Settled Q := by
  induction h with
  | here => exact Or.inl (by simp)
  | step w hrest ih =>
    rcases hx w with ⟨hsame, hcommits⟩ | hsettled
    · exact (ih hcommits).imp_left fun hall => List.forall_mem_cons.mpr ⟨hsame, hall⟩
    · exact Or.inr (hsettled.goes hrest)

end Commits

/-! ## Actions that do not panic -/

/-- Broken off by none but these panics, whatever is done in between. -/
def Calm (P : Payload → Prop) : Act σ α → Prop
  | .done _ => True
  | .broken h => ∀ p, h = .panic p → P p
  | .step f next => ∀ w, (next (f w).1).Calm P

variable {P : Payload → Prop}

theorem Sure.calm {x : Act σ α} (h : x.Sure) : x.Calm P := by
  induction x with
  | done a => trivial
  | broken e => cases h
  | step f next ih => exact fun w => ih _ (h w)

theorem Calm.bind_yields {x : Act σ α} {g : α → Act σ β} (hx : x.Calm P) (hg : ∀ a, x.Yields a → (g a).Calm P) :
    (x >>= g).Calm P := by
  show (x.bind g).Calm P
  induction x with
  | done a => exact hg a (.done a)
  | broken e => exact hx
  | step f next ih => exact fun w => ih _ (hx w) fun a ha => hg a (.step w ha)

theorem Calm.bind {x : Act σ α} {g : α → Act σ β} (hx : x.Calm P) (hg : ∀ a, (g a).Calm P) : (x >>= g).Calm P :=
  hx.bind_yields fun a _ => hg a

theorem Calm.run {x : Act σ α} (hx : x.Calm P) {w : World σ} {p : Payload}
    (h : (x.run w).1 = .error (.panic p)) : P p := by
  induction x generalizing w with
  | done a => cases h
  | broken e => exact hx p (Except.error.inj h)
  | step f next ih => exact ih _ (hx w) h

theorem Calm.goes {x y : Act σ α} (hx : x.Calm P) {steps : List (World σ × World σ)} (h : x.Goes steps y) :
    y.Calm P := by
  induction h with
  | here => exact hx
  | step w _ ih => exact ih (hx w)

end Switchyard.Act
