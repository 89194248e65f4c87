import Mathlib.Data.List.TakeDrop
import Mathlib.Data.List.TakeWhile
import Switchyard.Cli.Arguments

/-
  Switchyard.Proofs.Cli.Reading — how options that may be given again are read.

  An option's value stands behind an equals sign or is the next argument (`Spells`).
  Whatever options of this kind the arguments spell, all of them are taken, in the order
  in which they stand (`read_spells`). What a line of parameters and options asks of `run`,
  `history` and `abandon` follows.

  - `ask_run`, `ask_history`, `ask_abandon`: the job and the parameters that the line names.
-/

namespace Switchyard.Cli

/-- Arguments that give these values to these options. -/
inductive Spells : List (String × String) → List String → Prop
  | nil : Spells [] []
  | joined {name value : String} {given : List (String × String)} {args : List String} : Spells given args →
      Spells ((name, value) :: given) (("--" ++ name ++ "=" ++ value) :: args)
  | apart {name value : String} {given : List (String × String)} {args : List String} : isOption value = false →
      Spells given args → Spells ((name, value) :: given) (("--" ++ name) :: value :: args)

structure Takes (s : Spec) (e : String × String) : Prop where
  named : e.1.toList ≠ []
  name : '=' ∉ e.1.toList
  known : ∃ o, s.values.find? (·.name = e.1) = some o ∧ o.repeats = true ∧ o.accepts e.2 = true

def Given.give (g : Given) (given : List (String × String)) : Given :=
  { g with values := given.reverse ++ g.values }

theorem Given.give_cons (g : Given) (e : String × String) (rest : List (String × String)) :
    g.give (e :: rest) = (g.give [e]).give rest := by
  simp [Given.give]

/-! ## One option -/

theorem splitOption_joined {name value : List Char} (h : '=' ∉ name) :
    splitOption (name ++ '=' :: value) = (String.ofList name, some (String.ofList value)) := by
  have hname : ∀ c ∈ name, decide (c ≠ '=') = true := fun c hc => decide_eq_true fun heq => h (heq ▸ hc)
  have hspan : (name ++ '=' :: value).span (fun c => decide (c ≠ '=')) = (name, '=' :: value) := by
    rw [List.span_eq_takeWhile_dropWhile, List.takeWhile_append_of_pos hname, List.dropWhile_append_of_pos hname]
    simp
  unfold splitOption
  rw [hspan]
  rfl

theorem splitOption_apart {name : List Char} (h : '=' ∉ name) : splitOption name = (String.ofList name, none) := by
  have hname : ∀ c ∈ name, decide (c ≠ '=') = true := fun c hc => decide_eq_true fun heq => h (heq ▸ hc)
  have hspan : name.span (fun c => decide (c ≠ '=')) = (name, []) := by
    rw [List.span_eq_takeWhile_dropWhile, List.takeWhile_eq_self_iff.mpr hname, List.dropWhile_eq_nil_iff.mpr hname]
  unfold splitOption
  rw [hspan]

variable {s : Spec}

theorem takeValue_of_takes {e : String × String} {o : ValueOption} (hname : o.name = e.1) (hrepeats : o.repeats = true)
    (haccepts : o.accepts e.2 = true) (g : Given) : takeValue o g e.2 = some (g.give [e]) := by
  simp [takeValue, Given.give, hname, hrepeats, haccepts]

theorem longOption_joined {e : String × String} (h : Takes s e) (g : Given) (next : Option String) :
    longOption s g (e.1.toList ++ '=' :: e.2.toList) next = .done (.given (g.give [e])) := by
  obtain ⟨o, hfound, hrepeats, haccepts⟩ := h.known
  have hname : o.name = e.1 := by simpa using List.find?_some hfound
  unfold longOption
  rw [splitOption_joined h.name]
  simp only [String.ofList_toList, hfound, takeValue_of_takes hname hrepeats haccepts]
  rfl

theorem longOption_apart {e : String × String} (h : Takes s e) (hvalue : isOption e.2 = false) (g : Given) :
    longOption s g e.1.toList (some e.2) = .tookNext (g.give [e]) := by
  obtain ⟨o, hfound, hrepeats, haccepts⟩ := h.known
  have hname : o.name = e.1 := by simpa using List.find?_some hfound
  have hnext : (some e.2).filter (fun v => !isOption v) = some e.2 := by simp [Option.filter_some, hvalue]
  unfold longOption
  rw [splitOption_apart h.name]
  simp only [String.ofList_toList, hfound, hnext, takeValue_of_takes hname hrepeats haccepts]
  rfl

/-- An argument that is a long option is read as such. -/
theorem read_long {arg : String} {long : List Char} (harg : arg.toList = '-' :: '-' :: long) (hlong : long ≠ [])
    (g : Given) (rest : List String) :
    read s g (arg :: rest) =
      match longOption s g long rest.head? with
      | .done (.given g) => read s g rest
      | .done r => r
      | .tookNext g =>
        match rest with
        | _ :: rest => read s g rest
        | [] => .given g := by
  have hne : arg ≠ "--" := by
    rintro rfl
    exact hlong (List.cons.inj (List.cons.inj harg).2).2.symm
  have hoption : isOption arg = true := by
    unfold isOption
    rw [harg]
    rfl
  rw [read, if_neg hne, if_pos hoption, harg]
  rfl

/-- An argument that does not look like an option is a command or a positional one. -/
theorem read_plain {arg : String} (harg : isOption arg = false) (g : Given) (rest : List String) :
    read s g (arg :: rest) =
      if s.commands then .command g arg rest
      else
        match takePositional s g arg with
        | some g => read s g rest
        | none => .misuse := by
  have hne : arg ≠ "--" := by
    rintro rfl
    cases harg
  rw [read, if_neg hne, harg]
  rfl

/-! ## A line of options -/

variable {job : String} {given : List (String × String)} {args : List String}

theorem read_spells (h : Spells given args) (htakes : ∀ e ∈ given, Takes s e) (g : Given) :
    read s g args = .given (g.give given) := by
  induction h generalizing g with
  | nil => rfl
  | @joined name value given args _ ih =>
    obtain ⟨hfirst, hrest⟩ := List.forall_mem_cons.mp htakes
    have harg : ("--" ++ name ++ "=" ++ value).toList = '-' :: '-' :: (name.toList ++ '=' :: value.toList) := by
      simp [String.toList_append]
    rw [read_long harg (by simp), longOption_joined hfirst, g.give_cons (name, value) given]
    exact ih hrest _
  | @apart name value given args hvalue _ ih =>
    obtain ⟨hfirst, hrest⟩ := List.forall_mem_cons.mp htakes
    have harg : ("--" ++ name).toList = '-' :: '-' :: name.toList := by simp [String.toList_append]
    rw [read_long harg hfirst.named, List.head?_cons, longOption_apart hfirst hvalue, g.give_cons (name, value) given]
    exact ih hrest _

/-! ## The commands that take a job -/

def Assigns (names : List String) (given : List (String × String)) : Prop :=
  ∀ e ∈ given, e.1 ∈ names ∧ isPair e.2 = true

instance (names : List String) (given : List (String × String)) : Decidable (Assigns names given) :=
  inferInstanceAs (Decidable (∀ e ∈ given, _ ∧ _))

structure TakesJob (name : String) (names : List String) : Prop where
  plain : isOption name = false
  ne_help : name ≠ "help"
  spec : ∃ s, specOf? name = some s ∧ s.positionals = 1 ∧ s.commands = false ∧
    ∀ n ∈ names, n.toList ≠ [] ∧ '=' ∉ n.toList ∧ s.values.find? (·.name = n) = some { params with name := n }

theorem takesJob_run : TakesJob "run" ["param", "option"] :=
  ⟨by decide, by decide, _, rfl, rfl, rfl, List.forall_mem_cons.mpr
    ⟨⟨by decide, by decide, rfl⟩, List.forall_mem_singleton.mpr ⟨by decide, by decide, rfl⟩⟩⟩

theorem takesJob_history : TakesJob "history" ["param"] :=
  ⟨by decide, by decide, _, rfl, rfl, rfl, List.forall_mem_singleton.mpr ⟨by decide, by decide, rfl⟩⟩

theorem takesJob_abandon : TakesJob "abandon" ["param"] :=
  ⟨by decide, by decide, _, rfl, rfl, rfl, List.forall_mem_singleton.mpr ⟨by decide, by decide, rfl⟩⟩

def Given.ofLine (job : String) (given : List (String × String)) : Given :=
  { positionals := [job], values := given.reverse }

/-- What a command with a job and options behind it asks for. -/
theorem ask_line {name : String} {names : List String} (hc : TakesJob name names) (hjob : isOption job = false)
    (h : Spells given args) (hgiven : Assigns names given) :
    ask (name :: job :: args) = ((invocation? {} name (Given.ofLine job given)).map .run).getD .misuse := by
  obtain ⟨s, hs, hone, hplain, hnames⟩ := hc.spec
  have htakes : ∀ e ∈ given, Takes s e := by
    intro e he
    obtain ⟨hname, hpair⟩ := hgiven e he
    obtain ⟨hne, hsign, hfound⟩ := hnames e.1 hname
    exact ⟨hne, hsign, { params with name := e.1 }, hfound, rfl, hpair⟩
  have htaken : takePositional s {} job = some { positionals := [job] } := by simp [takePositional, hone]
  have hinner : read s {} (job :: args) = .given (Given.ofLine job given) := by
    rw [read_plain hjob, hplain, htaken]
    simpa [Given.give, Given.ofLine] using read_spells h htakes { positionals := [job] }
  unfold ask
  rw [read_plain hc.plain, if_pos rfl]
  split
  next h => cases h
  next h => cases h
  next h => cases h
  next h => cases h
  next h =>
    cases h
    exact absurd rfl hc.ne_help
  next h =>
    cases h
    simp only [hs, hinner]
    cases invocation? {} name (Given.ofLine job given) <;> rfl

theorem ask_run (hjob : isOption job = false) (h : Spells given args) (hgiven : Assigns ["param", "option"] given) :
    ask ("run" :: job :: args) =
      .run ⟨false, false, 0, .run ⟨job, parametersOf (Given.ofLine job given)⟩ none none⟩ := by
  have habsent {name : String} (hname : name ∉ ["param", "option"]) : (Given.ofLine job given).value? name = none := by
    rw [Given.value?, Option.map_eq_none_iff, List.find?_eq_none]
    intro e he heq
    rw [← of_decide_eq_true heq] at hname
    exact hname (hgiven e (List.mem_reverse.mp he)).1
  have hfail : (Given.ofLine job given).value? "fail-at" = none := habsent (by decide)
  have hstop : (Given.ofLine job given).value? "stop-at" = none := habsent (by decide)
  have hcommand : commandOf? "run" (Given.ofLine job given) =
      some (.run ⟨job, parametersOf (Given.ofLine job given)⟩ ((Given.ofLine job given).value? "fail-at")
        ((Given.ofLine job given).value? "stop-at")) := rfl
  rw [ask_line takesJob_run hjob h hgiven, invocation?, hcommand, hfail, hstop]
  rfl

theorem ask_history (hjob : isOption job = false) (h : Spells given args) (hgiven : Assigns ["param"] given) :
    ask ("history" :: job :: args) =
      .run ⟨false, false, 0, .history ⟨job, identifying (Given.ofLine job given)⟩⟩ := by
  rw [ask_line takesJob_history hjob h hgiven]
  rfl

theorem ask_abandon (hjob : isOption job = false) (h : Spells given args) (hgiven : Assigns ["param"] given) :
    ask ("abandon" :: job :: args) =
      .run ⟨false, false, 0, .abandon ⟨job, identifying (Given.ofLine job given)⟩ false⟩ := by
  rw [ask_line takesJob_abandon hjob h hgiven]
  rfl

/-! ## The pairs of a line -/

def pairsOf (name : String) (given : List (String × String)) : List (String × String) :=
  pairs ((given.filter (·.1 = name)).map (·.2))

theorem pairs_values? (job name : String) (given : List (String × String)) :
    pairs ((Given.ofLine job given).values? name) = pairsOf name given := by
  simp [Given.values?, Given.ofLine, pairsOf]

end Switchyard.Cli
