import Switchyard.Proofs.Cli.Reading
import Switchyard.Proofs.Identity.Encoding

/-
  Switchyard.Proofs.Identity.Options — what options do to the identity of an instance.

  An option takes the place of a parameter of its key. If that one was identifying the
  key no longer counts, and it is the only way in which an option can count
  (`identifying?_withOptions`): the instance is that of the parameters without the keys
  of the options. So options keep an instance exactly if none of them has the key of an
  identifying parameter.

  - `InstanceId.derive_withOptions`: this, and what it means for the commands that name an
    instance.
-/

namespace Switchyard

namespace Dict

variable {α : Type u}

def without (d : Dict α) (keys : List String) : Dict α := ⟨d.entries.filter fun e => e.1 ∉ keys⟩

theorem Sorted.without {d : Dict α} (h : d.Sorted) (keys : List String) : (d.without keys).Sorted :=
  List.Pairwise.filter _ h

theorem get?_without (d : Dict α) (keys : List String) (key : String) :
    (d.without keys).get? key = if key ∈ keys then none else d.get? key := by
  obtain ⟨es⟩ := d
  show findEntry key (es.filter _) = if key ∈ keys then none else findEntry key es
  induction es with
  | nil => simp [findEntry]
  | cons e rest ih =>
    obtain ⟨k, v⟩ := e
    by_cases hk : k ∈ keys
    · have hfilter : ((k, v) :: rest).filter (fun e => e.1 ∉ keys) = rest.filter fun e => e.1 ∉ keys := by simp [hk]
      rw [hfilter, ih]
      by_cases hkey : key ∈ keys
      · rw [if_pos hkey, if_pos hkey]
      · have hne : key ≠ k := fun heq => hkey (heq ▸ hk)
        rw [if_neg hkey, if_neg hkey, findEntry, if_neg hne]
    · have hfilter : ((k, v) :: rest).filter (fun e => e.1 ∉ keys) = (k, v) :: rest.filter fun e => e.1 ∉ keys := by
        simp [hk]
      rw [hfilter, findEntry, findEntry, ih]
      by_cases hkey : key = k
      · subst hkey
        rw [if_pos rfl, if_neg hk, if_pos rfl]
      · rw [if_neg hkey, if_neg hkey]

end Dict

namespace Parameters

def withOptions (p : Parameters) (options : List (String × String)) : Parameters :=
  options.foldl (fun p e => p.option e.1 e.2) p

def identifyAll (p : Parameters) (named : List (String × String)) : Parameters :=
  named.foldl (fun p e => p.identify e.1 e.2) p

variable {p : Parameters}

theorem sorted_withOptions (h : p.Sorted) (options : List (String × String)) : (p.withOptions options).Sorted := by
  induction options generalizing p with
  | nil => exact h
  | cons e rest ih => exact ih (h.insert e.1 ⟨e.2, false⟩)

theorem sorted_identifyAll (h : p.Sorted) (named : List (String × String)) : (p.identifyAll named).Sorted := by
  induction named generalizing p with
  | nil => exact h
  | cons e rest ih => exact ih (h.insert e.1 ⟨e.2, true⟩)

theorem identifying?_option (p : Parameters) (k value key : String) :
    (p.option k value).identifying? key = if key = k then none else p.identifying? key := by
  unfold identifying? option
  by_cases h : key = k
  · subst h
    simp
  · rw [Dict.get?_insert_of_ne p h, if_neg h]

theorem identifying?_identify (p : Parameters) (k value key : String) :
    (p.identify k value).identifying? key = if key = k then some value else p.identifying? key := by
  unfold identifying? identify
  by_cases h : key = k
  · subst h
    simp
  · rw [Dict.get?_insert_of_ne p h, if_neg h]

/-- A key does not count any more just if an option has it. -/
theorem identifying?_withOptions (p : Parameters) (options : List (String × String)) (key : String) :
    (p.withOptions options).identifying? key = if key ∈ options.map (·.1) then none else p.identifying? key := by
  induction options generalizing p with
  | nil => rfl
  | cons e rest ih =>
    show (withOptions (p.option e.1 e.2) rest).identifying? key = _
    rw [ih, identifying?_option]
    by_cases hrest : key ∈ rest.map (·.1)
    · have hmem : key ∈ (e :: rest).map (·.1) := List.mem_cons_of_mem _ hrest
      rw [if_pos hrest, if_pos hmem]
    · by_cases hkey : key = e.1
      · have hmem : key ∈ (e :: rest).map (·.1) := hkey ▸ List.mem_cons_self
        rw [if_neg hrest, if_pos hkey, if_pos hmem]
      · have hnone : key ∉ (e :: rest).map (·.1) := fun hmem => (List.mem_cons.mp hmem).elim hkey hrest
        rw [if_neg hrest, if_neg hkey, if_neg hnone]

theorem identifying?_identifyAll (named : List (String × String)) (key : String) :
    (p.identifyAll named).identifying? key = none ↔ p.identifying? key = none ∧ ∀ e ∈ named, e.1 ≠ key := by
  induction named generalizing p with
  | nil => simp [identifyAll]
  | cons e rest ih =>
    show (identifyAll (p.identify e.1 e.2) rest).identifying? key = none ↔ _
    rw [ih, identifying?_identify, List.forall_mem_cons]
    by_cases h : key = e.1
    · simp [h]
    · have hne : e.1 ≠ key := fun heq => h heq.symm
      simp [h, hne]

theorem identifying?_without (p : Parameters) (keys : List String) (key : String) :
    identifying? (p.without keys) key = if key ∈ keys then none else p.identifying? key := by
  unfold identifying?
  rw [Dict.get?_without]
  split <;> rfl

/-- What options leave of the identifying parameters is what is left without their keys. -/
theorem identifying_withOptions (hp : p.Sorted) (options : List (String × String)) :
    (p.withOptions options).identifying = identifying (p.without (options.map (·.1))) :=
  (identifying_eq_iff (sorted_withOptions hp options) (hp.without _)).mpr fun key => by
    rw [identifying?_withOptions, identifying?_without]

theorem identifying_withOptions_eq_iff (hp : p.Sorted) (options : List (String × String)) :
    (p.withOptions options).identifying = p.identifying ↔ ∀ e ∈ options, p.identifying? e.1 = none := by
  rw [identifying_eq_iff (sorted_withOptions hp options) hp]
  constructor
  · intro h e he
    have hkey := h e.1
    rw [identifying?_withOptions, if_pos (List.mem_map_of_mem he)] at hkey
    exact hkey.symm
  · intro h key
    rw [identifying?_withOptions]
    split
    next hmem =>
      obtain ⟨e, he, rfl⟩ := List.mem_map.mp hmem
      exact (h e he).symm
    next => rfl

end Parameters

namespace Cli

def Command.instance? : Command → Option InstanceId
  | .run t _ _ | .history t | .abandon t _ => some (InstanceId.derive t.job t.parameters)
  | _ => none

def Asked.instance? : Asked → Option InstanceId
  | .run i => i.command.instance?
  | _ => none

def named (given : List (String × String)) : Parameters :=
  Parameters.identifyAll Dict.empty (pairsOf "param" given)

theorem sorted_named (given : List (String × String)) : (named given).Sorted :=
  Parameters.sorted_identifyAll Dict.sorted_empty _

theorem identifying?_named {given : List (String × String)} {key : String} :
    (named given).identifying? key = none ↔ ∀ e ∈ pairsOf "param" given, e.1 ≠ key := by
  rw [named, Parameters.identifying?_identifyAll]
  exact and_iff_right rfl

theorem identifying_ofLine (job : String) (given : List (String × String)) :
    identifying (Given.ofLine job given) = named given := by
  rw [identifying, pairs_values?]
  rfl

theorem parametersOf_ofLine (job : String) (given : List (String × String)) :
    parametersOf (Given.ofLine job given) = (named given).withOptions (pairsOf "option" given) := by
  rw [parametersOf, identifying_ofLine, pairs_values?]
  rfl

/-- A line of parameters and options, and one of parameters only, with the same
    identifying parameters. -/
structure Alike (given : List (String × String)) (args : List String) (given' : List (String × String))
    (args' : List String) : Prop where
  spelled : Spells given args
  assigned : Assigns ["param", "option"] given
  spelled' : Spells given' args'
  assigned' : Assigns ["param"] given'
  same : named given' = named given

end Cli

namespace InstanceId

variable {job : String} {p : Parameters}

theorem writable_withOptions (hp : p.Sorted) (h : Writable job p) (options : List (String × String)) :
    Writable job (p.withOptions options) := by
  refine ⟨h.job, fun e he => h.pairs e ?_⟩
  have hget := Dict.findEntry_of_mem (Parameters.sorted_identifying (Parameters.sorted_withOptions hp options)) he
  rw [Parameters.findEntry_identifying (Parameters.sorted_withOptions hp options),
    Parameters.identifying?_withOptions] at hget
  split at hget
  · cases hget
  · rw [← Parameters.findEntry_identifying hp] at hget
    exact Dict.mem_of_findEntry hget

/-- The encoding tells the identifying parameters. -/
theorem identifying_eq_of_encoding {q : Parameters} (h : Writable job p) (h' : Writable job q)
    (heq : encoding job p = encoding job q) : p.identifying = q.identifying := by
  obtain ⟨-, hpairs⟩ := field_append_inj h.job h'.job heq
  exact pairs_eq_of_fields h.pairs h'.pairs hpairs

theorem derive_eq_of_identifying {p q : Parameters} (h : p.identifying = q.identifying) :
    derive job p = derive job q := by
  rw [derive, derive, encoding, encoding, h]

theorem derive_withOptions_of_free (hp : p.Sorted) {options : List (String × String)}
    (hfree : ∀ e ∈ options, p.identifying? e.1 = none) : derive job (p.withOptions options) = derive job p :=
  derive_eq_of_identifying ((Parameters.identifying_withOptions_eq_iff hp options).mpr hfree)

/-- Options make an instance that of the parameters without the keys of the options. It is
    the same instance as without the options if none of them has the key of an
    identifying parameter, and only then are its bytes the same. A run with options
    works on this instance; the commands that name an instance by the same parameters
    work on the one without options. -/
theorem derive_withOptions (hp : p.Sorted) (job : String) (options : List (String × String)) :
    derive job (p.withOptions options) = derive job (p.without (options.map (·.1))) ∧
      ((∀ e ∈ options, p.identifying? e.1 = none) → derive job (p.withOptions options) = derive job p) ∧
      (Writable job p →
        (encoding job (p.withOptions options) = encoding job p ↔ ∀ e ∈ options, p.identifying? e.1 = none)) ∧
      ∀ given args given' args', Cli.Alike given args given' args' → Cli.isOption job = false →
        (Cli.ask ("run" :: job :: args)).instance? =
            some (derive job ((Cli.named given).withOptions (Cli.pairsOf "option" given))) ∧
          (Cli.ask ("history" :: job :: args')).instance? = some (derive job (Cli.named given)) ∧
          (Cli.ask ("abandon" :: job :: args')).instance? = some (derive job (Cli.named given)) ∧
          ((∀ e ∈ Cli.pairsOf "option" given, ∀ f ∈ Cli.pairsOf "param" given, f.1 ≠ e.1) →
            (Cli.ask ("run" :: job :: args)).instance? = (Cli.ask ("history" :: job :: args')).instance?) := by
  refine ⟨derive_eq_of_identifying (Parameters.identifying_withOptions hp options), derive_withOptions_of_free hp,
    fun hw => ?_, ?_⟩
  · rw [← Parameters.identifying_withOptions_eq_iff hp]
    constructor
    · intro heq
      exact identifying_eq_of_encoding (writable_withOptions hp hw options) hw heq
    · intro heq
      rw [encoding, encoding, heq]
  · intro given args given' args' h hjob
    have hrun : (Cli.ask ("run" :: job :: args)).instance? =
        some (derive job ((Cli.named given).withOptions (Cli.pairsOf "option" given))) := by
      rw [Cli.ask_run hjob h.spelled h.assigned, Cli.parametersOf_ofLine]
      rfl
    have hhistory : (Cli.ask ("history" :: job :: args')).instance? = some (derive job (Cli.named given)) := by
      rw [Cli.ask_history hjob h.spelled' h.assigned', Cli.identifying_ofLine, h.same]
      rfl
    refine ⟨hrun, hhistory, ?_, fun hfree => ?_⟩
    · rw [Cli.ask_abandon hjob h.spelled' h.assigned', Cli.identifying_ofLine, h.same]
      rfl
    · have hnamed : ∀ e ∈ Cli.pairsOf "option" given, (Cli.named given).identifying? e.1 = none :=
        fun e he => Cli.identifying?_named.mpr (hfree e he)
      rw [hrun, hhistory, derive_withOptions_of_free (Cli.sorted_named given) hnamed]

/-! ### A date that is given twice -/

/-- An option under the key of a parameter takes the parameter away. -/
theorem option_hides_parameter :
    let p := Parameters.identify Dict.empty "date" "2024-06-01"
    derive "etl" (p.option "date" "2024-06-02") ≠ derive "etl" p ∧
      (Cli.ask ["run", "etl", "--param", "date=2024-06-01", "--option", "date=2024-06-02"]).instance? ≠
        (Cli.ask ["history", "etl", "--param", "date=2024-06-01"]).instance? := by
  decide +kernel

/-- An option under a key of its own leaves the instance as it is. -/
theorem chunk_keeps_instance :
    let p := Parameters.identify Dict.empty "date" "2024-06-01"
    p.Sorted ∧ derive "etl" (p.withOptions [("chunk", "500")]) = derive "etl" p ∧
      (Cli.ask ["run", "etl", "--param", "date=2024-06-01", "--option=chunk=500"]).instance? =
        (Cli.ask ["history", "etl", "--param=date=2024-06-01"]).instance? := by
  intro p
  have hp : p.Sorted := Dict.sorted_empty.insert _ _
  obtain ⟨-, hsame, -, hlines⟩ := derive_withOptions hp "etl" [("chunk", "500")]
  have halike : Cli.Alike [("param", "date=2024-06-01"), ("option", "chunk=500")]
      ["--param", "date=2024-06-01", "--option=chunk=500"] [("param", "date=2024-06-01")] ["--param=date=2024-06-01"] :=
    ⟨.apart (by decide) (.joined .nil), by decide, .joined .nil, by decide, rfl⟩
  obtain ⟨-, -, -, hrun⟩ := hlines _ _ _ _ halike (by decide)
  exact ⟨hp, hsame (by decide), hrun (by decide)⟩

end InstanceId

end Switchyard
