import Switchyard.Parameters
import Switchyard.Text.Digits

/-
  Switchyard.Cli.Arguments — the command line's grammar.

  Options stand anywhere; an option with a value takes it behind an equals sign or as
  the next argument, which then may not look like an option. Short options may be
  joined. After two hyphens every argument is positional. The options that hold for
  every command may stand before the command or after it.

  Arguments are read from the left, and the first thing that decides the outcome does:
  a fault, or an option that asks for help or the version.
-/

namespace Switchyard.Cli

inductive Shell where
  | bash
  | elvish
  | fish
  | powershell
  | zsh
  deriving DecidableEq, Repr

def Shell.ofName? : String → Option Shell
  | "bash" => some .bash
  | "elvish" => some .elvish
  | "fish" => some .fish
  | "powershell" => some .powershell
  | "zsh" => some .zsh
  | _ => none

structure Target where
  job : String
  parameters : Parameters

inductive Command where
  | run (t : Target) (failAt stopAt : Option String)
  | history (t : Target)
  | jobs
  | abandon (t : Target) (force : Bool)
  | status (limit : Nat)
  | completions (s : Shell)

structure Invocation where
  json : Bool
  quiet : Bool
  verbosity : Nat
  command : Command

inductive Asked where
  | run (i : Invocation)
  /-- The version, under the name of the program with its command. -/
  | version (program : String)
  | help
  | misuse

/-! ## Reading by a specification -/

structure ValueOption where
  name : String
  repeats : Bool := false
  accepts : String → Bool := fun _ => true

structure Spec where
  program : String
  /-- How many positional arguments it takes; every argument after them begins a command
      of its own. -/
  positionals : Nat := 0
  commands : Bool := false
  flags : List String := []
  values : List ValueOption := []

def globalFlags : List String := ["json", "quiet"]

/-- What was read so far, newest first. -/
structure Given where
  positionals : List String := []
  flags : List String := []
  verbosity : Nat := 0
  values : List (String × String) := []

inductive Reading where
  | given (g : Given)
  | command (g : Given) (name : String) (rest : List String)
  | version
  | help
  | misuse

namespace Given

def flag? (g : Given) (name : String) : Bool := g.flags.contains name

def value? (g : Given) (name : String) : Option String := (g.values.find? (·.1 = name)).map (·.2)

/-- The values of an option in the order they were given. -/
def values? (g : Given) (name : String) : List String := (g.values.reverse.filter (·.1 = name)).map (·.2)

end Given

def isOption (s : String) : Bool :=
  match s.toList with
  | '-' :: _ :: _ => true
  | _ => false

def splitOption (cs : List Char) : String × Option String :=
  match cs.span (· ≠ '=') with
  | (name, '=' :: value) => (String.ofList name, some (String.ofList value))
  | (name, _) => (String.ofList name, none)

def shorts (g : Given) : List Char → Reading
  | [] => .given g
  | 'v' :: rest => shorts { g with verbosity := g.verbosity + 1 } rest
  | 'h' :: _ => .help
  | 'V' :: _ => .version
  | _ => .misuse

def takeValue (o : ValueOption) (g : Given) (value : String) : Option Given :=
  if !o.repeats && (g.value? o.name).isSome then none
  else if o.accepts value then some { g with values := (o.name, value) :: g.values }
  else none

def takeFlag (s : Spec) (g : Given) (name : String) : Reading :=
  if name = "help" then .help
  else if name = "version" then .version
  else if name = "verbose" then .given { g with verbosity := g.verbosity + 1 }
  else if (globalFlags ++ s.flags).contains name && !g.flag? name then .given { g with flags := name :: g.flags }
  else .misuse

def takePositional (s : Spec) (g : Given) (arg : String) : Option Given :=
  if g.positionals.length < s.positionals then some { g with positionals := arg :: g.positionals } else none

def takePositionals (s : Spec) : Given → List String → Reading
  | g, [] => .given g
  | g, arg :: rest =>
    match takePositional s g arg with
    | some g => takePositionals s g rest
    | none => .misuse

inductive OptionStep where
  | done (r : Reading)
  /-- The option took the argument after it. -/
  | tookNext (g : Given)

def optionStep (r : Option Given) : OptionStep := .done ((r.map Reading.given).getD .misuse)

def longOption (s : Spec) (g : Given) (long : List Char) (next : Option String) : OptionStep :=
  let (name, value) := splitOption long
  match s.values.find? (·.name = name), value with
  | some o, some v => optionStep (takeValue o g v)
  | some o, none =>
    match next.filter fun v => !isOption v with
    | some v => ((takeValue o g v).map .tookNext).getD (.done .misuse)
    | none => .done .misuse
  | none, some _ => .done .misuse
  | none, none => .done (takeFlag s g name)

def option (s : Spec) (g : Given) (arg : List Char) (next : Option String) : OptionStep :=
  match arg with
  | '-' :: '-' :: long => longOption s g long next
  | _ :: short => .done (shorts g short)
  | [] => .done .misuse

def read (s : Spec) : Given → List String → Reading
  | g, [] => .given g
  | g, arg :: rest =>
    if arg = "--" then takePositionals s g rest
    else if isOption arg then
      match option s g arg.toList rest.head? with
      | .done (.given g) => read s g rest
      | .done r => r
      | .tookNext g =>
        match rest with
        | _ :: rest => read s g rest
        | [] => .given g
    else if s.commands then .command g arg rest
    else
      match takePositional s g arg with
      | some g => read s g rest
      | none => .misuse

/-! ## The commands -/

def program : String := "bflow"

def isPair (s : String) : Bool := (Parameters.pair? s).isSome

def params : ValueOption := { name := "param", repeats := true, accepts := isPair }

/-- A whole number that an option's value stands for; a sign may stand in front. -/
def limit? (s : String) : Option Nat :=
  match s.toList with
  | '-' :: ds => if ds ≠ [] ∧ ds.all (· = '0') then some 0 else none
  | _ => (Text.readNatural Text.maxU32 s).toOption

def specOf? (name : String) : Option Spec :=
  let program := program ++ "-" ++ name
  match name with
  | "run" =>
    some { program, positionals := 1,
           values := [params, { params with name := "option" }, { name := "fail-at" }, { name := "stop-at" }] }
  | "history" => some { program, positionals := 1, values := [params] }
  | "jobs" => some { program }
  | "abandon" => some { program, positionals := 1, flags := ["force"], values := [params] }
  | "status" => some { program, values := [{ name := "limit", accepts := fun v => (limit? v).isSome }] }
  | "completions" => some { program, positionals := 1 }
  | _ => none

def commandNames : List String := ["run", "history", "jobs", "abandon", "status", "completions"]

def pairs (values : List String) : List (String × String) := values.filterMap Parameters.pair?

def identifying (g : Given) : Parameters :=
  (pairs (g.values? "param")).foldl (fun p e => p.identify e.1 e.2) Dict.empty

/-- All parameters that were given; an option replaces a parameter of its key. -/
def parametersOf (g : Given) : Parameters :=
  (pairs (g.values? "option")).foldl (fun p e => p.option e.1 e.2) (identifying g)

def commandOf? (name : String) (g : Given) : Option Command :=
  match name, g.positionals with
  | "run", [job] => some (.run ⟨job, parametersOf g⟩ (g.value? "fail-at") (g.value? "stop-at"))
  | "history", [job] => some (.history ⟨job, identifying g⟩)
  | "jobs", [] => some .jobs
  | "abandon", [job] => some (.abandon ⟨job, identifying g⟩ (g.flag? "force"))
  | "status", [] => some (.status (((g.value? "limit").bind limit?).getD 10))
  | "completions", [shell] => (Shell.ofName? shell).map .completions
  | _, _ => none

def invocation? (outer : Given) (name : String) (inner : Given) : Option Invocation :=
  (commandOf? name inner).map fun command =>
    { json := outer.flag? "json" || inner.flag? "json"
      quiet := outer.flag? "quiet" || inner.flag? "quiet"
      verbosity := if inner.verbosity = 0 then outer.verbosity else inner.verbosity
      command }

def ask (args : List String) : Asked :=
  match read { program, commands := true } {} args with
  | .given _ => .misuse
  | .misuse => .misuse
  | .help => .help
  | .version => .version program
  | .command _ "help" names => if names.all commandNames.contains then .help else .misuse
  | .command outer name rest =>
    match specOf? name with
    | none => .misuse
    | some s =>
      match read s {} rest with
      | .given inner =>
        match invocation? outer name inner with
        | some i => .run i
        | none => .misuse
      | .command .. => .misuse
      | .misuse => .misuse
      | .help => .help
      | .version => .version s.program

end Switchyard.Cli
