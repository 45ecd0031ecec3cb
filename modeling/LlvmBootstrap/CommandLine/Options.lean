import LlvmBootstrap.Action
import LlvmBootstrap.Arch
import LlvmBootstrap.Defaults
import LlvmBootstrap.Path

/-!
The options and the task that a command line gives. Options may stand on either side of the
task's name; the one that stands behind it counts if both do. What stands behind `--` is for
the build tool.
-/

namespace LlvmBootstrap.CommandLine

inductive Task where
  | setup
  | act (a : Action) (args : List String)
  deriving DecidableEq

structure Options where
  host : Arch
  release : Bool
  root : Option Path
  config : Option Path
  deriving DecidableEq

/-- The names of options. -/
inductive Flag where
  | host
  | release
  | root
  | config
  | verbose
  deriving DecidableEq

namespace Flag

def all : List Flag := [.host, .release, .root, .config, .verbose]

def name : Flag → String
  | .host => "host"
  | .release => "release"
  | .root => "root"
  | .config => "config"
  | .verbose => "verbose"

def takesValue (f : Flag) : Bool := f = .host || f = .root || f = .config

/-- How an option is shown to a person. -/
def shown (f : Flag) : String :=
  "--" ++ f.name ++ if f.takesValue then " <" ++ f.name.toUpper ++ ">" else ""

end Flag

inductive UsageError where
  | unexpected (arg : String)
  | unexpectedValue (value : String) (f : Flag)
  | missingValue (f : Flag)
  | badValue (value : String) (f : Flag) (reason : String)
  | repeated (f : Flag)
  | unknownTask (name : String)
  | noTask
  /-- Nothing was given at all, which is answered with the help text. -/
  | nothing
  deriving DecidableEq

def about : String :=
  Defaults.tool ++ " - bootstrap LLVM from source and build llvm-sys projects against it"

def UsageError.message : UsageError → String
  | .unexpected arg => "error: unexpected argument '" ++ arg ++ "' found"
  | .unexpectedValue value f =>
    "error: unexpected value '" ++ value ++ "' for '" ++ f.shown ++
      "' found; no more were expected"
  | .missingValue f =>
    "error: a value is required for '" ++ f.shown ++ "' but none was supplied"
  | .badValue value f reason =>
    "error: invalid value '" ++ value ++ "' for '" ++ f.shown ++ "': " ++ reason
  | .repeated f => "error: the argument '" ++ f.shown ++ "' cannot be used multiple times"
  | .unknownTask name => "error: unrecognized subcommand '" ++ name ++ "'"
  | .noTask => "error: '" ++ Defaults.tool ++
    "' requires a subcommand but one was not provided"
  | .nothing => about

/-- What has been read at one side of the task's name: the options with their values, and an
option that still waits for its value or whose value has yet to be looked at. -/
structure Seen where
  given : List (Flag × String)
  waiting : Option (Flag × Option String)
  deriving DecidableEq

def Seen.start : Seen := ⟨[], none⟩

/-- What ends the reading early. -/
inductive Stop where
  | error (e : UsageError)
  | help
  | version
  deriving DecidableEq

abbrev Reading (α : Type) := Except Stop α

def fail {α : Type} (e : UsageError) : Reading α := .error (.error e)

/-- Checks the value of an option. -/
def checkValue (f : Flag) (value : String) : Reading Unit :=
  match f with
  | .host =>
    if (Arch.ofText? value).isSome then .ok ()
    else fail (.badValue value f (Arch.unknownMessage value))
  | .root | .config => if value = "" then fail (.missingValue f) else .ok ()
  | .release | .verbose => .ok ()

def Seen.give (s : Seen) (f : Flag) (value : String) : Reading Seen := do
  if s.given.any (·.1 = f) then fail (.repeated f)
  checkValue f value
  return { s with given := s.given ++ [(f, value)] }

/-- Looks at the option that waits, which by now must have its value. -/
def Seen.settle (s : Seen) : Reading Seen :=
  match s.waiting with
  | none => .ok s
  | some (f, none) => fail (.missingValue f)
  | some (f, some value) => ({ s with waiting := none } : Seen).give f value

/-- The name of a long option and the value behind `=`. -/
def cutValue (cs : List Char) : String × Option String :=
  (String.ofList (cs.takeWhile (· ≠ '=')),
    (cs.dropWhile (· ≠ '=')).tail?.map String.ofList)

/-- An option that is written out. `top` says that no task has been named yet. -/
def Seen.long (s : Seen) (top : Bool) (cs : List Char) : Reading Seen := do
  let (name, value) := cutValue cs
  match Flag.all.find? (·.name = name), value with
  | some f, value =>
    match f.takesValue, value with
    | true, some v => (← s.settle).give f v
    | true, none => return { (← s.settle) with waiting := some (f, none) }
    | false, some v => fail (.unexpectedValue v f)
    | false, none => (← s.settle).give f ""
  | none, _ =>
    if name = "help" then throw .help
    else if top ∧ name = "version" then throw .version
    else fail (.unexpected ("--" ++ name))

/-- Options of one letter, several of which may stand together. -/
def Seen.short (s : Seen) (top : Bool) : List Char → Reading Seen
  | [] => return s
  | c :: cs => do
    if c = 'v' then (← (← s.settle).give .verbose "").short top cs
    else if c = 'h' then throw .help
    else if top ∧ c = 'V' then throw .version
    else fail (.unexpected (String.ofList ['-', c]))

def Seen.isWaiting (s : Seen) : Bool := s.waiting.any (·.2.isNone)

/-- One argument that is neither the name of a task nor `--`; none if it is neither
an option nor the value of one. -/
def Seen.take? (s : Seen) (top : Bool) (arg : String) : Reading (Option Seen) := do
  match arg.toList with
  | '-' :: '-' :: cs => return some (← s.long top cs)
  | '-' :: c :: cs => return some (← s.short top (c :: cs))
  | _ =>
    match s.waiting with
    | some (f, none) => return some { s with waiting := some (f, some arg) }
    | _ => return none

/-- The tasks by name. -/
def task? (name : String) (args : List String) : Option Task :=
  if name = "setup" then some .setup
  else (Action.all.find? (·.subcommand = name)).map (.act · args)

def isTask (name : String) : Bool := (task? name []).isSome

/-- What stands behind the name of a task: options, and the arguments behind `--`. -/
def readTask (takesArgs : Bool) : Seen → List String → Reading (Seen × List String)
  | s, [] => return (← s.settle, [])
  | s, arg :: args => do
    if arg = "--" then
      match takesArgs, args with
      | false, a :: _ => fail (.unexpected a)
      | _, args => return (← s.settle, args)
    else
      match ← s.take? false arg with
      | some s => readTask takesArgs s args
      | none => fail (.unexpected arg)

/-- What stands up to the name of a task, and what is behind it. -/
def readTop : Seen → List String → Reading (Seen × Option (String × List String))
  | s, [] => return (s, none)
  | s, arg :: args => do
    if !s.isWaiting ∧ isTask arg then return (s, some (arg, args))
    else if !s.isWaiting ∧ arg = "help" then throw .help
    else if arg = "--" then
      match args with
      | [] => return (s, none)
      | a :: _ => fail (if isTask a then .unexpected a else .unknownTask a)
    else
      match ← s.take? true arg with
      | some s => readTop s args
      | none => fail (.unknownTask arg)

/-- The value of an option; the last one counts. -/
def value? (given : List (Flag × String)) (f : Flag) : Option String :=
  (given.reverse.find? (·.1 = f)).map (·.2)

def optionsOf (given : List (Flag × String)) : Options where
  host := ((value? given .host).bind Arch.ofText?).getD .x64
  release := (value? given .release).isSome
  root := (value? given .root).map Path.ofString
  config := (value? given .config).map Path.ofString

/-- What a command line asks for. -/
def read (args : List String) : Reading (Options × Task) := do
  let (top, rest) ← readTop .start args
  match rest with
  | none =>
    let top ← top.settle
    fail (if top.given.isEmpty then .nothing else .noTask)
  | some (name, rest) =>
    let (behind, args) ← readTask (name ≠ "setup") .start rest
    let top ← top.settle
    match task? name args with
    | some t => return (optionsOf (top.given ++ behind.given), t)
    | none => fail (.unknownTask name)

end LlvmBootstrap.CommandLine
