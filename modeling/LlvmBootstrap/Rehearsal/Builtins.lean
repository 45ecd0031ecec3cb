import LlvmBootstrap.Rehearsal.Utilities

/-!
The commands of a shell that work on the shell itself.
-/

namespace LlvmBootstrap.Rehearsal.Run

def cd (args : List Chars) : Run Unit := do
  let s ← get
  let dir := args.headD ((s.value? "HOME".toList).getD [])
  match s.tree.lookup s.cwd true (path dir) with
  | .ok (cwd, .dir _) =>
    let s := { s with cwd, status := 0 }
    set (s.set "PWD".toList s.here)
  | _ => complain 2 ["cd: can't cd to ".toList, dir]

/-- Puts the words of a line into variables, what is left into the last one. -/
def spread : List Chars → Chars → Run Unit
  | [], _ => return ()
  | [name], cs => modify fun s => s.set name (trimmed cs)
  | name :: names, cs => do
    let cs := cs.dropWhile isGap
    let word := cs.takeWhile fun c => !(isGap c)
    modify fun s => s.set name word
    spread names (cs.drop word.length)

/-- Reads a line; fails if the input ends before the line does. -/
def read (args : List Chars) : Run Unit := do
  let input := (← get).input
  let line := input.takeWhile (· ≠ '\n')
  let rest := input.drop line.length
  modify fun s => { s with input := rest.drop 1, status := if rest = [] then 1 else 0 }
  spread (operands args) line

/-- The name and the value of a setting in an argument. -/
def assignment (a : Chars) : Chars × Option Chars :=
  let name := a.takeWhile (· ≠ '=')
  (name, if name.length = a.length then none else some (a.drop (name.length + 1)))

def share (args : List Chars) : Run Unit := do
  for a in args do
    let (name, value) := assignment a
    modify fun s => ((value.map (s.set name)).getD s).share name
  setStatus 0

def unset (args : List Chars) : Run Unit := do
  for a in operands args do
    modify fun s => { s with
      vars := s.vars.erase (octets a), exported := s.exported.filter (· ≠ octets a) }
  setStatus 0

def exit (args : List Chars) : Run Unit := do
  match args with
  | [] => throw .exit
  | a :: _ =>
    if a ≠ [] ∧ a.all Char.isDigit then
      setStatus (Arithmetic.naturalOf a % 256)
    else complain 2 ["exit: Illegal number: ".toList, a]
    throw .exit

/-- A signal to the shell ends it, unless it is none. -/
def kill (args : List Chars) : Run Unit := do
  if args.getLast? = some Shell.processNumber ∧
    args.head? ≠ some "-0".toList then throw .killed
  setStatus 0

def shift (args : List Chars) : Run Unit := do
  let n := (args.head?.map Arithmetic.naturalOf).getD 1
  modify fun s => { s with args := s.args.drop n, status := 0 }

/-- Whether a loop goes on after a round. -/
def goesOn (round : Run Unit) : Run Bool := fun s =>
  match round s with
  | (.ok (), s) => (.ok true, s)
  | (.error (.leave again), s) => (.ok again, { s with status := 0 })
  | (.error e, s) => (.error e, s)

/-- Options do nothing; what follows them are the new arguments. -/
def setArgs (args : List Chars) : Run Unit := do
  let rest := args.dropWhile fun a => isOption a && a ≠ "--".toList
  if rest ≠ [] then
    modify fun s =>
  { s with args := if rest.head? = some "--".toList then rest.tail else rest }
  setStatus 0

def umask : Run Unit := do
  emit 1 "0022\n".toList
  setStatus 0

/-- A test in brackets. -/
def bracket (args : List Chars) : Run Unit := do
  if args.getLast? = some [']'] then test args.dropLast
  else complain 2 ["[: missing ]".toList]

def builtins : List (String × (List Chars → Run Unit)) :=
  [(":", fun _ => setStatus 0), ("true", fun _ => setStatus 0),
    ("false", fun _ => setStatus 1),
    ("echo", echo true), ("printf", printf), ("test", test), ("[", bracket), ("exit", exit),
    ("kill", kill), ("read", read), ("cd", cd), ("pwd", fun _ => pwd), ("export", share),
    ("unset", unset), ("shift", shift), ("set", setArgs), ("umask", fun _ => umask),
    ("break", fun _ => throw (.leave false)), ("continue", fun _ => throw (.leave true))]

end LlvmBootstrap.Rehearsal.Run
