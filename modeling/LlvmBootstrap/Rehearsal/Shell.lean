import LlvmBootstrap.Machine.Program
import LlvmBootstrap.Rehearsal.Arithmetic

/-!
What a shell works on. Commands write to numbered outputs, each of which leads to the caller,
to a file or nowhere.
-/

namespace LlvmBootstrap.Rehearsal

inductive Sink where
  | out
  | err
  | file (id : FileId)
  | nowhere
  deriving DecidableEq

structure Shell where
  tree : Tree
  cwd : Location
  vars : Environ
  /-- The variables that commands inherit. -/
  exported : List Bytes
  name : Chars
  args : List Chars
  status : Nat
  /-- What has been written so far, the last piece first. -/
  out : List Chars
  err : List Chars
  input : Chars
  sinks : List (Nat × Sink)

/-- What ends a shell, or a loop in it, early. -/
inductive Stop where
  | exit
  | killed
  /-- Ends a loop, or only its present round. -/
  | leave (again : Bool)
  deriving DecidableEq

abbrev Run := ExceptT Stop (StateM Shell)

/-- What pieces of output amount to. -/
def written (pieces : List Chars) : Chars := pieces.reverse.flatten

def path (cs : Chars) : Path := ⟨octets cs⟩

def isGap (c : Char) : Bool := c = ' ' || c = '\t'

def trimmed (cs : Chars) : Chars := ((cs.dropWhile isGap).reverse.dropWhile isGap).reverse

def join (ws : List Chars) : Chars := List.intercalate [' '] ws

def digitsOf (n : Nat) : Chars := Nat.toDigits 10 n

namespace Shell

/-- The number that a shell is known by as a process. -/
def processNumber : Chars := "4194302".toList

/-- The value of a variable or a special parameter. -/
def value? (s : Shell) (name : Chars) : Option Chars :=
  match String.ofList name with
  | "?" => some (digitsOf s.status)
  | "#" => some (digitsOf s.args.length)
  | "*" | "@" => if s.args = [] then none else some (join s.args)
  | "$" => some processNumber
  | "0" => some s.name
  | "-" => some []
  | "!" => none
  | _ =>
    if name.all Char.isDigit then s.args[Arithmetic.naturalOf name - 1]?
    else (s.vars.get? (octets name)).map chars

def set (s : Shell) (name value : Chars) : Shell :=
  { s with vars := s.vars.insert (octets name) (octets value) }

def share (s : Shell) (name : Chars) : Shell :=
  { s with exported := octets name :: s.exported }

/-- The environment that commands inherit. -/
def environ (s : Shell) : Environ := s.vars.filter fun k _ => s.exported.contains k

/-- Whether a path leads to an object of some kind. -/
def finds (s : Shell) (follow : Bool) (p : Chars) (ok : Node → Bool) : Bool :=
  match s.tree.lookup s.cwd follow (path p) with
  | .ok (_, n) => ok n
  | .error _ => false

def here (s : Shell) : Chars := Char.ofNat Path.slash.toNat :: chars (Path.ofNames s.cwd).bytes

end Shell

/-- Whether an object may be run. -/
def isExecutable (t : Tree) : Node → Bool
  | .file id => t.mode id &&& 0o111 ≠ 0
  | _ => false

namespace Run

def setStatus (n : Nat) : Run Unit := modify fun s => { s with status := n }

def emit (fd : Nat) (cs : Chars) : Run Unit := modify fun s =>
  match s.sinks.lookup fd with
  | some .out => { s with out := cs :: s.out }
  | some .err => { s with err := cs :: s.err }
  | some (.file id) => { s with tree := s.tree.setContent id (s.tree.content id ++ octets cs) }
  | some .nowhere | none => s

/-- A message of the shell itself. -/
def complain (code : Nat) (message : List Chars) : Run Unit := do
  emit 2 ((← get).name ++ ": 1: ".toList ++ message.flatten ++ ['\n'])
  setStatus code

/-- A message of a command. -/
def say (message : List Chars) : Run Unit := emit 2 (message.flatten ++ ['\n'])

/-- Does something to the tree; gives the error if it cannot be done. -/
def onTree (f : Tree → Location → Except Errno Tree) : Run (Option Errno) := do
  let s ← get
  match f s.tree s.cwd with
  | .ok tree =>
    set { s with tree }
    return none
  | .error e => return some e

/-- The words of an error, without its number. -/
def words (e : Errno) : Chars := e.words.2.toList

end Run

end LlvmBootstrap.Rehearsal
