import LlvmBootstrap.Environment
import LlvmBootstrap.Path

/-!
Commands that are given to the machine to run.
-/

namespace LlvmBootstrap

structure Command where
  program : String
  args : List Bytes
  /-- The directory to run in, the current one if not given. -/
  dir : Option Path
  /-- If given, the command gets these variables in place of the inherited ones. -/
  vars : Option Variables
  /-- Variables set over whichever ones the command gets. -/
  extra : SortedMap String Bytes
  deriving DecidableEq

namespace Command

def of (program : String) : Command := ⟨program, [], none, none, .empty⟩

def arg (c : Command) (a : Bytes) : Command := { c with args := c.args ++ [a] }

def texts (c : Command) (as : List String) : Command :=
  { c with args := c.args ++ as.map Utf8.encode }

def inDir (c : Command) (p : Path) : Command := { c with dir := some p }

def withVars (c : Command) (vars : Variables) : Command := { c with vars := some vars }

def setting (c : Command) (name : String) (value : Bytes) : Command :=
  { c with extra := c.extra.insert name value }

/-- The command line for a person to read: program and arguments with
blanks between, no quoting. -/
def line (c : Command) : String :=
  c.args.foldl (fun s a => s ++ " " ++ Utf8.lossy a) c.program

/-- The environment the command runs in when its caller has `inherited`. -/
def environ (c : Command) (inherited : Environ) : Environ :=
  let base := match c.vars with
    | some vars => vars.toEnviron
    | none => inherited
  base.insertAll (c.extra.entries.map fun v => (Utf8.encode v.1, v.2))

end Command

/-- How a command ended. -/
structure Status where
  /-- None if a signal ended it. -/
  code : Option Int
  deriving DecidableEq

namespace Status

def zero : Status := ⟨some 0⟩

def isSuccess (s : Status) : Bool := s.code = some 0

/-- The code as it stands in messages. -/
def shown (s : Status) : String :=
  match s.code with
  | some c => "Some(" ++ toString c ++ ")"
  | none => "None"

end Status

end LlvmBootstrap
