/-!
What the build tool of a project can be asked to do once LLVM is there.
-/

namespace LlvmBootstrap

inductive Action where
  | build
  | run
  | format
  | lint
  | clean
  | doc
  deriving DecidableEq

namespace Action

/-- The build tool's own word for an action. -/
def subcommand : Action → String
  | .build => "build"
  | .run => "run"
  | .format => "fmt"
  | .lint => "clippy"
  | .clean => "clean"
  | .doc => "doc"

def all : List Action := [.build, .run, .format, .lint, .clean, .doc]

/-- Actions that have a plain word besides the build tool's own. -/
def aliases : List (String × Action) := [("format", .format), ("lint", .lint)]

def ofText? (s : String) : Option Action :=
  (all.find? (·.subcommand = s)).or (aliases.lookup s)

def unknownMessage (s : String) : String := "unknown action '" ++ s ++ "'"

/-- Whether an action makes something for one target. -/
def needsTarget (a : Action) : Bool := a = .build || a = .run

/-- Whether the build tool takes a profile for an action. -/
def takesProfile (a : Action) : Bool := a ≠ .format

/-- Whether an action compiles, and so needs the toolchain's environment. -/
def compiles (a : Action) : Bool := a ≠ .format && a ≠ .clean

@[simp] theorem ofText?_subcommand (a : Action) : ofText? a.subcommand = some a := by
  cases a <;> decide

end Action

end LlvmBootstrap
