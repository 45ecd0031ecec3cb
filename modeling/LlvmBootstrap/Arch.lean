/-!
The processor architectures a toolchain can be built for. The identifier of an architecture is
also the name of its install directory.
-/

namespace LlvmBootstrap

inductive Arch where
  | x64
  | x86
  deriving DecidableEq

namespace Arch

def all : List Arch := [.x64, .x86]

def text : Arch → String
  | .x64 => "x64"
  | .x86 => "x86"

def ofText? (s : String) : Option Arch := all.find? (·.text = s)

/-- What is said of a text that names no architecture. -/
def unknownMessage (s : String) : String :=
  "unknown architecture '" ++ s ++ "' (expected one of: " ++
  ", ".intercalate (all.map text) ++ ")"

@[simp] theorem ofText?_text (a : Arch) : ofText? a.text = some a := by
  cases a <;> decide

theorem ofText?_eq_some_iff {s : String} {a : Arch} : ofText? s = some a ↔ a.text = s := by
  constructor
  · intro h
    have hs := List.find?_some h
    exact of_decide_eq_true hs
  · rintro rfl
    exact ofText?_text a

end Arch

end LlvmBootstrap
