import LlvmBootstrap.SortedMap
import LlvmBootstrap.Text.Utf8

/-!
Environment variables. A process has an `Environ`, whose names and values are any octets; the
tool itself works with `Variables`, which are texts, and what is no text in the one has no
place in the other.
-/

namespace LlvmBootstrap

abbrev Environ := SortedMap Bytes Bytes

/-- Variables in the order of their names. -/
abbrev Variables := SortedMap String String

namespace Variables

/-- The variables of a process whose name and value are both texts. -/
def ofEnviron (e : Environ) : Variables :=
  SortedMap.ofList <| e.entries.filterMap fun v => do
    return (← Utf8.decode? v.1, ← Utf8.decode? v.2)

/-- All of `vars`, with `overrides` over them. -/
def withOverrides (vars overrides : Variables) : Variables := vars.insertAll overrides.entries

def toEnviron (vars : Variables) : Environ :=
  SortedMap.ofList (vars.entries.map fun v => (Utf8.encode v.1, Utf8.encode v.2))

end Variables

namespace Environ

/-- The value of a variable, if it is set to a text. -/
def text? (e : Environ) (name : String) : Option String := do
  Utf8.decode? (← e.get? (Utf8.encode name))

end Environ

end LlvmBootstrap
