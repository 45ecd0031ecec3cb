import LlvmBootstrap.Environment
import LlvmBootstrap.Text.Lines

/-!
Reading the variables that a setup script prints. A line `NAME=VALUE` counts if its name keeps
to the grammar here; the value is all behind the first `=`. All other lines are noise, and of
several lines for one name the last one counts.
-/

namespace LlvmBootstrap.Variables

def isNameStart (c : Char) : Bool := c.isAlpha || c = '_'

def isNameRest (c : Char) : Bool := c.isAlphanum || "_().-\x7b\x7d".toList.contains c

def isName : List Char → Bool
  | [] => false
  | c :: cs => isNameStart c && cs.all isNameRest

/-- The texts before and behind the first `=`. -/
def cut? : List Char → Option (List Char × List Char)
  | [] => none
  | c :: cs => if c = '=' then some ([], cs) else (cut? cs).map fun r => (c :: r.1, r.2)

/-- The variable a line sets. One carriage return at the end of the line is not part of it. -/
def ofLine? (line : List Char) : Option (String × String) := do
  let (name, value) ← cut? (Lines.chomp line)
  if isName name then some (String.ofList name, String.ofList value) else none

def ofDump (dump : String) : Variables :=
  SortedMap.ofList ((Lines.split dump.toList).filterMap ofLine?)

end LlvmBootstrap.Variables
