import LlvmBootstrap.CommandLine
import LlvmBootstrap.Rehearsal.Launch

/-!
The tool on a command line, in rehearsal: a run works on a machine that is made for it and
forgotten after it, so that nothing else is touched.
-/

namespace LlvmBootstrap.Rehearsal

/-- The place where a rehearsal starts. -/
def workplace : Location := [Utf8.encode "work"]

/-- A machine with nothing but the programs of the system and a place to work in. -/
def machine : World Nat :=
  .fresh ((withPrograms .empty).put workplace (.dir 0o755)) workplace .empty 1 0

end LlvmBootstrap.Rehearsal

open LlvmBootstrap in
/-- Does what the arguments ask for and tells what was printed. -/
def main (args : List String) : IO UInt32 := do
  let (code, w) := (CommandLine.run args).run (Rehearsal.outside 0) Rehearsal.machine
  IO.print (Utf8.lossy w.out)
  IO.eprint (Utf8.lossy w.err)
  return UInt32.ofNat code.toNat
