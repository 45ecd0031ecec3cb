import LlvmBootstrap.Machine.Files
import LlvmBootstrap.Root

/-!
The stages of a bootstrap and the record of which of them are complete. The record of a root is
its directories: a stage is complete when the directory it makes is there.
-/

namespace LlvmBootstrap

inductive Stage where
  | fetch
  | configure (a : Arch)
  | install (a : Arch)
  deriving DecidableEq

def Stage.text : Stage → String
  | .fetch => "fetch"
  | .configure a => "configure (" ++ a.text ++ ")"
  | .install a => "install (" ++ a.text ++ ")"

structure StageRecord where
  isComplete : Stage → Program Bool
  /-- Forgets a stage, so that it is done from the start next time. -/
  reset : Stage → Attempt Failure Unit

namespace Root

/-- The directory that a stage makes. -/
def marker (r : Root) : Stage → Path
  | .fetch => r.sources
  | .configure a => r.build a
  | .install a => r.install a

def isComplete (r : Root) (s : Stage) : Program Bool := Program.isDir (r.marker s)

def reset (r : Root) (s : Stage) : Attempt Failure Unit := do
  match ← make (.change (.removeAll (r.marker s))) with
  | .ok () | .error .notFound => return ()
  | .error e => throw (.system e)

/-- The directories of a root as the record of its stages. -/
def record (r : Root) : StageRecord := ⟨r.isComplete, r.reset⟩

end Root

end LlvmBootstrap
