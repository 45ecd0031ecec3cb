import LlvmBootstrap.Host

/-!
The toolchain of a run: its environment is made the first time that it is needed and the same
from then on, since making it may take a command of its own.
-/

namespace LlvmBootstrap

structure Toolchain where
  arch : Arch
  /-- The environment, once it has been made. -/
  vars : Option Variables
  deriving DecidableEq

def Toolchain.of (a : Arch) : Toolchain := ⟨a, none⟩

/-- Programs that may stop with an error and that share a toolchain. -/
abbrev Work (ε α : Type) := ExceptT ε (StateT Toolchain Program) α

namespace Work

variable {ε ε' α : Type}

def ofAttempt (a : Attempt ε α) : Work ε α := ExceptT.mk (StateT.lift a.run)

/-- The work with its errors taken for others. -/
def adapt (f : ε → ε') (w : Work ε α) : Work ε' α := ExceptT.adapt f w

/-- What the work does to a toolchain, and its result. -/
def start (w : Work ε α) (t : Toolchain) : Program (Except ε α × Toolchain) := w.run.run t

/-- The environment of the toolchain. One that could not be made is
tried again the next time. -/
def environment (h : Host) : Work PlatformError Variables := do
  let t ← get
  match t.vars with
  | some vars => return vars
  | none =>
    let vars ← ofAttempt (h.environment t.arch)
    set { t with vars := some vars }
    return vars

end Work

end LlvmBootstrap
