import LlvmBootstrap.Build
import LlvmBootstrap.Downstream
import LlvmBootstrap.Lock
import LlvmBootstrap.Sources.Fetch

/-!
A whole run: the root is locked, the sources are fetched, LLVM is built and installed, and then
the build tool of the project is run. Each step is done, or skipped since it was done before,
or ends the run with its error.
-/

namespace LlvmBootstrap

inductive BootstrapError where
  | lock (e : LockError)
  | fetch (e : SourceError)
  | build (e : BuildError)
  | invoke (e : InvokeError)
  deriving DecidableEq

namespace BootstrapError

def message : BootstrapError → String
  | .lock e => e.message
  | .fetch e => e.message
  | .build e => e.message
  | .invoke e => e.message

/-- The code that the build tool of the project ended with, if that is what failed. -/
def downstreamCode? : BootstrapError → Option Int
  | .invoke (.failed _ status) => status.code
  | _ => none

end BootstrapError

structure Bootstrap where
  settings : Settings
  root : Root
  host : Host

namespace Bootstrap

/-- Works while a lock is held and gives the lock back in any case. -/
def holding {ε α : Type} (l : RootLock) (w : Work ε α) : Work ε α := ExceptT.mk do
  let r ← w.run
  StateT.lift l.release
  return r

/-- The steps under the lock: fetching the sources, building and installing. -/
def steps (b : Bootstrap) (a : Arch) : Work BootstrapError Path := do
  let record := b.root.record
  let _ ← Work.ofAttempt ((Sources.fetch b.settings.archive b.root record).adapt .fetch)
  let build : Build := ⟨b.root, record, b.host, b.settings.cmake.program⟩
  let install ← (build.run a).adapt .build
  make (.log .info "LLVM ready")
  return install

/-- Makes sure that LLVM is installed for an architecture and gives its install directory.
`command` is what the record in the lock file says of the run. -/
def prepare (b : Bootstrap) (a : Arch) (command : String) : Work BootstrapError Path := do
  let l ← Work.ofAttempt ((RootLock.acquire b.root command a).adapt .lock)
  holding l (b.steps a)

def downstream (b : Bootstrap) : Downstream :=
  ⟨b.settings.cargo.program, b.settings.cargo.prefixVariable, b.host⟩

/-- Makes sure that LLVM is installed and does what is asked for the project. -/
def run (b : Bootstrap) (q : Request) : Program (Except BootstrapError Unit) := do
  let w : Work BootstrapError Unit := do
    let install ← b.prepare q.arch q.action.subcommand
    (b.downstream.invoke q install).adapt .invoke
  return (← w.start (.of q.arch)).1

end Bootstrap

end LlvmBootstrap
