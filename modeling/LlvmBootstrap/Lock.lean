import LlvmBootstrap.Defaults
import LlvmBootstrap.Lock.Holder
import LlvmBootstrap.Machine.Files
import LlvmBootstrap.Root

/-!
The lock of a root. A run that works on a root holds the lock of the root's lock file for as
long, and has written its record into the file, so that a run that is refused can tell what it
waits for. The file itself is never removed.
-/

namespace LlvmBootstrap

inductive LockError where
  /-- Another run holds the root; its record, if it can be read, and the time of asking. -/
  | busy (root : Root) (holder : Option Holder) (now : Nat)
  | failed (step : String) (p : Path) (cause : Errno)
  deriving DecidableEq

def LockError.message : LockError → String
  | .busy root holder now =>
    root.path.display ++ " is busy: " ++
      ((holder.map (·.described now)).getD "another run holds it") ++
      "\nIf no other " ++ Defaults.tool ++ " run is active, remove " ++ root.lock.display
  | .failed step p cause => "failed to " ++ step ++ " " ++ p.display ++ ": " ++ cause.message

/-- The lock of a root while it is held. -/
structure RootLock where
  handle : Handle
  path : Path
  deriving DecidableEq

namespace RootLock

open Program

/-- Puts content in place of all that the file held. -/
def replaceContent (h : Handle) (content : Bytes) : Attempt Errno Unit := do
  ExceptT.mk (make (.truncate h))
  ExceptT.mk (make (.rewind h))
  ExceptT.mk (make (.write h content))

/-- The record in the lock file of another run. -/
def otherHolder (r : Root) : Program (Option Holder) := do
  match ← make (.read r.lock) with
  | .ok content => return Holder.ofBytes? content
  | .error _ => return none

/-- Records who has the lock now. The lock is given back if that fails. -/
def keep (r : Root) (h : Handle) (record : Holder) : Attempt LockError RootLock := do
  match ← ExceptT.lift (replaceContent h record.toBytes).run with
  | .ok () => return ⟨h, r.lock⟩
  | .error e =>
    make (.close h)
    throw (.failed "write" r.lock e)

/-- Takes the lock of a root, unless another run has it, and records who has it now. -/
def acquire (r : Root) (command : String) (a : Arch) : Attempt LockError RootLock := do
  (makeDirs r.path).adapt (.failed "create" r.path)
  match ← make (.openFile r.lock) with
  | .error e => throw (.failed "open" r.lock e)
  | .ok h =>
    match ← make (.tryLock h) with
    | .ok true => keep r h ⟨← make .processId, command, a, ← make .clock⟩
    | .ok false =>
      let holder ← otherHolder r
      make (.close h)
      throw (.busy r holder (← make .clock))
    | .error e =>
      make (.close h)
      throw (.failed "lock" r.lock e)

def release (l : RootLock) : Program Unit := make (.close l.handle)

/-- The record of the run itself, read through the handle it holds. -/
def holder? (l : RootLock) : Program (Option Holder) := do
  match ← make (.rewind l.handle) with
  | .ok () => return Holder.ofBytes? (← make (.readRest l.handle))
  | .error _ => return none

end RootLock

end LlvmBootstrap
