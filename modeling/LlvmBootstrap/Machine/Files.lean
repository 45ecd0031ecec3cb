import LlvmBootstrap.Machine.Program

/-!
Work on files that takes more than one call.
-/

namespace LlvmBootstrap.Program

/-- Whether a path leads to a directory. -/
def isDir (p : Path) : Program Bool := do
  match ← make (.look true p) with
  | .ok .dir => return true
  | _ => return false

/-- Whether a path leads to anything. -/
def exists_ (p : Path) : Program Bool := do
  return (← make (.look true p)).isOk

/-- Makes a directory. One that is there already, or a link to one, will do. -/
def makeDir (p : Path) : Attempt Errno Unit := do
  match ← make (.change (.mkdir p)) with
  | .ok () => return ()
  | .error e => if ← isDir p then return () else throw e

/-- The paths above a path, nearest one first. -/
def ancestors (p : Path) : List Path :=
  let cs := p.components
  (List.range cs.length).reverse.filterMap fun n =>
    if n = 0 ∨ (n = 1 ∧ p.isAbsolute) then none else some (Path.ofComponents (cs.take n))

/-- Makes a directory and those above it that are missing. `above` lists the paths above it,
nearest one first; they are tried only as far up as something is missing. -/
def makeDirsFrom (p : Path) : List Path → Attempt Errno Unit
  | [] => makeDir p
  | parent :: above => do
    match ← make (.change (.mkdir p)) with
    | .ok () => return ()
    | .error .notFound =>
      makeDirsFrom parent above
      makeDir p
    | .error e => if ← isDir p then return () else throw e

/-- A path without components is taken to be there. -/
def makeDirs (p : Path) : Attempt Errno Unit :=
  if p.components = [] then return () else makeDirsFrom p (ancestors p)

/-- The answer of a call that may be refused. -/
def change (c : Change) : Attempt Errno Unit := ExceptT.mk (make (.change c))

end LlvmBootstrap.Program
