import LlvmBootstrap.Machine.Files
import LlvmBootstrap.Path.Normal
import LlvmBootstrap.Sources.Error
import LlvmBootstrap.Tar.Members

/-!
Unpacking an archive into a directory. Only members under the archive's top directory are
unpacked, with the destination in place of the top directory. Each member is checked before
anything is made for it: a path or link target that leads outside the top directory ends the
unpacking, and nothing is ever made through a link that was unpacked before, since links that
each stay inside may together lead outside.

An error of the system keeps its own words here. The path that it is about is left out: it
begins with the name of the destination, and that of a staging directory is drawn.
-/

namespace LlvmBootstrap.Archive

open Tar Program

/-- The answer of a call, a refusal as an error of the sources, without the path. -/
def orFail {α : Type} (a : Attempt Errno α) : Attempt SourceError α :=
  a.adapt fun e => .failed (.system e)

/-- Whether the walk from `dir` down some names meets a link. It ends at
the first name that is not there. -/
def meetsLink (dir : Path) : List Name → Attempt Errno Bool
  | [] => return false
  | n :: ns => do
    let here := dir / (⟨n⟩ : Path)
    match ← make (.look false here) with
    | .ok .link => return true
    | .ok _ => meetsLink here ns
    | .error .notFound => return false
    | .error e => throw e

/-- Makes something at a path, in place of a file or link that stands there. -/
def replacing (p : Path) (c : Change) : Attempt Errno Unit := do
  match ← make (.change c) with
  | .ok () => return ()
  | .error .exists =>
    match ← make (.change (.unlink p)) with
    | .ok () | .error .notFound => change c
    | .error e => throw e
  | .error e => throw e

def setMode (m : Member) (p : Path) : Attempt Errno Unit :=
  match m.mode with
  | some mode => change (.chmod p (mode % 0o1000))
  | none => return ()

/-- Makes a directory; a directory that is there will do, a link to one will not. -/
def makeMemberDir (p : Path) : Attempt Errno Unit := do
  match ← make (.change (.mkdir p)) with
  | .ok () => return ()
  | .error .exists =>
    match ← make (.look false p) with
    | .ok .dir => return ()
    | _ => throw .exists
  | .error e => throw e

/-- Makes what a member describes, a hard link excepted. -/
def makeMember (m : Member) (p : Path) : Attempt SourceError Unit := do
  match m.kind with
  | .metadata | .hardLink => return ()
  | .directory => orFail do
    makeMemberDir p
    setMode m p
  | .symlink =>
    match m.target with
    | some target =>
      if target.bytes = [] then throw (.failed (.told "symlink destination is empty"))
      orFail (replacing p (.symlink target p))
    | none => throw (.failed (.told "link without a name"))
  | .file =>
    orFail (replacing p (.create p m.content))
    if !m.isWhole then throw (.failed (.told "failed to write entire file"))
    orFail (setMode m p)

/-- A hard link; where none can be made, a copy. -/
def makeHardLink (src p : Path) : Attempt SourceError Unit := do
  match ← make (.change (.link src p)) with
  | .ok () => return ()
  | .error _ => orFail (change (.copy src p))

/-- Where a link leads in the archive: targets are as seen from the
directory that holds the link. -/
def linkedNames? (names : List Name) (target : Path) : Option (List Name) :=
  Path.normalize? (Path.ofNames names.dropLast / target)

/-- The names below the top directory. -/
def belowTop? (top : Path) (names : List Name) : Option (List Name) :=
  Path.stripBase? top.components names

/-- The target of a link member, which it must have. -/
def targetOf (m : Member) : Attempt SourceError Path :=
  match m.target with
  | some t => return t
  | none => throw (.pathEscapes m.path)

/-- Checks the target of a link member. For a hard link gives the path of the file it names,
which is another member, named from the top of the archive. -/
def checkTarget (top dest : Path) (names : List Name) (m : Member) :
    Attempt SourceError (Option Path) := do
  match m.kind with
  | .symlink =>
    let target ← targetOf m
    match (linkedNames? names target).bind (belowTop? top) with
    | some _ => return none
    | none => throw (.linkEscapes m.path target)
  | .hardLink =>
    let target ← targetOf m
    match target.normalize?.bind (belowTop? top) with
    | some below =>
      if ← orFail (meetsLink dest below) then throw (.linkEscapes m.path target)
      return some (dest / Path.ofNames below)
    | none => throw (.linkEscapes m.path target)
  | _ => return none

/-- Unpacks one member and tells whether it lies below the top directory. -/
def unpackMember (top dest : Path) (m : Member) : Attempt SourceError Bool := do
  let some names := m.path.normalize? | throw (.pathEscapes m.path)
  match belowTop? top names with
  | none | some [] => return false
  | some below =>
    if ← orFail (meetsLink dest below) then throw (.pathEscapes m.path)
    let linked ← checkTarget top dest names m
    let place := dest / Path.ofNames below
    orFail (makeDirs (dest / Path.ofNames below.dropLast))
    match linked with
    | some src => makeHardLink src place
    | none => makeMember m place
    return true

/-- Unpacks members in order and counts those below the top directory. -/
def unpackAll (top dest : Path) (count : Nat) : List Member → Attempt SourceError Nat
  | [] => return count
  | m :: ms => do
    if ← unpackMember top dest m then unpackAll top dest (count + 1) ms
    else unpackAll top dest count ms

/-- Unpacks what can be read of an archive; damage behind it is an error. -/
def unpack (members : Members) (top dest : Path) : Attempt SourceError Nat := do
  let count ← unpackAll top dest 0 members.list
  if members.damaged then throw (.failed (.told "damaged archive"))
  return count

end LlvmBootstrap.Archive
