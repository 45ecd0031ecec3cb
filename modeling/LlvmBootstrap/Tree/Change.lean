import LlvmBootstrap.Tree.Resolve

/-!
The calls that change a tree. Each either gives the changed tree or refuses and leaves the tree
as it was; a call acts on what its path leads to, following a link at the end only where that
is said.
-/

namespace LlvmBootstrap.Tree

/-- What new objects are given of the permissions asked for. -/
def umasked (mode : Mode) : Mode := mode &&& 0o755

/-- A path without separators at its end. -/
def trimSlashes (p : Path) : Path :=
  if p.bytes.all (· = Path.slash) then p
  else ⟨(p.bytes.reverse.dropWhile (· = Path.slash)).reverse⟩

def mkdir (t : Tree) (cwd : Location) (p : Path) (mode : Mode) : Except Errno Tree := do
  match ← t.resolve cwd false (trimSlashes p) with
  | .vacant dir name => return t.put (dir ++ [name]) (.dir (umasked mode))
  | .found _ _ => throw .exists

/-- Creates a regular file where nothing stands. -/
def createNew (t : Tree) (cwd : Location) (p : Path) (content : Bytes) :
    Except Errno Tree := do
  match ← t.resolve cwd false p with
  | .vacant dir name =>
    let (id, t) := t.addBody ⟨umasked 0o666, content⟩
    return t.put (dir ++ [name]) (.file id)
  | .found _ _ => throw .exists

/-- The file a path leads to, made empty with `mode` if there is none. -/
def openFile (t : Tree) (cwd : Location) (p : Path) (mode : Mode) :
    Except Errno (FileId × Tree) := do
  match ← t.resolve cwd true p with
  | .vacant dir name =>
    let (id, t) := t.addBody ⟨umasked mode, []⟩
    return (id, t.put (dir ++ [name]) (.file id))
  | .found _ (.file id) => return (id, t)
  | .found _ (.dir _) => throw .isDirectory
  | .found _ (.link _) => throw .loop

def setContent (t : Tree) (id : FileId) (content : Bytes) : Tree :=
  t.setBody id ⟨t.mode id, content⟩

/-- Writes a whole file, over what it held. -/
def writeFile (t : Tree) (cwd : Location) (p : Path) (content : Bytes) :
    Except Errno Tree := do
  let (id, t) ← t.openFile cwd p 0o666
  return t.setContent id content

def readFile (t : Tree) (cwd : Location) (p : Path) : Except Errno Bytes := do
  match ← t.lookup cwd true p with
  | (_, .file id) => return t.content id
  | (_, .dir _) => throw .isDirectory
  | (_, .link _) => throw .loop

def symlink (t : Tree) (cwd : Location) (target p : Path) : Except Errno Tree := do
  if 0 ∈ target.bytes then throw .zeroInPath
  if target.bytes = [] then throw .notFound
  if maxPath < target.bytes.length then throw .nameTooLong
  match ← t.resolve cwd false p with
  | .vacant dir name => return t.put (dir ++ [name]) (.link target)
  | .found _ _ => throw .exists

/-- A second name for what `src` leads to, a link at its end not followed. -/
def link (t : Tree) (cwd : Location) (src p : Path) : Except Errno Tree := do
  let (_, n) ← t.lookup cwd false src
  match ← t.resolve cwd false p with
  | .found _ _ => throw .exists
  | .vacant dir name =>
    match n with
    | .dir _ => throw .notPermitted
    | n => return t.put (dir ++ [name]) n

/-- Removes a name of a file or a link. -/
def unlink (t : Tree) (cwd : Location) (p : Path) : Except Errno Tree := do
  match ← t.lookup cwd false p with
  | (_, .dir _) => throw .isDirectory
  | (loc, _) => return t.remove loc

def chmod (t : Tree) (cwd : Location) (p : Path) (mode : Mode) : Except Errno Tree := do
  match ← t.lookup cwd true p with
  | (loc, .dir _) => return t.put loc (.dir mode)
  | (_, .file id) => return t.setBody id ⟨mode, t.content id⟩
  | (_, .link _) => throw .loop

/-- Removes a directory with all below it, or a link itself. -/
def removeAll (t : Tree) (cwd : Location) (p : Path) : Except Errno Tree := do
  match ← t.lookup cwd false p with
  | (loc, .dir _) => return t.prune loc
  | (loc, .link _) => return t.remove loc
  | (_, .file _) => throw .notDirectory

/-- Moves a directory to a place that is vacant or an empty directory. -/
def renameDir (t : Tree) (cwd : Location) (src dst : Path) : Except Errno Tree := do
  let (srcLoc, n) ← t.lookup cwd false src
  let .dir _ := n | throw .notDirectory
  match ← t.resolve cwd false (trimSlashes dst) with
  | .vacant dir name =>
    if isWithin srcLoc dir then throw .invalid
    return t.move srcLoc (dir ++ [name])
  | .found loc (.dir _) =>
    if loc = srcLoc then return t
    if isWithin srcLoc loc then throw .invalid
    if !t.isVacantBelow loc then throw .notEmpty
    return t.move srcLoc loc
  | .found _ _ => throw .notDirectory

/-- Copies the content and permissions of a regular file into the file at
`dst`, in place. The destination is emptied before the source is read, so a
file copied onto itself ends up empty. -/
def copyFile (t : Tree) (cwd : Location) (src dst : Path) : Except Errno Tree := do
  match ← t.lookup cwd true src with
  | (_, .file source) =>
    let mode := t.mode source
    let (id, t) ← t.openFile cwd dst mode
    let t := t.setContent id []
    return t.setBody id ⟨mode, t.content source⟩
  | _ => throw .notRegular

end LlvmBootstrap.Tree
