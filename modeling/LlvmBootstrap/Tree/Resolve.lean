import LlvmBootstrap.Tree
import LlvmBootstrap.Tree.Errno

/-!
Where a path leads in a tree. The walk goes from directory to directory, one component at a
time: `..` is the directory that holds the current one, and a link in the middle is followed
from the directory that holds it. The last component may be missing as long as the directory
for it is there.
-/

namespace LlvmBootstrap.Tree

/-- Where a walk ends. -/
inductive Spot where
  | found (loc : Location) (n : Node)
  | vacant (dir : Location) (name : Name)
  deriving DecidableEq

/-- The links followed before a walk is given up. -/
def maxLinks : Nat := 40

def maxName : Nat := 255

def maxPath : Nat := 4095

/-- The components of a path for the walk. A separator at the end asks for a
directory, as a final `.` does. -/
def steps (p : Path) : List Component :=
  (Path.pieces p.bytes).filterMap Path.component? ++
    (if p.bytes.getLast? = some Path.slash ∨ (Path.pieces p.bytes).getLast? = some Path.dot
      then [.here] else [])

/-- The walk from the directory `cur`. `follow` says whether a link at the end is followed,
`links` how many links may still be. -/
def walk (t : Tree) (follow : Bool) (links : Nat) (cur : Location) :
    List Component → Except Errno Spot
  | [] => .ok (.found cur ((t.node? cur).getD (.dir 0o755)))
  | .root :: cs => walk t follow links [] cs
  | .here :: cs => walk t follow links cur cs
  | .up :: cs => walk t follow links cur.dropLast cs
  | .name n :: cs =>
    if maxName < n.length then .error .nameTooLong else
    match t.node? (cur ++ [n]) with
    | none => if cs = [] then .ok (.vacant cur n) else .error .notFound
    | some (.dir mode) =>
      if cs = [] then .ok (.found (cur ++ [n]) (.dir mode))
      else walk t follow links (cur ++ [n]) cs
    | some (.file id) =>
      if cs = [] then .ok (.found (cur ++ [n]) (.file id)) else .error .notDirectory
    | some (.link target) =>
      if cs = [] ∧ !follow then .ok (.found (cur ++ [n]) (.link target)) else
      match links with
      | 0 => .error .loop
      | links + 1 =>
        walk t follow links (if target.isAbsolute then [] else cur) (steps target ++ cs)
termination_by cs => (links, cs.length)

/-- Where a path leads, seen from the directory `cwd`. -/
def resolve (t : Tree) (cwd : Location) (follow : Bool) (p : Path) : Except Errno Spot :=
  if 0 ∈ p.bytes then .error .zeroInPath
  else if p.bytes = [] then .error .notFound
  else if maxPath < p.bytes.length then .error .nameTooLong
  else walk t follow maxLinks (if p.isAbsolute then [] else cwd) (steps p)

/-- The object a path leads to. -/
def lookup (t : Tree) (cwd : Location) (follow : Bool) (p : Path) :
    Except Errno (Location × Node) :=
  match t.resolve cwd follow p with
  | .ok (.found loc n) => .ok (loc, n)
  | .ok (.vacant _ _) => .error .notFound
  | .error e => .error e

/-- Whether a path leads to a directory, links followed. -/
def isDir (t : Tree) (cwd : Location) (p : Path) : Bool :=
  match t.lookup cwd true p with
  | .ok (_, .dir _) => true
  | _ => false

end LlvmBootstrap.Tree
