import LlvmBootstrap.Path
import LlvmBootstrap.SortedMap

/-!
A file tree. What stands at a place is a directory, a symbolic link or a name of a file; the
files themselves are numbered, so that several names can share one. A file stays when its last
name goes, since an open handle may still refer to it, and a number is never given twice.
-/

namespace LlvmBootstrap

/-- The names that lead from the top of the tree to a place, in order. -/
abbrev Location := List Name

abbrev FileId := Nat

abbrev Mode := Nat

inductive Node where
  | dir (mode : Mode)
  | file (id : FileId)
  | link (target : Path)
  deriving DecidableEq

structure FileBody where
  mode : Mode
  content : Bytes
  deriving DecidableEq

structure Tree where
  nodes : SortedMap Location Node
  bodies : List FileBody
  deriving DecidableEq

namespace Tree

def empty : Tree := ⟨.empty, []⟩

instance : Inhabited Tree := ⟨empty⟩

/-- What stands at a place. The top is always a directory. -/
def node? (t : Tree) : Location → Option Node
  | [] => some (.dir 0o755)
  | loc => t.nodes.get? loc

def body? (t : Tree) (id : FileId) : Option FileBody := t.bodies[id]?

def content (t : Tree) (id : FileId) : Bytes := ((t.body? id).map (·.content)).getD []

def mode (t : Tree) (id : FileId) : Mode := ((t.body? id).map (·.mode)).getD 0

def put (t : Tree) (loc : Location) (n : Node) : Tree :=
  { t with nodes := t.nodes.insert loc n }

def remove (t : Tree) (loc : Location) : Tree := { t with nodes := t.nodes.erase loc }

def setBody (t : Tree) (id : FileId) (b : FileBody) : Tree :=
  { t with bodies := t.bodies.set id b }

/-- A new file and its number. -/
def addBody (t : Tree) (b : FileBody) : FileId × Tree :=
  (t.bodies.length, { t with bodies := t.bodies ++ [b] })

/-- A place and all places below it. -/
def isWithin (top loc : Location) : Bool := top.isPrefixOf loc

/-- Whether anything stands below a place. -/
def isVacantBelow (t : Tree) (loc : Location) : Bool :=
  t.nodes.entries.all fun e => !(isWithin loc e.1 && e.1 ≠ loc)

/-- Removes a place with everything below it. -/
def prune (t : Tree) (loc : Location) : Tree :=
  { t with nodes := t.nodes.filter fun l _ => !isWithin loc l }

/-- Moves a place with everything below it, over whatever stood at the new place. -/
def move (t : Tree) (src dst : Location) : Tree :=
  let moved := t.nodes.entries.filter fun e => isWithin src e.1
  let left := (t.prune src).prune dst
  { left with
    nodes := left.nodes.insertAll (moved.map fun e => (dst ++ e.1.drop src.length, e.2)) }

theorem node?_put_self (t : Tree) {loc : Location} (n : Node) (h : loc ≠ []) :
    (t.put loc n).node? loc = some n := by
  cases loc with
  | nil => contradiction
  | cons a l => simp [node?, put]

theorem node?_put_of_ne (t : Tree) {loc loc' : Location} (n : Node) (h : loc' ≠ loc) :
    (t.put loc n).node? loc' = t.node? loc' := by
  cases loc' with
  | nil => rfl
  | cons a l => simp [node?, put, SortedMap.get?_insert_of_ne _ _ h]

theorem node?_remove_of_ne (t : Tree) {loc loc' : Location} (h : loc' ≠ loc) :
    (t.remove loc).node? loc' = t.node? loc' := by
  cases loc' with
  | nil => rfl
  | cons a l => simp [node?, remove, SortedMap.get?_erase_of_ne _ h]

end Tree

end LlvmBootstrap
