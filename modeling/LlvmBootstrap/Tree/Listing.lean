import LlvmBootstrap.Tree

/-!
The objects below a place of a tree, in the order of their paths.
-/

namespace LlvmBootstrap.Tree

/-- What a listing tells of an object. -/
inductive Shown where
  | dir (mode : Mode)
  | file (mode : Mode) (content : Bytes)
  | link (target : Path)
  deriving DecidableEq

def shown (t : Tree) : Node → Shown
  | .dir mode => .dir mode
  | .file id => .file (t.mode id) (t.content id)
  | .link target => .link target

/-- All below `top` with their paths from there, sorted by the octets of the paths. -/
def listing (t : Tree) (top : Location) : List (Path × Shown) :=
  let below := t.nodes.entries.filter fun e => isWithin top e.1 && e.1 ≠ top
  let shown := below.map fun e => (Path.ofNames (e.1.drop top.length), t.shown e.2)
  shown.mergeSort fun a b => (compare a.1.bytes b.1.bytes).isLE

end LlvmBootstrap.Tree
