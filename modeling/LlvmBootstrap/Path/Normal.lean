import LlvmBootstrap.Path

/-!
Resolving `.` and `..` in the text of a path alone. The result is the list of names that is
left; an absolute path has none, nor has one that climbs above where it starts.
-/

namespace LlvmBootstrap.Path

/-- `stack` holds the names so far, last one first. -/
def normalizeFrom (stack : List Name) : List Component → Option (List Name)
  | [] => some stack.reverse
  | .name n :: cs => normalizeFrom (n :: stack) cs
  | .here :: cs => normalizeFrom stack cs
  | .up :: cs =>
    match stack with
    | [] => none
    | _ :: below => normalizeFrom below cs
  | .root :: _ => none

def normalize? (p : Path) : Option (List Name) := normalizeFrom [] p.components

/-- What is left of `names` behind the components of `base`. -/
def stripBase? (base : List Component) (names : List Name) : Option (List Name) :=
  match base, names with
  | [], ns => some ns
  | .name b :: bs, n :: ns => if b = n then stripBase? bs ns else none
  | _ :: _, _ => none

@[simp] theorem normalizeFrom_names (stack ns : List Name) :
    normalizeFrom stack (ns.map .name) = some (stack.reverse ++ ns) := by
  induction ns generalizing stack with
  | nil => simp [normalizeFrom]
  | cons n ns ih => simp [normalizeFrom, ih]

end LlvmBootstrap.Path
