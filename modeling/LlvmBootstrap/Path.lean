import LlvmBootstrap.Text.Utf8

/-!
Paths as octet strings. The text of a path is kept as written; its components are what tells
where it leads: `/` separates, repeated separators and inner or final `.` say nothing, a
leading `.` is kept, and a leading `/` is a component of its own.
-/

namespace LlvmBootstrap

abbrev Name := Bytes

inductive Component where
  | root
  | here
  | up
  | name (n : Name)
  deriving DecidableEq

structure Path where
  bytes : Bytes
  deriving DecidableEq

namespace Path

def slash : UInt8 := 0x2F

def ofString (s : String) : Path := ⟨Utf8.encode s⟩

instance : Coe String Path := ⟨ofString⟩

/-- How a path is shown to a person. -/
def display (p : Path) : String := Utf8.lossy p.bytes

def isAbsolute (p : Path) : Bool := p.bytes.head? = some slash

/-- The pieces between separators, empty ones included. -/
def pieces : Bytes → List Name
  | [] => [[]]
  | b :: bs =>
    match pieces bs with
    | [] => [[b]]
    | p :: ps => if b = slash then [] :: p :: ps else (b :: p) :: ps

def dot : Name := [0x2E]

def dotDot : Name := [0x2E, 0x2E]

/-- A piece behind the first one: an empty piece and `.` say nothing. -/
def component? (n : Name) : Option Component :=
  if n = [] ∨ n = dot then none else if n = dotDot then some .up else some (.name n)

def components (p : Path) : List Component :=
  match pieces p.bytes with
  | [] => []
  | first :: rest =>
    let lead := if p.isAbsolute then [Component.root]
      else if first = dot then [Component.here]
      else (component? first).toList
    lead ++ rest.filterMap component?

/-- `b` as seen from `a`: itself when absolute, else below `a`. -/
def join (a b : Path) : Path :=
  if b.isAbsolute then b
  else if a.bytes = [] ∨ a.bytes.getLast? = some slash then ⟨a.bytes ++ b.bytes⟩
  else ⟨a.bytes ++ slash :: b.bytes⟩

instance : HDiv Path Path Path := ⟨join⟩

/-- Names joined by separators, a relative path. -/
def ofNames (ns : List Name) : Path := ⟨List.intercalate [slash] ns⟩

/-- The path of some components; the root component is written as the leading separator. -/
def ofComponents : List Component → Path
  | .root :: cs => ⟨slash :: (ofNames (cs.map text)).bytes⟩
  | cs => ofNames (cs.map text)
where
  text : Component → Name
    | .root => []
    | .here => dot
    | .up => dotDot
    | .name n => n

/-- The path without its last component, if it has one besides the root. -/
def parent? (p : Path) : Option Path :=
  match p.components.getLast? with
  | none | some .root => none
  | some _ => some (ofComponents p.components.dropLast)

@[simp] theorem join_of_isAbsolute {a b : Path} (h : b.isAbsolute = true) : a / b = b := by
  show a.join b = b
  simp [join, h]

end Path

end LlvmBootstrap
