import LlvmBootstrap.Toml.Statement

/-!
Whole documents. The statements are taken in order, each value into the table of the last
header; the first statement that cannot be read or added is what a document fails for.
-/

namespace LlvmBootstrap.Toml

/-- The root table so far, and the keys of the last header. -/
structure Draft where
  current : Keys
  root : Entries

def Draft.add (d : Draft) : Statement → Except Nat Draft
  | .header place path k => do
    return ⟨path ++ [k], ← Entries.within false (Entries.define place k) path d.root⟩
  | .arrayHeader place path k => do
    return ⟨path ++ [k], ← Entries.within false (Entries.push place k) path d.root⟩
  | .value path k v => do
    return ⟨d.current, ← Entries.within false (Entries.addAt path k v) d.current d.root⟩

/-- A mark of the encoding in front of a text is not part of it. -/
def start (cs : List Char) : Cursor :=
  match cs with
  | '\uFEFF' :: rest => ⟨1, rest⟩
  | cs => ⟨0, cs⟩

/-- The root table of a document, or the place of what is wrong with it. -/
def document (s : String) : Except Nat Entries := do
  let (ss, flaw) := statements (s.length + 1) (start s.toList)
  let d ← ss.foldlM Draft.add ⟨[], []⟩
  match flaw with
  | some place => throw place
  | none => return d.root

end LlvmBootstrap.Toml
