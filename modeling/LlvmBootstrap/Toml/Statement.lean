import LlvmBootstrap.Toml.Entries
import LlvmBootstrap.Toml.Quoted
import LlvmBootstrap.Toml.Scalar

/-!
The statements of a document: headers, each of which begins a table, and values under keys.
-/

namespace LlvmBootstrap.Toml

inductive Statement where
  | header (place : Nat) (path : Keys) (key : Placed String)
  /-- The header of one more table of an array. -/
  | arrayHeader (place : Nat) (path : Keys) (key : Placed String)
  | value (path : Keys) (key : Placed String) (v : Placed Value)

namespace Reader

def isBare (c : Char) : Bool := c.isAlphanum || c = '_' || c = '-'

/-- A key without dots. -/
def key : Reader (Placed String) := do
  let place := (← get).place
  match ← next? with
  | some '"' => return ⟨place, ← quotedLine '"'⟩
  | some '\'' => return ⟨place, ← quotedLine '\''⟩
  | _ =>
    let cs ← stretch isBare
    need !cs.isEmpty
    return ⟨place, String.ofList cs⟩

/-- A key with dots, as what leads to the last part and that part. -/
def keysFrom (path : Keys) : Nat → Reader (Keys × Placed String)
  | 0 => fail
  | fuel + 1 => do
    spaces
    let k ← key
    spaces
    if ← takes "." then keysFrom (path ++ [k]) fuel else return (path, k)

def keys : Reader (Keys × Placed String) := do keysFrom [] ((← get).rest.length + 1)

/-- The values up to the end of an array. -/
def elements (value : Reader (Placed Value)) : Nat → Reader (List (Placed Value))
  | 0 => fail
  | fuel + 1 => do
    gap
    if ← takes "]" then return []
    let v ← value
    gap
    if ← takes "," then return v :: (← elements value fuel)
    expect "]"
    return [v]

/-- The entries up to the end of a table in braces. -/
def members (value : Reader (Placed Value)) (es : Entries) : Nat → Reader Entries
  | 0 => fail
  | fuel + 1 => do
    gap
    if ← takes "\x7d" then return es
    let (path, k) ← keys
    expect "="
    spaces
    let v ← value
    let es ← monadLift (Entries.addAt path k v es)
    gap
    if ← takes "," then members value es fuel
    else
      expect "\x7d"
      return es

/-- A value without brackets. -/
def leaf : Reader Value := do
  match ← next? with
  | some '"' => return .text (← quotedText '"')
  | some '\'' => return .text (← quotedText '\'')
  | _ =>
    let cs := Scalar.stretch (← get).rest
    match Scalar.ofChars? cs with
    | some v => drop cs.length; return v
    | none => fail

/-- A value with at most `depth` pairs of brackets around each other. -/
def value : Nat → Reader (Placed Value)
  | 0 => do return ⟨(← get).place, ← leaf⟩
  | depth + 1 => do
    let ⟨place, rest⟩ ← get
    if ← takes "[" then return ⟨place,
      .array false (← elements (value depth) (rest.length + 1))⟩
    else if ← takes "\x7b" then
      return ⟨place, .table .inline (← members (value depth) [] (rest.length + 1))⟩
    else return ⟨place, ← leaf⟩

/-- How deep brackets may be nested. -/
def maxDepth : Nat := 80

def statement : Reader Statement := do
  let place := (← get).place
  if ← takes "[[" then
    let (path, k) ← keys
    expect "]]"
    lineEnd
    return .arrayHeader place path k
  else if ← takes "[" then
    let (path, k) ← keys
    expect "]"
    lineEnd
    return .header place path k
  else
    let (path, k) ← keys
    expect "="
    spaces
    let v ← value maxDepth
    lineEnd
    return .value path k v

end Reader

/-- The statements from a cursor on, and where the first one stands that cannot be read. -/
def statements : Nat → Cursor → List Statement × Option Nat
  | 0, c => ([], some c.place)
  | fuel + 1, c =>
    match (Reader.gap : Reader Unit).run c with
    | .error place => ([], some place)
    | .ok (_, c) =>
      if c.rest = [] then ([], none)
      else
        match Reader.statement.run c with
        | .error place => ([], some place)
        | .ok (s, c) =>
          let (ss, flaw) := statements fuel c
          (s :: ss, flaw)

end LlvmBootstrap.Toml
