import LlvmBootstrap.Settings
import LlvmBootstrap.Text.Quoted
import LlvmBootstrap.Toml.Document

/-!
Settings out of a document. Every key has to be one of a setting, and every value of the
setting's own form; what is not said is left at its default. The tables for single tools may
also be arrays of their values in order. The keys of a table are looked at in their
alphabetical order, and the first thing wrong is what is told.
-/

namespace LlvmBootstrap.Settings

open Toml

/-- What is wrong with a document as settings. -/
inductive Mismatch where
  | unknownField (name : String) (fields : List String)
  | wrongForm (found expected : String)
  /-- A number that no number of the tool can stand for. -/
  | overflow (message : String)
  deriving DecidableEq

def ticked (s : String) : String := "`" ++ s ++ "`"

def Mismatch.message : Mismatch → String
  | .unknownField name fields =>
    "unknown field " ++ ticked name ++ ", expected " ++
      match fields with
      | [a, b] => ticked a ++ " or " ++ ticked b
      | fields => "one of " ++ ", ".intercalate (fields.map ticked)
  | .wrongForm found expected => "invalid type: " ++ found ++ ", expected " ++ expected
  | .overflow message => message

/-- Reading a part of a document; an error stands at a place. -/
abbrev Decoded (α : Type) := Except (Placed Mismatch) α

/-- A whole number in the narrowest form that holds it. -/
def integerText (n : Int) : Except Mismatch String :=
  let text := ticked (toString n)
  let limit := fun bits => Int.ofNat (Numeral.limit bits)
  if -limit 63 ≤ n ∧ n < limit 64 then .ok ("integer " ++ text)
  else if -limit 127 ≤ n ∧ n < limit 127 then .ok ("integer " ++ text ++ " as i128")
  else if 0 ≤ n ∧ n < limit 128 then .ok ("integer " ++ text ++ " as u128")
  else .error (.overflow "integer number overflowed")

def floatText : Toml.Float → Except Mismatch String
  | .finite negative d =>
    match Binary64.ofDecimal? d with
    | some x => .ok ((if negative then "-" else "") ++ x.shortest.text)
    | none => .error (.overflow "floating-point number overflowed")
  | .infinite negative => .ok (if negative then "-inf" else "inf")
  | .notANumber => .ok "NaN"

/-- What a value is called in a message. -/
def described : Value → Except Mismatch String
  | .text s => .ok ("string " ++ Quoted.quote s)
  | .integer n => integerText n
  | .float f => do return "floating point " ++ ticked (← floatText f)
  | .boolean b => .ok ("boolean " ++ ticked (toString b))
  | .array _ _ => .ok "sequence"
  | .moment _ | .table _ _ => .ok "map"

/-- The error for a value that is not of the form that is expected. -/
def wrong {α : Type} (expected : String) (v : Placed Value) : Decoded α :=
  match described v.it with
  | .ok found => .error ⟨v.place, .wrongForm found expected⟩
  | .error e => .error ⟨v.place, e⟩

def text (v : Placed Value) : Decoded String :=
  match v.it with
  | .text s => .ok s
  | _ => wrong "a string" v

def path (v : Placed Value) : Decoded Path :=
  match v.it with
  | .text s => .ok s
  | _ => wrong "path string" v

/-- The key that stands for a date or a time where a table is expected. -/
def momentKey : String := "$__toml_private_datetime"

/-- The entries of a value that can be taken for a table, in the order of their keys. -/
def entries? (v : Placed Value) : Option Entries :=
  match v.it with
  | .table _ es => some (es.mergeSort fun a b => (compare a.1.it b.1.it).isLE)
  | .moment s => some [(⟨v.place, momentKey⟩, ⟨v.place, .text s⟩)]
  | _ => none

/-- Fields by name: how a value is put in its place in `α`. -/
abbrev Fields (α : Type) := List (String × (Placed Value → α → Decoded α))

def field {α β : Type} (name : String) (read : Placed Value → Decoded β) (put : β → α → α) :
    String × (Placed Value → α → Decoded α) :=
  (name, fun v a => do return put (← read v) a)

/-- Puts the values of a table in their places. -/
def fill {α : Type} (fields : Fields α) (a : α) (es : Entries) : Decoded α :=
  es.foldlM (fun a e =>
    match fields.lookup e.1.it with
    | some put => put e.2 a
    | none => .error ⟨e.1.place, .unknownField e.1.it (fields.map (·.1))⟩) a

/-- A table of named fields over `a`. An array gives them in order; more than
there are fields are not looked at. -/
def record {α : Type} (name : String) (fields : Fields α) (a : α) (v : Placed Value) :
    Decoded α :=
  match v.it, entries? v with
  | _, some es => fill fields a es
  | .array _ vs, none => (fields.zip vs).foldlM (fun a p => p.1.2 p.2 a) a
  | _, none => wrong ("struct " ++ name) v

def Llvm.fields : Fields Llvm :=
  [field "version" text fun s l => { l with version := s },
    field "url" text fun s l => { l with url := some s },
    field "archive_root" text fun s l => { l with archiveTop := some s },
    field "sha256" text fun s l => { l with sha256 := some s }]

def Cmake.fields : Fields Cmake :=
  [field "program" text fun s c => { c with program := s },
    field "generator" text fun s c => { c with generator := some s }]

def Cargo.fields : Fields Cargo :=
  [field "program" text fun s c => { c with program := s },
    field "prefix_env_var" text fun s c => { c with prefixVariable := s }]

def Msvc.fields : Fields Msvc :=
  [field "base_dir" path fun p m => { m with baseDir := some p },
    field "install" path fun p m => { m with install := some p }]

/-- A table of texts. -/
def texts (v : Placed Value) : Decoded Variables :=
  match entries? v with
  | some es => es.foldlM (fun vars e => do return vars.insert e.1.it (← text e.2)) .empty
  | none => wrong "a map" v

def fields : Fields Settings :=
  [field "root" path fun p s => { s with root := some p },
    field "llvm" (record "LlvmSettings" Llvm.fields .default) fun l s => { s with llvm := l },
    field "cmake" (record "CmakeSettings" Cmake.fields .default) fun c s =>
      { s with cmake := c },
    field "cargo" (record "CargoSettings" Cargo.fields .default) fun c s =>
      { s with cargo := c },
    field "msvc" (record "MsvcSettings" Msvc.fields .default) fun m s => { s with msvc := m },
    field "compilers" texts fun vars s => { s with compilers := some vars }]

/-- The settings in a document's root table. -/
def ofEntries (es : Entries) : Decoded Settings :=
  record "Settings" fields default ⟨0, .table .defined es⟩

end LlvmBootstrap.Settings
