import LlvmBootstrap.Machine.Files
import LlvmBootstrap.Settings.Decode

/-!
Loading settings from a file. Only a file that was asked for has to be there.
-/

namespace LlvmBootstrap.Settings

/-- Why a file holds no settings: it is no document, or one of something else. -/
inductive Flaw where
  | malformed
  | mismatch (m : Mismatch)
  deriving DecidableEq

/-- A flaw with its line and column in the text, both counted from one. -/
structure Located where
  line : Nat
  column : Nat
  flaw : Flaw
  deriving DecidableEq

def Flaw.at_ (flaw : Flaw) (s : String) (place : Nat) : Located :=
  let before := s.toList.take place
  ⟨before.count '\n' + 1, (before.reverse.takeWhile (· ≠ '\n')).length + 1, flaw⟩

def ofText (s : String) : Except Located Settings :=
  match Toml.document s with
  | .error place => .error (Flaw.malformed.at_ s place)
  | .ok es => (ofEntries es).mapError fun m => (Flaw.mismatch m.it).at_ s m.place

inductive LoadError where
  | notFound (p : Path)
  | unreadable (p : Path) (cause : String)
  | invalid (p : Path) (flaw : Located)
  deriving DecidableEq

def Located.message (f : Located) : String :=
  "TOML parse error at line " ++ toString f.line ++ ", column " ++ toString f.column ++ "\n" ++
    match f.flaw with
    | .malformed => "invalid document"
    | .mismatch m => m.message

def LoadError.message : LoadError → String
  | .notFound p => "config file not found: " ++ p.display
  | .unreadable p cause => "failed to read " ++ p.display ++ ": " ++ cause
  | .invalid p flaw => "invalid config " ++ p.display ++ ": " ++ flaw.message

def notText : String := "stream did not contain valid UTF-8"

/-- The settings in a file. -/
def ofFile (p : Path) : Attempt LoadError Settings := do
  match ← make (.read p) with
  | .error e => throw (.unreadable p e.message)
  | .ok content =>
    match Utf8.decode? content with
    | none => throw (.unreadable p notText)
    | some s =>
      match ofText s with
      | .ok settings => return settings
      | .error flaw => throw (.invalid p flaw)

/-- The settings in a file that was asked for, else in the file in the current directory if it
is there, else the default ones. -/
def fromFile (asked : Option Path) : Attempt LoadError Settings := do
  match asked with
  | some p => if ← Program.exists_ p then ofFile p else throw (.notFound p)
  | none =>
    if ← Program.exists_ Defaults.settingsFile then ofFile Defaults.settingsFile
    else return default

/-- The settings with what the environment says over them. -/
def load (asked : Option Path) : Attempt LoadError Settings := do
  let s ← fromFile asked
  return s.withEnvironment (← make .environ)

end LlvmBootstrap.Settings
