import LlvmBootstrap.Bootstrap
import LlvmBootstrap.Settings.Load

/-!
What the command line tells of its work.
-/

namespace LlvmBootstrap

/-! ### What lies under an error

An error is told with what caused it behind it. The causes are those of the system and of what
was called; an error that only wraps another one adds nothing. -/

def PlatformError.causes : PlatformError → List String
  | .failed cause => [cause.message]
  | _ => []

def LockError.causes : LockError → List String
  | .failed _ _ cause => [cause.message]
  | .busy _ _ _ => []

def SourceError.causes : SourceError → List String
  | .failed cause => [cause.message]
  | _ => []

def BuildError.causes : BuildError → List String
  | .platform e => e.causes
  | .spawn _ cause => [cause.message]
  | .failed cause => [cause.message]
  | .stageFailed _ _ _ => []

def InvokeError.causes : InvokeError → List String
  | .platform e => e.causes
  | .spawn _ cause => [cause.message]
  | .failed _ _ => []

def BootstrapError.causes : BootstrapError → List String
  | .lock e => e.causes
  | .fetch e => e.causes
  | .build e => e.causes
  | .invoke e => e.causes

def Settings.LoadError.causes : Settings.LoadError → List String
  | .notFound _ => []
  | .unreadable _ cause => [cause]
  | .invalid _ flaw => [flaw.message]

namespace CommandLine

/-- Why a task was not done. -/
inductive TaskError where
  | settings (e : Settings.LoadError)
  | bootstrap (e : BootstrapError)
  deriving DecidableEq

/-- The error and its causes, the outermost first. -/
def TaskError.chain : TaskError → List String
  | .settings e => "Failed to load settings" :: e.message :: e.causes
  | .bootstrap e => e.message :: e.causes

def TaskError.line (e : TaskError) : String := "✗ " ++ ": ".intercalate e.chain ++ "\n"

/-- The code to exit with: that of the build tool if it is what failed, else one. -/
def TaskError.exitCode : TaskError → Int
  | .bootstrap e =>
    match e.downstreamCode? with
    | some c => if c = 0 then 1 else c
    | none => 1
  | .settings _ => 1

/-- How each shell sets a variable. -/
def exportLines (name value : String) : List (String × String) :=
  [("bash", "export " ++ name ++ "=\"" ++ value ++ "\""),
    ("batch", "set \"" ++ name ++ "=" ++ value ++ "\""),
    ("powershell", "$env:" ++ name ++ " = \"" ++ value ++ "\"")]

/-- A text with blanks behind it up to a width. -/
def padded (s : String) (width : Nat) : String :=
  s ++ String.ofList (List.replicate (width - s.length) ' ')

/-- What is told of a finished setup. -/
def setupReport (s : Settings) (a : Arch) (install : Path) : String :=
  let lines := exportLines s.cargo.prefixVariable install.display
  "✓ LLVM " ++ s.llvm.version ++ " for " ++ a.text ++ " installed at " ++
  install.display ++ "\n" ++
    "• To build llvm-sys crates against it, set:\n\n" ++
    String.join (lines.map fun l => "  " ++ padded (l.1 ++ ":") 11 ++ l.2 ++ "\n")

end CommandLine

end LlvmBootstrap
