import LlvmBootstrap.Machine.Files
import LlvmBootstrap.Settings

/-!
What differs between the systems a toolchain is built on: where the compilers are, which
generator writes the build files, and how targets are named.
-/

namespace LlvmBootstrap

inductive UnixKind where
  | linux
  | darwin
  deriving DecidableEq

/-- A system on which the compilers are found as they are. -/
structure Unix where
  kind : UnixKind
  compilers : Variables
  generator : Option String
  deriving DecidableEq

/-- A system whose compilers are found only in the environment that a
script of theirs sets up. -/
structure Msvc where
  /-- The directory that holds a directory for each edition. -/
  baseDir : Path
  /-- The installation to use instead of the editions. -/
  install : Option Path
  compilers : Variables
  generator : Option String
  deriving DecidableEq

inductive Platform where
  | unix (u : Unix)
  | msvc (m : Msvc)
  deriving DecidableEq

def Unix.ofSettings (kind : UnixKind) (s : Settings) : Unix :=
  ⟨kind, s.compilers.getD .empty, s.cmake.generator⟩

def Msvc.defaultBaseDir : String := "C:\\Program Files (x86)\\Microsoft Visual Studio\\2017"

def Msvc.defaultCompilers : Variables := .ofList [("CC", "cl"), ("CXX", "cl")]

def Msvc.ofSettings (s : Settings) : Msvc :=
  ⟨s.msvc.baseDir.getD Msvc.defaultBaseDir, s.msvc.install,
    s.compilers.getD Msvc.defaultCompilers, s.cmake.generator⟩

inductive PlatformError where
  | noToolchain (base : Path)
  | installMissing (p : Path)
  | initFailed (cmd : String) (status : Status)
  | emptyEnvironment (cmd : String)
  | unsupportedArch (platform : String) (a : Arch)
  | failed (cause : Failure)
  deriving DecidableEq

/-- The editions of an installation, the most preferred one first. -/
def Msvc.editions : List String := ["Enterprise", "Professional", "Community"]

def PlatformError.message : PlatformError → String
  | .noToolchain base =>
    "no Visual Studio installation found under " ++ base.display ++ " (looked for: " ++
      ", ".intercalate Msvc.editions ++ ")"
  | .installMissing p =>
    "configured Visual Studio installation does not exist: " ++ p.display
  | .initFailed cmd status =>
    "toolchain environment script failed with exit code " ++ status.shown ++ ": " ++ cmd
  | .emptyEnvironment cmd => "toolchain environment script produced no variables: " ++ cmd
  | .unsupportedArch platform a => a.text ++ " is not supported on " ++ platform
  | .failed cause => "io error: " ++ cause.message

namespace Platform

/-- The platform the tool itself runs on. -/
def host (s : Settings) : Platform := .unix (.ofSettings .linux s)

def name : Platform → String
  | .unix u => match u.kind with
    | .linux => "linux"
    | .darwin => "darwin"
  | .msvc _ => "windows-msvc"

/-- The generator that writes the build files. -/
def generator : Platform → Arch → String
  | .unix u, _ => u.generator.getD "Unix Makefiles"
  | .msvc m, .x64 => m.generator.getD "Visual Studio 15 2017 Win64"
  | .msvc m, .x86 => m.generator.getD "Visual Studio 15 2017"

/-- The name of a target in the build tool of projects. -/
def triple (p : Platform) (a : Arch) : Except PlatformError String :=
  match p, a with
  | .unix u, a =>
    match u.kind, a with
    | .darwin, .x64 => .ok "x86_64-apple-darwin"
    | .linux, .x64 => .ok "x86_64-unknown-linux-gnu"
    | .linux, .x86 => .ok "i686-unknown-linux-gnu"
    | .darwin, .x86 => .error (.unsupportedArch (name (.unix u)) .x86)
  | .msvc _, .x64 => .ok "x86_64-pc-windows-msvc"
  | .msvc _, .x86 => .ok "i686-pc-windows-msvc"

/-- What is added to the configuration of LLVM for an architecture. -/
def flags : Platform → Arch → List String
  | .unix _, .x86 => ["-DLLVM_BUILD_32_BITS=ON"]
  | _, _ => []

end Platform

end LlvmBootstrap
