import LlvmBootstrap.Environment.Dump
import LlvmBootstrap.Platform

/-!
The environment in which the compilers of a platform can be run.
-/

namespace LlvmBootstrap

open Program

/-- The first of some paths that leads to a directory. -/
def Program.firstDir? : List Path → Program (Option Path)
  | [] => return none
  | p :: ps => do
    if ← isDir p then return some p else firstDir? ps

namespace Msvc

/-- The installation to use. A configured one has to be there; the
editions are not looked at then. -/
def findInstall (m : Msvc) : Attempt PlatformError Path := do
  match m.install with
  | some p => if ← isDir p then return p else throw (.installMissing p)
  | none =>
    match ← firstDir? (editions.map fun e => m.baseDir / Path.ofString e) with
    | some p => return p
    | none => throw (.noToolchain m.baseDir)

/-- The script that sets up the environment for an architecture. -/
def script (install : Path) (a : Arch) : Path :=
  let file := match a with
    | .x64 => "vcvars64.bat"
    | .x86 => "vcvars32.bat"
  install / ("VC" : Path) / ("Auxiliary" : Path) / ("Build" : Path) / (file : Path)

/-- Runs the script and prints the variables it leaves behind. -/
def initCommand (install : Path) (a : Arch) : Command :=
  (((Command.of "cmd.exe").texts ["/C", "call"]).arg (script install a).bytes).texts
    ["&&", "set"]

/-- The environment that the script leaves behind, the configured compilers over it. -/
def environment (m : Msvc) (a : Arch) : Attempt PlatformError Variables := do
  let install ← m.findInstall
  make (.log .info "initializing MSVC environment")
  let c := initCommand install a
  match ← make (.spawn .collected c) with
  | .error e => throw (.failed e)
  | .ok f =>
    if !f.status.isSuccess then throw (.initFailed c.line f.status)
    let vars := Variables.ofDump (Utf8.lossy f.out)
    if vars.entries.isEmpty then throw (.emptyEnvironment c.line)
    return vars.withOverrides m.compilers

end Msvc

def Platform.environment (p : Platform) (a : Arch) : Attempt PlatformError Variables :=
  match p with
  | .unix u => do return (Variables.ofEnviron (← make .environ)).withOverrides u.compilers
  | .msvc m => m.environment a

end LlvmBootstrap
