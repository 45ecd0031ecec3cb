import LlvmBootstrap.Stage
import LlvmBootstrap.Toolchain

/-!
Building LLVM for one architecture: configuring its build tree, then compiling and installing
it. A stage that is complete is skipped without running anything. What a failed stage leaves
behind is removed, so that it is never taken for a finished one.
-/

namespace LlvmBootstrap

inductive BuildError where
  | platform (e : PlatformError)
  | stageFailed (s : Stage) (cmd : String) (status : Status)
  | spawn (cmd : String) (cause : Failure)
  | failed (cause : Errno)
  deriving DecidableEq

def BuildError.message : BuildError → String
  | .platform e => e.message
  | .stageFailed s cmd status =>
    s.text ++ " failed with exit code " ++ status.shown ++ ": " ++ cmd
  | .spawn cmd cause => "failed to run " ++ cmd ++ ": " ++ cause.message
  | .failed cause => "io error: " ++ cause.message

inductive StageOutcome where
  | skipped
  | ran
  deriving DecidableEq

structure Build where
  root : Root
  record : StageRecord
  host : Host
  /-- The program that configures and builds LLVM. -/
  cmake : String

namespace Build

open Program

/-- LLVM is always built optimised. -/
def buildType : String := "Release"

def configureCommand (b : Build) (a : Arch) (generator : String) (vars : Variables) :
    Command :=
  let c := (Command.of b.cmake).arg b.root.sources.bytes
  let c := c.texts ["-DCMAKE_INSTALL_PREFIX=" ++ (b.root.install a).display,
    "-DCMAKE_BUILD_TYPE=" ++ buildType, "-G", generator,
    "-DLLVM_ENABLE_ASSERTIONS=1"]
  ((c.texts (b.host.flags a)).inDir (b.root.build a)).withVars vars

def installCommand (b : Build) (a : Arch) (vars : Variables) : Command :=
  let c := (Command.of b.cmake).texts
    ["--build", ".", "--target", "install", "--config", buildType]
  (c.inDir (b.root.build a)).withVars vars

/-- How the command of a stage went wrong, if it did. -/
def failure? (s : Stage) (c : Command) : Except Failure Finished → Option BuildError
  | .ok f => if f.status.isSuccess then none else some (.stageFailed s c.line f.status)
  | .error e => some (.spawn c.line e)

/-- Runs the command of a stage. If it fails the stage is reset; should that fail too, the
error is still that of the command. -/
def runStage (b : Build) (s : Stage) (c : Command) : Attempt BuildError Unit := do
  match failure? s c (← make (.spawn .shared c)) with
  | none => return ()
  | some e =>
    make (.log .warn "stage failed, removing its output")
    match ← ExceptT.lift (b.record.reset s).run with
    | .ok () => throw e
    | .error _ =>
      make (.log .warn
        "could not remove the failed stage's output, delete it before retrying")
      throw e

def configure (b : Build) (a : Arch) : Work BuildError StageOutcome := do
  if ← b.record.isComplete (.configure a) then
    make (.log .info "already configured")
    return .skipped
  match b.host.generator a with
  | .error e => throw (.platform e)
  | .ok generator =>
    let vars ← (Work.environment b.host).adapt .platform
    make (.log .info "configuring LLVM")
    Work.ofAttempt ((makeDirs (b.root.build a)).adapt .failed)
    Work.ofAttempt (b.runStage (.configure a) (b.configureCommand a generator vars))
    return .ran

def install (b : Build) (a : Arch) : Work BuildError StageOutcome := do
  if ← b.record.isComplete (.install a) then
    make (.log .info "already installed")
    return .skipped
  let vars ← (Work.environment b.host).adapt .platform
  make (.log .info "building and installing LLVM")
  Work.ofAttempt (b.runStage (.install a) (b.installCommand a vars))
  if !(← b.record.isComplete (.install a)) then
    make (.log .warn "install step succeeded but left no install directory")
  return .ran

/-- Both stages; gives the install directory. -/
def run (b : Build) (a : Arch) : Work BuildError Path := do
  let _ ← b.configure a
  let _ ← b.install a
  return b.root.install a

end Build

end LlvmBootstrap
