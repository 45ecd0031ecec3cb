import LlvmBootstrap.Action
import LlvmBootstrap.Toolchain

/-!
Running the build tool of a project against the installed LLVM.
-/

namespace LlvmBootstrap

/-- What a run is asked to do for a project. -/
structure Request where
  arch : Arch
  release : Bool
  action : Action
  /-- Arguments for the build tool, passed on behind `--`. -/
  args : List String
  deriving DecidableEq

inductive InvokeError where
  | platform (e : PlatformError)
  /-- The tool ran and reported failure. -/
  | failed (cmd : String) (status : Status)
  | spawn (cmd : String) (cause : Failure)
  deriving DecidableEq

def InvokeError.message : InvokeError → String
  | .platform e => e.message
  | .failed cmd status => cmd ++ " exited with code " ++ status.shown
  | .spawn cmd cause => "failed to run " ++ cmd ++ ": " ++ cause.message

/-- The build tool of a project. -/
structure Downstream where
  program : String
  /-- The variable that tells the tool where LLVM is. -/
  prefixVariable : String
  host : Host

namespace Downstream

def arguments (d : Downstream) (q : Request) : Except PlatformError (List String) := do
  let target ← if q.action.needsTarget then
      (d.host.triple q.arch).map fun t => ["--target", t]
    else .ok []
  let profile := if q.release && q.action.takesProfile then ["--release"] else []
  let rest := if q.args.isEmpty then [] else "--" :: q.args
  return q.action.subcommand :: target ++ profile ++ rest

/-- The command for a request, not yet with the environment of the toolchain. -/
def command (d : Downstream) (q : Request) (install : Path) :
    Except PlatformError Command := do
  return ((Command.of d.program).texts (← d.arguments q)).setting
    d.prefixVariable install.bytes

section

variable {d : Downstream} {q : Request} {install : Path} {c : Command} {e : PlatformError}

theorem arguments_eq_error_iff :
    d.arguments q = .error e ↔
      q.action.needsTarget = true ∧ d.host.triple q.arch = .error e := by
  rw [arguments]
  cases q.action.needsTarget with
  | false => exact iff_of_false nofun fun h => Bool.false_ne_true h.1
  | true =>
      cases d.host.triple q.arch <;>
        simp [Except.map, bind, Except.bind, pure, Except.pure]

theorem command_eq_ok_iff :
    d.command q install = .ok c ↔ ∃ args, d.arguments q = .ok args ∧
      ((Command.of d.program).texts args).setting d.prefixVariable install.bytes = c := by
  rw [command]
  cases d.arguments q <;> simp [bind, Except.bind, pure, Except.pure]

/-- There is no command exactly where the action needs a target and
the platform has no name for it. -/
theorem command_eq_error_iff :
    d.command q install = .error e ↔
      q.action.needsTarget = true ∧ d.host.triple q.arch = .error e := by
  rw [← arguments_eq_error_iff, command]
  cases d.arguments q <;> simp [bind, Except.bind, pure, Except.pure]

end

/-- A command with the environment of the toolchain, if the action needs it. -/
def withToolchain (d : Downstream) (a : Action) (c : Command) :
    Work PlatformError Command := do
  if a.compiles then return c.withVars (← Work.environment d.host) else return c

/-- Runs the tool. Whatever it reports but success is an error with the tool's own code. -/
def invoke (d : Downstream) (q : Request) (install : Path) : Work InvokeError Unit := do
  match d.command q install with
  | .error e => throw (.platform e)
  | .ok c =>
    let c ← (d.withToolchain q.action c).adapt .platform
    make (.log .info ("running " ++ d.program))
    match ← make (.spawn .shared c) with
    | .error e => throw (.spawn c.line e)
    | .ok f => if f.status.isSuccess then return () else throw (.failed c.line f.status)

end Downstream

end LlvmBootstrap
