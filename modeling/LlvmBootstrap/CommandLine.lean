import LlvmBootstrap.CommandLine.Options
import LlvmBootstrap.CommandLine.Report

/-!
The tool as a program: from the arguments of the command line to the code it exits with.
-/

namespace LlvmBootstrap.CommandLine

/-- What a task works with: the settings, with the option for the root
over all that they say. -/
def openSession (o : Options) : Attempt TaskError Bootstrap := do
  let settings ← (Settings.load o.config).adapt .settings
  let settings := { settings with root := o.root.or settings.root }
  return ⟨settings, settings.rootFrom (← make .cwd), Platform.host settings⟩

def setup (o : Options) : Attempt TaskError Unit := do
  let b ← openSession o
  let (r, _) ← (b.prepare o.host "setup").start (.of o.host)
  match r with
  | .ok install => make (.print (setupReport b.settings o.host install))
  | .error e => throw (.bootstrap e)

def act (o : Options) (a : Action) (args : List String) : Attempt TaskError Unit := do
  let b ← openSession o
  match ← b.run ⟨o.host, o.release, a, args⟩ with
  | .ok () => return ()
  | .error e => throw (.bootstrap e)

def perform (o : Options) : Task → Attempt TaskError Unit
  | .setup => setup o
  | .act a args => act o a args

/-- The code for a command line that cannot be read. -/
def usageCode : Int := 2

def usage : String :=
  about ++ "\n\nUsage: " ++ Defaults.tool ++ " [OPTIONS] <COMMAND>\n\nCommands: " ++
    ", ".intercalate (Action.all.map (·.subcommand) ++ ["setup"]) ++ "\nOptions: " ++
    ", ".intercalate (Flag.all.map (·.shown)) ++ "\n"

/-- Does what a command line asks for and gives the code to exit with. -/
def run (args : List String) : Program Int := do
  match read args with
  | .error .help =>
    make (.print usage)
    return 0
  | .error .version =>
    make (.print (Defaults.tool ++ " " ++ Defaults.toolVersion ++ "\n"))
    return 0
  | .error (.error e) =>
    make (.complain (e.message ++ "\n\nFor more information, try '--help'.\n"))
    return usageCode
  | .ok (o, t) =>
    match ← (perform o t).run with
    | .ok () => return 0
    | .error e =>
      make (.complain e.line)
      return e.exitCode

end LlvmBootstrap.CommandLine
