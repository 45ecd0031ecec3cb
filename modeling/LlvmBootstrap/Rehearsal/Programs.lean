import LlvmBootstrap.Rehearsal.Shell

/-!
Which program runs a file, and which file is meant by the name of a program.
-/

namespace LlvmBootstrap.Rehearsal

/-- What a file is to the system that is asked to run it. -/
inductive Image where
  /-- A program of the system, by its name. -/
  | utility (name : Chars)
  /-- A script that names the program to read it. -/
  | script (interpreter : Chars) (arg : Option Chars)
  | unknown

namespace Image

/-- How the content of a program of the system starts; its name follows. -/
def mark : Chars := '\x7f' :: "ELF".toList

def ofContent (content : Chars) : Image :=
  if mark.isPrefixOf content then .utility (content.drop mark.length)
  else match content with
    | '#' :: '!' :: cs =>
      let line := trimmed (cs.takeWhile (· ≠ '\n'))
      let interpreter := line.takeWhile fun c => !(isGap c)
      let arg := trimmed (line.drop interpreter.length)
      if interpreter = [] then .unknown
      else .script interpreter (if arg = [] then none else some arg)
    | _ => .unknown

/-- What the file at a path is, if it may be run. -/
def find (t : Tree) (cwd : Location) (p : Chars) : Except Errno Image := do
  let (_, n) ← t.lookup cwd true (path p)
  match n with
  | .file id =>
    if isExecutable t n then return ofContent (chars (t.content id)) else throw .permission
  | _ => throw .permission

end Image

/-- The program of the system that in the end runs a file, with all its arguments. `levels`
limits how many scripts may name one another; what is neither program nor script is left to the
shell if `lenient` says so. -/
def program? (t : Tree) (cwd : Location) (lenient : Bool) :
    Nat → Chars → List Chars → Except Errno (Chars × List Chars)
  | 0, _, _ => .error .loop
  | levels + 1, p, args => do
    match ← Image.find t cwd p with
    | .utility name => return (name, args)
    | .script interpreter arg =>
      program? t cwd false levels interpreter (interpreter :: arg.toList ++ p :: args.tail)
    | .unknown =>
      if lenient then return ("sh".toList, "/bin/sh".toList :: p :: args.tail)
        else throw .notProgram

/-- The places where a program may lie. -/
def candidates (searched program : Chars) : List Chars :=
  if program = [] then []
  else if program.contains '/' then [program]
  else (String.ofList searched).splitOn ":" |>.map fun d =>
    if d = "" then program else d.toList ++ '/' :: program

/-- The first candidate that can be run. If there is none, one that may not be run tells more
than those that are missing, and of these the last one tells why. -/
def firstProgram (t : Tree) (cwd : Location) (lenient : Bool) (args : List Chars) :
    Errno → List Chars → Except Errno (Chars × List Chars)
  | e, [] => .error e
  | e, p :: ps =>
    match program? t cwd lenient 5 p args with
    | .error e' =>
      if [Errno.permission, .notFound, .notDirectory].contains e' then
        firstProgram t cwd lenient args (if e = .permission then e else e') ps
      else .error e'
    | r => r

def isShell (name : Chars) : Bool := ["sh", "dash", "bash"].contains (String.ofList name)

end LlvmBootstrap.Rehearsal
