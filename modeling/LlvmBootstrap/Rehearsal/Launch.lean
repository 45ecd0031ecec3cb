import LlvmBootstrap.Machine.World
import LlvmBootstrap.Rehearsal.Interpreter

/-!
An outside in which commands are rehearsed: they run on the tree of the world itself, as
scripts of a shell and the programs that the system brings along. No server answers there.
-/

namespace LlvmBootstrap.Rehearsal

/-- Where programs are looked for if nothing says where. -/
def defaultSearch : Chars := "/bin:/usr/bin".toList

/-- The steps a command may take. -/
def patience : Nat := 1000000

/-- A tree with the programs of the system in it. -/
def withPrograms (t : Tree) : Tree :=
  let bin := ["usr", "bin"].map Utf8.encode
  let t := (t.put [Utf8.encode "usr"] (.dir 0o755)).put bin (.dir 0o755)
  let t := t.put [Utf8.encode "bin"] (.link "usr/bin")
  (["sh", "dash", "bash"] ++ Run.utilities.map (·.1)).foldl (fun t name =>
    let (id, t) := t.addBody ⟨0o755, octets (Image.mark ++ name.toList)⟩
    t.put (bin ++ [Utf8.encode name]) (.file id)) t

/-- Whether a command holds a zero octet, which no call can pass on. -/
def holdsZero (c : Command) : Bool :=
  let vars := match c.vars with
    | some vars => vars.toEnviron.entries
    | none => []
  let extra := c.extra.entries.map fun v => (Utf8.encode v.1, v.2)
  ([Utf8.encode c.program] ++ c.args ++ (c.dir.map (·.bytes)).toList ++
    (vars ++ extra).flatMap fun v => [v.1, v.2]).any (·.contains 0)

/-- The directory a command runs in. -/
def directory (cwd : Location) (t : Tree) (c : Command) : Except Errno Location :=
  match c.dir with
  | none => .ok cwd
  | some p => do
    match ← t.lookup cwd true p with
    | (loc, .dir _) => return loc
    | _ => throw .notDirectory

/-- The program that a command starts, with its arguments. A file that is no program is left to
a shell only where the search for it is by an environment of the command's own. -/
def programOf (cwd : Location) (environ : Environ) (t : Tree) (c : Command) :
    Except Errno (Chars × List Chars) :=
  let program := chars (Utf8.encode c.program)
  let searched := (environ.get? (Utf8.encode "PATH")).elim defaultSearch chars
  let lenient := !(program.contains '/') && (c.vars.isSome || c.extra.contains "PATH")
  firstProgram t cwd lenient (program :: c.args.map chars) .notFound
  (candidates searched program)

/-- Runs a command and gives the tree it leaves. -/
def launch (caller : Caller) (c : Command) (t : Tree) : Except Failure Finished × Tree :=
  let environ := c.environ caller.environ
  if holdsZero c then (.error (.told "nul byte found in provided data"), t)
  else match directory caller.cwd t c with
    | .error e => (.error (.system e), t)
    | .ok cwd =>
      match programOf cwd environ t c with
      | .error e => (.error (.system e), t)
      | .ok (name, args) =>
        let shell : Shell :=
          { tree := t, cwd, vars := environ, exported := environ.keys, name,
            args := [], status := 0
            out := [], err := [], input := [], sinks := [(1, .out), (2, .err)] }
        let (r, s) := Run.runProgram patience name args shell
        let code := match r with
          | .error .killed => none
          | _ => some (Int.ofNat s.status)
        (.ok ⟨⟨code⟩, octets (written s.out), octets (written s.err)⟩, s.tree)

/-- The outside at a point in time. Its state counts the names drawn. -/
def outside (now : Nat) : Outside Nat where
  spawn caller _ c t n :=
    let (r, t) := launch caller c t
    (r, t, n)
  send _ n := (.error (), n)
  clock n := (now, n)
  draw n := (Utf8.encode ("x" ++ toString n), n + 1)

end LlvmBootstrap.Rehearsal
