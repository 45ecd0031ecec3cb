import LlvmBootstrap.Command
import LlvmBootstrap.Download.Url
import LlvmBootstrap.Tree.Change

/-!
Work as a program of calls. A program either is done or makes one call and goes on with its
answer, so the same program can be run from start to end, cut off after any call, or run in
turn with others.
-/

namespace LlvmBootstrap

/-- A change of the file tree, as one call asks for it. -/
inductive Change where
  | mkdir (p : Path)
  | create (p : Path) (content : Bytes)
  | symlink (target p : Path)
  | link (src p : Path)
  | copy (src dst : Path)
  | unlink (p : Path)
  | chmod (p : Path) (mode : Mode)
  | removeAll (p : Path)
  | renameDir (src dst : Path)
  deriving DecidableEq

def Change.apply (t : Tree) (cwd : Location) : Change → Except Errno Tree
  | .mkdir p => t.mkdir cwd p 0o777
  | .create p content => t.createNew cwd p content
  | .symlink target p => t.symlink cwd target p
  | .link src p => t.link cwd src p
  | .copy src dst => t.copyFile cwd src dst
  | .unlink p => t.unlink cwd p
  | .chmod p mode => t.chmod cwd p mode
  | .removeAll p => t.removeAll cwd p
  | .renameDir src dst => t.renameDir cwd src dst

/-- What a look at a path tells. -/
inductive ObjectKind where
  | dir
  | file
  | link
  deriving DecidableEq

def Node.objectKind : Node → ObjectKind
  | .dir _ => .dir
  | .file _ => .file
  | .link _ => .link

abbrev Handle := Nat

/-- Why a call to the outside failed: refused by the system, or in the
words of whoever was called. -/
inductive Failure where
  | system (e : Errno)
  | told (text : String)
  deriving DecidableEq

def Failure.message : Failure → String
  | .system e => e.message
  | .told text => text

/-- Whether the output of a command goes where that of its caller goes, or is collected. -/
inductive Output where
  | shared
  | collected
  deriving DecidableEq

structure Finished where
  status : Status
  out : Bytes
  err : Bytes
  deriving DecidableEq

inductive Level where
  | info
  | warn
  deriving DecidableEq

def Level.text : Level → String
  | .info => "INFO"
  | .warn => "WARN"

inductive Call where
  | look (follow : Bool) (p : Path)
  | read (p : Path)
  | change (c : Change)
  /-- Opens a file for reading and writing, making it if need be. -/
  | openFile (p : Path)
  /-- Takes the exclusive lock of an open file, unless another handle has it. -/
  | tryLock (h : Handle)
  | truncate (h : Handle)
  | rewind (h : Handle)
  | write (h : Handle) (bytes : Bytes)
  | readRest (h : Handle)
  /-- Closes a handle, which gives its lock back. -/
  | close (h : Handle)
  | cwd
  | environ
  | processId
  | clock
  /-- A name part drawn at random. -/
  | draw
  | send (url : Url)
  | spawn (output : Output) (c : Command)
  | log (level : Level) (text : String)
  | print (text : String)
  | complain (text : String)

/-- The type of the answer to a call. -/
def Call.Answer : Call → Type
  | .look _ _ => Except Errno ObjectKind
  | .read _ => Except Errno Bytes
  | .change _ => Except Errno Unit
  | .openFile _ => Except Errno Handle
  | .tryLock _ => Except Errno Bool
  | .truncate _ | .rewind _ | .write _ _ => Except Errno Unit
  | .close _ => Unit
  | .readRest _ => Bytes
  | .cwd => Path
  | .environ => Environ
  | .processId | .clock => Nat
  | .draw => Name
  | .send _ => Except Unit Response
  | .spawn _ _ => Except Failure Finished
  | .log _ _ | .print _ | .complain _ => Unit

inductive Program (α : Type) where
  | done (a : α)
  | call (c : Call) (next : c.Answer → Program α)

namespace Program

def bind {α β : Type} : Program α → (α → Program β) → Program β
  | .done a, f => f a
  | .call c next, f => .call c fun r => (next r).bind f

instance : Monad Program where
  pure := .done
  bind := bind

/-- The program that makes one call and gives its answer. -/
def ask (c : Call) : Program c.Answer := .call c .done

theorem bind_done {α : Type} (p : Program α) : p.bind .done = p := by
  induction p with
  | done a => rfl
  | call c next ih => simp only [bind]; congr 1; funext r; exact ih r

theorem bind_assoc {α β γ : Type} (p : Program α) (f : α → Program β) (g : β → Program γ) :
    (p.bind f).bind g = p.bind fun a => (f a).bind g := by
  induction p with
  | done a => rfl
  | call c next ih => simp only [bind]; congr 1; funext r; exact ih r

instance : LawfulMonad Program :=
  LawfulMonad.mk' Program bind_done (fun _ _ => rfl) bind_assoc

end Program

/-- Programs that may stop with an error. -/
abbrev Attempt (ε α : Type) := ExceptT ε Program α

/-- Makes one call from within a program, or from within an attempt made of programs. -/
def make {m : Type → Type} [MonadLiftT Program m] (c : Call) : m c.Answer :=
  liftM (Program.ask c)

end LlvmBootstrap
