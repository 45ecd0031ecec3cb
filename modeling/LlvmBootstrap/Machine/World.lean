import LlvmBootstrap.Machine.Program

/-!
What calls act on, and what they do. A `World` holds the file tree, the open files with their
locks, and what the process has and has said so far. Everything a run cannot decide itself
(what commands do, what servers answer, the time, random names) comes from an `Outside`, which
keeps a state of its own in the world.
-/

namespace LlvmBootstrap

structure OpenFile where
  id : FileId
  offset : Nat
  deriving DecidableEq

structure World (σ : Type) where
  tree : Tree
  cwd : Location
  environ : Environ
  processId : Nat
  handles : SortedMap Handle OpenFile
  nextHandle : Handle
  /-- The handle that has the lock of a file. -/
  locks : SortedMap FileId Handle
  /-- What has been logged, in order. -/
  events : List (Level × String)
  out : Bytes
  err : Bytes
  outside : σ

/-- Where a command starts from. -/
structure Caller where
  cwd : Location
  environ : Environ

structure Outside (σ : Type) where
  spawn : Caller → Output → Command → Tree → σ → Except Failure Finished × Tree × σ
  send : Url → σ → Except Unit Response × σ
  clock : σ → Nat × σ
  draw : σ → Name × σ

/-- The path of a place from the top. -/
def Path.ofLocation (loc : Location) : Path := ⟨Path.slash :: (Path.ofNames loc).bytes⟩

namespace World

variable {σ : Type}

/-- A world in which nothing has been opened or said. -/
def fresh (tree : Tree) (cwd : Location) (environ : Environ) (processId : Nat) (outside : σ) :
    World σ :=
  { tree, cwd, environ, processId, outside
    handles := .empty, nextHandle := 3, locks := .empty, events := [], out := [], err := [] }

def file? (w : World σ) (h : Handle) : Option OpenFile := w.handles.get? h

def openFile (w : World σ) (p : Path) : Except Errno Handle × World σ :=
  match w.tree.openFile w.cwd p 0o666 with
  | .error e => (.error e, w)
  | .ok (id, tree) =>
    (.ok w.nextHandle, { w with
      tree
      handles := w.handles.insert w.nextHandle ⟨id, 0⟩
      nextHandle := w.nextHandle + 1 })

/-- A lock that no handle has, or this one already, is granted. -/
def tryLock (w : World σ) (h : Handle) : Bool × World σ :=
  match w.file? h with
  | none => (false, w)
  | some f =>
    match w.locks.get? f.id with
    | some h' => (h' = h, w)
    | none => (true, { w with locks := w.locks.insert f.id h })

def truncate (w : World σ) (h : Handle) : World σ :=
  match w.file? h with
  | none => w
  | some f => { w with tree := w.tree.setContent f.id [] }

def rewind (w : World σ) (h : Handle) : World σ :=
  match w.file? h with
  | none => w
  | some f => { w with handles := w.handles.insert h { f with offset := 0 } }

/-- Content with `bytes` written at an offset; a gap in front of it is filled with zeros. -/
def overwrite (content : Bytes) (offset : Nat) (bytes : Bytes) : Bytes :=
  content.take offset ++ List.replicate (offset - content.length) 0 ++ bytes ++
    content.drop (offset + bytes.length)

def write (w : World σ) (h : Handle) (bytes : Bytes) : World σ :=
  match w.file? h with
  | none => w
  | some f => { w with
      tree := w.tree.setContent f.id (overwrite (w.tree.content f.id) f.offset bytes)
      handles := w.handles.insert h { f with offset := f.offset + bytes.length } }

def readRest (w : World σ) (h : Handle) : Bytes × World σ :=
  match w.file? h with
  | none => ([], w)
  | some f =>
    let rest := (w.tree.content f.id).drop f.offset
    (rest,
      { w with handles := w.handles.insert h { f with offset := f.offset + rest.length } })

def close (w : World σ) (h : Handle) : World σ :=
  { w with
    handles := w.handles.erase h
    locks := w.locks.filter fun _ h' => h' ≠ h }

def change (w : World σ) (c : Change) : Except Errno Unit × World σ :=
  match c.apply w.tree w.cwd with
  | .error e => (.error e, w)
  | .ok tree => (.ok (), { w with tree })

def spawn (o : Outside σ) (w : World σ) (output : Output) (c : Command) :
    Except Failure Finished × World σ :=
  let (r, tree, outside) := o.spawn ⟨w.cwd, w.environ⟩ output c w.tree w.outside
  let w := { w with tree, outside }
  match output, r with
  | .shared, .ok f => (r, { w with out := w.out ++ f.out, err := w.err ++ f.err })
  | _, _ => (r, w)

/-- What a call does, and its answer. -/
def perform (o : Outside σ) (w : World σ) : (c : Call) → c.Answer × World σ
  | .look follow p => ((w.tree.lookup w.cwd follow p).map (·.2.objectKind), w)
  | .read p => (w.tree.readFile w.cwd p, w)
  | .change c => w.change c
  | .openFile p => w.openFile p
  | .tryLock h => let (granted, w) := w.tryLock h; (.ok granted, w)
  | .truncate h => (.ok (), w.truncate h)
  | .rewind h => (.ok (), w.rewind h)
  | .write h bytes => (.ok (), w.write h bytes)
  | .readRest h => w.readRest h
  | .close h => ((), w.close h)
  | .cwd => (.ofLocation w.cwd, w)
  | .environ => (w.environ, w)
  | .processId => (w.processId, w)
  | .clock => let (n, outside) := o.clock w.outside; (n, { w with outside })
  | .draw => let (n, outside) := o.draw w.outside; (n, { w with outside })
  | .send url => let (r, outside) := o.send url w.outside; (r, { w with outside })
  | .spawn output c => w.spawn o output c
  | .log level text => ((), { w with events := w.events ++ [(level, text)] })
  | .print text => ((), { w with out := w.out ++ Utf8.encode text })
  | .complain text => ((), { w with err := w.err ++ Utf8.encode text })

end World

namespace Program

variable {σ α β : Type}

/-- Runs a program from start to end. -/
def run (o : Outside σ) : Program α → World σ → α × World σ
  | .done a, w => (a, w)
  | .call c next, w => (next (w.perform o c).1).run o (w.perform o c).2

@[simp] theorem run_pure (o : Outside σ) (a : α) (w : World σ) :
    (pure a : Program α).run o w = (a, w) := rfl

@[simp] theorem run_bind (o : Outside σ) (p : Program α) (f : α → Program β) (w : World σ) :
    (p >>= f).run o w = (f (p.run o w).1).run o (p.run o w).2 := by
  induction p generalizing w with
  | done a => rfl
  | call c next ih => exact ih _ _

@[simp] theorem run_ask (o : Outside σ) (c : Call) (w : World σ) :
    (ask c).run o w = w.perform o c := rfl

end Program

end LlvmBootstrap
