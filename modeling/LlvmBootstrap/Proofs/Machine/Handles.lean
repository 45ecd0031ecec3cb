import LlvmBootstrap.Proofs.Machine.Amid
import LlvmBootstrap.Proofs.Machine.Asking
import LlvmBootstrap.Proofs.Tree.Removal
import LlvmBootstrap.Proofs.Tree.Ways

/-!
Files and handles, one call at a time. A call by a handle touches the content of the file it is
a handle of, and no other handle; other calls leave the handles and their locks alone, but for
a file being opened. No change gives up a file.
-/

namespace LlvmBootstrap

open LlvmBootstrap.Tree

def Call.handle? : Call → Option Handle
  | .tryLock h | .truncate h | .rewind h | .write h _ | .readRest h | .close h => some h
  | _ => none

variable {σ : Type} {o : Outside σ} {w w' : World σ} {c : Call} {answer : c.Answer}
  {h h' : Handle}

theorem Call.IsIdle.not_mayFail (hc : c.IsIdle) : ¬ c.MayFail := by
  cases c <;> first | exact hc.elim | exact not_false

/-! ### Files -/

theorem length_le_of_openFile {t t' : Tree} {cwd : Location} {p : Path}
    {mode : Mode} {id : FileId} (hok : t.openFile cwd p mode = .ok (id, t')) :
    t.bodies.length ≤ t'.bodies.length := by
  rcases openFile_eq_ok hok with ⟨_, _, rfl⟩ | ⟨_, _, _, _, rfl⟩
  · exact Nat.le_refl _
  · simp [addBody]

/-- No change gives up a file. -/
theorem Change.length_le {t t' : Tree} {cwd : Location} {c : Change}
    (hok : c.apply t cwd = .ok t') :
    t.bodies.length ≤ t'.bodies.length := by
  cases c with
  | mkdir p =>
      obtain ⟨_, _, _, rfl⟩ := mkdir_eq_ok hok
      exact Nat.le_refl _
  | removeAll p =>
      obtain ⟨_, _, _, ⟨_, rfl⟩ | ⟨_, rfl⟩⟩ := removeAll_eq_ok hok <;> exact Nat.le_refl _
  | copy src dst =>
      simp only [Change.apply, Tree.copyFile, bind, Except.bind] at hok
      repeat' split at hok
      all_goals first | contradiction | skip
      rename_i hopen
      cases hok
      simpa [setContent, setBody] using length_le_of_openFile hopen
  | _ =>
      simp only [Change.apply, Tree.createNew, Tree.symlink, Tree.link,
        Tree.unlink, Tree.chmod, Tree.renameDir, bind, Except.bind] at hok
      repeat' split at hok
      all_goals first | contradiction | (cases hok; simp [addBody, setBody])

/-! ### Handles -/

namespace World

/-- A lock that is granted was free, or the handle has had it before. -/
theorem tryLock_of_granted {f : OpenFile} (hf : w.file? h = some f)
    (hg : (w.tryLock h).1 = true) :
    (w.locks.get? f.id = none ∧ (w.tryLock h).2 = { w with locks := w.locks.insert f.id h }) ∨
      (w.locks.get? f.id = some h ∧ (w.tryLock h).2 = w) := by
  rw [tryLock, hf] at hg ⊢
  dsimp only at hg ⊢
  cases hlock : w.locks.get? f.id with
  | none => exact .inl ⟨rfl, rfl⟩
  | some h' =>
      rw [hlock] at hg
      exact .inr ⟨congrArg some (of_decide_eq_true hg), rfl⟩

/-- A lock that is refused is with another handle. -/
theorem tryLock_of_refused {f : OpenFile} (hf : w.file? h = some f)
    (hg : (w.tryLock h).1 = false) :
    (∃ h', w.locks.get? f.id = some h' ∧ h' ≠ h) ∧ (w.tryLock h).2 = w := by
  rw [tryLock, hf] at hg ⊢
  dsimp only at hg ⊢
  cases hlock : w.locks.get? f.id with
  | none =>
      rw [hlock] at hg
      contradiction
  | some h' =>
      rw [hlock] at hg
      exact ⟨⟨h', rfl, of_decide_eq_false hg⟩, rfl⟩

structure SameHandles (w w' : World σ) : Prop where
  handles : w'.handles = w.handles
  nextHandle : w'.nextHandle = w.nextHandle
  locks : w'.locks = w.locks

/-- Everything is in its place, and the other handles are what they were. -/
structure ByHandle (h : Handle) (w w' : World σ) : Prop where
  nodes : ∀ loc, w'.tree.node? loc = w.tree.node? loc
  length : w'.tree.bodies.length = w.tree.bodies.length
  nextHandle : w'.nextHandle = w.nextHandle
  others : ∀ h', h' ≠ h → w'.file? h' = w.file? h'

theorem ByHandle.refl (h : Handle) (w : World σ) : ByHandle h w w :=
  ⟨fun _ => rfl, rfl, rfl, fun _ _ => rfl⟩

theorem byHandle_tryLock (w : World σ) (h : Handle) : ByHandle h w (w.tryLock h).2 := by
  rw [World.tryLock]
  repeat' split
  all_goals exact ⟨fun _ => rfl, rfl, rfl, fun _ _ => rfl⟩

theorem byHandle_truncate (w : World σ) (h : Handle) : ByHandle h w (w.truncate h) := by
  rw [World.truncate]
  split
  · exact .refl h w
  · exact ⟨fun loc => node?_setContent .., by simp [setContent], rfl, fun _ _ => rfl⟩

theorem byHandle_rewind (w : World σ) (h : Handle) : ByHandle h w (w.rewind h) := by
  rw [World.rewind]
  split
  · exact .refl h w
  · exact ⟨fun _ => rfl, rfl, rfl, fun _ hne => SortedMap.get?_insert_of_ne _ _ hne⟩

theorem byHandle_write (w : World σ) (h : Handle) (bytes : Bytes) :
    ByHandle h w (w.write h bytes) := by
  rw [World.write]
  split
  · exact .refl h w
  · exact ⟨fun loc => node?_setContent .., by simp [setContent], rfl,
      fun _ hne => SortedMap.get?_insert_of_ne _ _ hne⟩

theorem byHandle_readRest (w : World σ) (h : Handle) : ByHandle h w (w.readRest h).2 := by
  rw [World.readRest]
  split
  · exact .refl h w
  · exact ⟨fun _ => rfl, rfl, rfl, fun _ hne => SortedMap.get?_insert_of_ne _ _ hne⟩

theorem byHandle_close (w : World σ) (h : Handle) : ByHandle h w (w.close h) :=
  ⟨fun _ => rfl, rfl, rfl, fun _ hne => SortedMap.get?_erase_of_ne _ hne⟩

theorem cwd_perform (o : Outside σ) (w : World σ) (c : Call) :
    (w.perform o c).2.cwd = w.cwd := by
  cases c with
  | change c => simp only [perform, World.change]; split <;> rfl
  | openFile p => simp only [perform, World.openFile]; split <;> rfl
  | tryLock h =>
      simp only [perform, World.tryLock]
      repeat' split
      all_goals rfl
  | truncate h => simp only [perform, World.truncate]; split <;> rfl
  | rewind h => simp only [perform, World.rewind]; split <;> rfl
  | write h bytes => simp only [perform, World.write]; split <;> rfl
  | readRest h => simp only [perform, World.readRest]; split <;> rfl
  | spawn output c => simp only [perform, World.spawn]; split <;> rfl
  | _ => rfl

theorem Performs.cwd (hp : w.Performs o c answer w') : w'.cwd = w.cwd := by
  cases hp with
  | done => exact cwd_perform o w _
  | write h bytes e written => exact cwd_perform o w (.write h (bytes.take written))
  | tryLock | truncate | rewind => rfl

/-- Calls change nothing about the process they are made by. -/
theorem process_perform (o : Outside σ) (w : World σ) (c : Call) :
    (w.perform o c).2.environ = w.environ ∧ (w.perform o c).2.processId = w.processId := by
  cases c with
  | change | openFile | truncate | rewind | write | readRest | spawn =>
      simp only [perform, World.change, World.openFile, World.truncate,
        World.rewind, World.write, World.readRest, World.spawn]
      split <;> exact ⟨rfl, rfl⟩
  | tryLock h =>
      simp only [perform, World.tryLock]
      repeat' split
      all_goals exact ⟨rfl, rfl⟩
  | _ => exact ⟨rfl, rfl⟩

theorem Performs.process (hp : w.Performs o c answer w') :
    w'.environ = w.environ ∧ w'.processId = w.processId := by
  cases hp with
  | done => exact process_perform o w _
  | write h bytes e written => exact process_perform o w (.write h (bytes.take written))
  | tryLock | truncate | rewind => exact ⟨rfl, rfl⟩

/-- A write that fails does what a shorter one does. -/
theorem Performs.exists_write {bytes : Bytes} {answer : (Call.write h bytes).Answer}
    (hp : w.Performs o (.write h bytes) answer w') :
    ∃ written, w' = w.write h (bytes.take written) ∧
      (answer = .ok () → bytes.take written = bytes) := by
  cases hp with
  | done => exact ⟨bytes.length, by rw [List.take_length]; rfl, fun _ => List.take_length⟩
  | write h bytes e written => exact ⟨written, rfl, nofun⟩

/-- A call by a handle leaves everything in its place, and the other handles alone. -/
theorem Performs.byHandle (hp : w.Performs o c answer w') (hc : c.handle? = some h) :
    ByHandle h w w' := by
  -- A call that may fail half done leaves the world as it was or does what it does when it
  -- succeeds. Only of a write a part may be done.
  cases c with
  | tryLock h =>
      cases hc
      cases hp with
      | done => exact w.byHandle_tryLock h
      | tryLock => exact .refl ..
  | truncate h =>
      cases hc
      cases hp with
      | done => exact w.byHandle_truncate h
      | truncate => exact .refl ..
  | rewind h =>
      cases hc
      cases hp with
      | done => exact w.byHandle_rewind h
      | rewind => exact .refl ..
  | write h bytes =>
      cases hc
      obtain ⟨written, rfl, -⟩ := hp.exists_write
      exact w.byHandle_write h _
  | readRest h =>
      cases hc
      obtain ⟨-, rfl⟩ := hp.sure not_false
      exact w.byHandle_readRest h
  | close h =>
      cases hc
      obtain ⟨-, rfl⟩ := hp.sure not_false
      exact w.byHandle_close h
  | _ => contradiction

/-- A call that neither opens a file nor is made by a handle leaves handles and locks alone. -/
theorem Performs.sameHandles (hp : w.Performs o c answer w') (hc : c.handle? = none)
    (hopen : ∀ p, c ≠ .openFile p) : SameHandles w w' := by
  cases c with
  | openFile p => exact absurd rfl (hopen p)
  | tryLock | truncate | rewind | write | readRest | close => contradiction
  | change c =>
      obtain ⟨-, rfl⟩ := hp.sure not_false
      simp only [perform, World.change]
      split <;> exact ⟨rfl, rfl, rfl⟩
  | spawn output c =>
      obtain ⟨-, rfl⟩ := hp.sure not_false
      simp only [perform, World.spawn]
      split <;> exact ⟨rfl, rfl, rfl⟩
  | _ =>
      obtain ⟨-, rfl⟩ := hp.sure not_false
      exact ⟨rfl, rfl, rfl⟩

end World

end LlvmBootstrap
