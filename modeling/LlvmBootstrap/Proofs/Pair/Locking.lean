import LlvmBootstrap.Proofs.Lock.Tenure
import LlvmBootstrap.Proofs.Pair.Owned
import LlvmBootstrap.Proofs.Run.Again
import LlvmBootstrap.Proofs.Sources.Twice

/-!
Taking the lock of a root that is there, while nobody has it. What comes of it is told by the
tree: the same file is the lock file afterwards, whoever takes the lock, and nothing else is
touched.
-/

namespace LlvmBootstrap

open LlvmBootstrap.Tree Program

namespace Root

variable {σ : Type} {o : Outside σ} {r : Root} {here top : Location} {a : Arch}
  {u v w w' : World σ} {t t' t'' : Tree} {id : FileId} {f : FileId × Mode}

/-! ### The lock file -/

def lockFile (top : Location) (t : Tree) : FileId × Mode :=
  match t.node? (top ++ [lockName]) with
  | some (.file id) => (id, t.mode id)
  | _ => (t.bodies.length, umasked 0o666)

structure HasLock (top : Location) (f : FileId × Mode) (t : Tree) : Prop where
  node : t.node? (top ++ [lockName]) = some (.file f.1)
  body : ∃ content, t.body? f.1 = some ⟨f.2, content⟩

theorem HasLock.eq (h : HasLock top f t) : lockFile top t = f := by
  obtain ⟨content, hbody⟩ := h.body
  rw [lockFile, h.node]
  simp [Tree.mode, hbody]

theorem HasLock.congr (h : HasLock top f t)
    (hn : t'.node? (top ++ [lockName]) = t.node? (top ++ [lockName]))
    (hb : ∀ id b, t.node? (top ++ [lockName]) = some (.file id) → t.body? id = some b →
      t'.body? id = some b) :
    HasLock top f t' :=
  ⟨hn.trans h.node, h.body.imp fun _ hbody => hb _ _ h.node hbody⟩

theorem HasLock.emptied_eq (h : HasLock top f t) (h' : HasLock top f t') :
    ((t.node? (top ++ [lockName])).map t.shown).map Shown.emptied =
      ((t'.node? (top ++ [lockName])).map t'.shown).map Shown.emptied := by
  obtain ⟨content, hbody⟩ := h.body
  obtain ⟨content', hbody'⟩ := h'.body
  simp [h.node, h'.node, shown, Shown.emptied, Tree.mode, hbody, hbody']

/-- `t` with the lock file, whatever it holds. -/
structure Locked (top : Location) (t t' : Tree) : Prop where
  vacant : ∀ mode, t.node? (top ++ [lockName]) ≠ some (.dir mode)
  closed : t'.Closed
  nodes : ∀ loc, loc ≠ top ++ [lockName] → t'.node? loc = t.node? loc
  bodies : ∀ loc id, loc ≠ top ++ [lockName] → t.node? loc = some (.file id) →
    t'.body? id = t.body? id
  has : HasLock top (lockFile top t) t'

namespace Locked

theorem trans (h : Locked top t t') (h' : Locked top t' t'') : Locked top t t'' where
  vacant := h.vacant
  closed := h'.closed
  nodes loc hne := (h'.nodes loc hne).trans (h.nodes loc hne)
  bodies loc id hne hn :=
    (h'.bodies loc id hne ((h.nodes loc hne).trans hn)).trans (h.bodies loc id hne hn)
  has := h.has.eq ▸ h'.has

theorem kept (h : Locked top t t') (hk : Kept t' t'') (hf : t.Filled) : Locked top t t'' where
  vacant := h.vacant
  closed := h.closed.congr hk.nodes
  nodes loc hne := (hk.nodes loc).trans (h.nodes loc hne)
  bodies loc id hne hn := by
    obtain ⟨b, hb⟩ := hf loc id hn
    rw [hb, hk.bodies id b ((h.bodies loc id hne hn).trans hb)]
  has := h.has.congr (hk.nodes _) fun id b _ => hk.bodies id b

theorem sameOn (h : Locked top t t') : SameOn (· ≠ top ++ [lockName]) t t' :=
  .of_nodes h.nodes h.bodies

/-- Nothing else is a name of the lock file. -/
theorem single (h : Locked top t t') (hf : t.Filled) (hp : PlainLock top t) {loc : Location}
    (hn : t'.node? loc = some (.file (lockFile top t).1)) : loc = top ++ [lockName] := by
  by_contra hne
  rw [h.nodes loc hne] at hn
  have hvacant := h.vacant
  rw [lockFile] at hn
  cases hlock : t.node? (top ++ [lockName]) with
  | none =>
      rw [hlock] at hn
      obtain ⟨b, hb⟩ := hf loc _ hn
      exact absurd (List.getElem?_eq_some_iff.mp hb).1 (Nat.lt_irrefl _)
  | some n =>
      cases n with
      | dir mode => exact hvacant mode hlock
      | link target => exact hp.not_link target hlock
      | file id =>
          rw [hlock] at hn
          exact hne (hp.single id loc hlock hn)

theorem agrees (h : Locked top t t') (h' : Locked top t t'') :
    Agrees (top ++ [lockName]) t' t'' where
  nodes loc := by
    by_cases hne : loc = top ++ [lockName]
    · rw [hne, h'.has.node, h.has.node]
    · rw [h'.nodes loc hne, h.nodes loc hne]
  bodies loc id hne hn := by
    rw [h.nodes loc hne] at hn
    rw [h'.bodies loc id hne hn, h.bodies loc id hne hn]

theorem sameButContent (h : Locked top t t') (h' : Locked top t t'') :
    SameButContent (top ++ [lockName]) t' t'' where
  elsewhere loc hloc := (h.sameOn.shown loc hloc).symm.trans (h'.sameOn.shown loc hloc)
  there := h.has.emptied_eq h'.has

theorem fit (h : Locked top w.tree w'.tree) (hw : Fit r here top w) (hcwd : w'.cwd = w.cwd) :
    Fit r here top w' where
  cwd := hcwd.trans hw.cwd
  closed := h.closed
  filled loc id hn := by
    by_cases hne : loc = top ++ [lockName]
    · obtain ⟨content, hbody⟩ := h.has.body
      rw [hne, h.has.node] at hn
      cases hn
      exact ⟨_, hbody⟩
    · rw [h.nodes loc hne] at hn
      rw [h.bodies loc id hne hn]
      exact hw.filled loc id hn
  -- The way to the root does not lead over the lock file, which is no directory and no link.
  aloof := by
    obtain ⟨way, hroutes, hnone, hdir, hr⟩ := hw.aloof
    refine ⟨way, ⟨fun loc mode hm => ?_, fun loc target hl => ?_⟩, hnone, hdir, hr⟩
    · obtain ⟨mode', hm'⟩ := hroutes.dirs loc mode hm
      exact ⟨mode', (h.nodes loc fun he => h.vacant mode' (he ▸ hm')).trans hm'⟩
    · have hl' := hroutes.links loc target hl
      exact (h.nodes loc fun he => hw.lock.not_link target (he ▸ hl')).trans hl'
  lock := by
    refine ⟨fun target hl => ?_, fun id loc hid hn => ?_⟩
    · rw [h.has.node] at hl
      exact nomatch Option.some.inj hl
    · rw [h.has.node] at hid
      cases hid
      exact h.single hw.filled hw.lock hn
  unlinked s target hl := by
    refine hw.unlinked s target ((h.nodes _ fun he => ?_).symm.trans hl)
    exact markerName_ne_lockName s (List.cons.inj (List.append_cancel_left he)).1

end Locked

/-! ### Taking the lock -/

theorem Fit.openFile_lock (h : Fit r here top w) : w.tree.openFile w.cwd r.lock 0o666 =
    match w.tree.arrive top r.lock [lockName] with
    | .error e => .error e
    | .ok (some (.file id)) => .ok (id, w.tree)
    | .ok (some _) => .error .isDirectory
    | .ok none =>
        .ok (w.tree.bodies.length,
          (w.tree.addBody ⟨umasked 0o666, []⟩).2.put (top ++ [lockName])
        (.file w.tree.bodies.length)) :=
  (h.reaches.belowEntry r.extends_lock).openFile 0o666 h.lock.not_link

/-- The lock file is made, and written. -/
theorem Fit.locked_made (h : Fit r here top w)
    (hnone : w.tree.node? (top ++ [lockName]) = none) (content : Bytes) :
    Locked top w.tree (((w.tree.addBody ⟨umasked 0o666, []⟩).2.put (top ++ [lockName])
      (.file w.tree.bodies.length)).setContent w.tree.bodies.length content) := by
  have hfile : lockFile top w.tree = (w.tree.bodies.length, umasked 0o666) := by
    rw [lockFile, hnone]
  have honly := (lockOpen_of_new (r := r) h.isSound h.filled h.reaches hnone rfl).1
  have hclosed : ((w.tree.addBody ⟨umasked 0o666, []⟩).2.put (top ++ [lockName])
      (.file w.tree.bodies.length)).Closed := by
    refine (h.closed.congr fun loc => node?_addBody w.tree ⟨umasked 0o666, []⟩ loc).put ?_ ?_
    · simpa only [node?_addBody] using h.reaches.dir
    · rw [node?_addBody, hnone]
  refine ⟨by simp [hnone], hclosed.congr fun loc => node?_setContent .., fun loc hloc => ?_,
    fun loc id hloc hn => ?_, ?_⟩
  · rw [node?_setContent, honly.nodes loc hloc]
  · have hid := Nat.ne_of_lt (Sources.lt_of_filled h.filled hn)
    rw [body?_setContent_of_ne hid, honly.bodies id hid]
  · rw [hfile]
    exact ⟨(node?_setContent ..).trans (node?_put_self _ _ (by simp)), content, by
      simp [setContent, setBody, put, addBody, Tree.mode, body?]⟩

/-- The lock file that is there is written. -/
theorem Fit.locked_kept (h : Fit r here top w)
    (hn : w.tree.node? (top ++ [lockName]) = some (.file id)) (content : Bytes) :
    Locked top w.tree (w.tree.setContent id content) := by
  have hfile : lockFile top w.tree = (id, w.tree.mode id) := by rw [lockFile, hn]
  refine ⟨by simp [hn], h.closed.congr fun loc => node?_setContent ..,
    fun loc _ => node?_setContent ..,
    fun loc id' hloc hn' => ?_, ?_⟩
  · refine body?_setContent_of_ne fun heq => hloc ?_
    exact h.lock.single id loc hn (heq ▸ hn')
  · obtain ⟨b, hb⟩ := h.filled _ _ hn
    rw [hfile]
    exact ⟨(node?_setContent ..).trans hn, content,
      List.getElem?_set_self (List.getElem?_eq_some_iff.mp hb).1⟩

/-- Opening the lock file, which is made if need be, and writing into it. -/
theorem Fit.locked_of_openFile (h : Fit r here top w)
    (hopen : w.tree.openFile w.cwd r.lock 0o666 = .ok (id, t)) (content : Bytes) :
    id = (lockFile top w.tree).1 ∧ Locked top w.tree (t.setContent id content) := by
  rw [h.openFile_lock] at hopen
  cases ha : w.tree.arrive top r.lock [lockName] with
  | error e =>
      rw [ha] at hopen
      contradiction
  | ok found =>
      rw [ha] at hopen
      have hnode := node?_of_arrive (List.cons_ne_nil _ _) ha
      rcases found with _ | mode | id' | target
      · obtain ⟨rfl, rfl⟩ := Prod.mk.inj (Except.ok.inj hopen)
        exact ⟨by rw [lockFile, hnode], h.locked_made hnode content⟩
      · contradiction
      · obtain ⟨rfl, rfl⟩ := Prod.mk.inj (Except.ok.inj hopen)
        exact ⟨by rw [lockFile, hnode], h.locked_kept hnode content⟩
      · contradiction

end Root

namespace RootLock

variable {σ : Type} {o : Outside σ} {r : Root} {w : World σ}

theorem run_take_of_error {e : Errno} (hopen : w.tree.openFile w.cwd r.lock 0o666 = .error e)
    (command : String) (a : Arch) :
    (take r command a).run.run o w = (.error (.failed "open" r.lock e), w) := by
  rw [take, run_bind_ok (run_make (openFile_of_error hopen))]
  rfl

end RootLock

namespace Root

variable {σ : Type} {o : Outside σ} {v : Bootstrap} {r : Root} {here top : Location} {a : Arch}
  {command : String} {m w : World σ} {t : Toolchain} {h : Handle} {f : FileId × Mode}

/-- From `m` on the lock has been taken, which nobody had, and `h` has it. -/
structure Held (top : Location) (m w : World σ) (h : Handle) : Prop where
  locked : Locked top m.tree w.tree
  process : m.SameProcess w
  lock : w.locks.get? (lockFile top m.tree).1 = some h

/-- The lock is free again once it has been given back. -/
theorem isFree_close (hw : Fit r here top w) (hhas : HasLock top f w.tree)
    (hlock : w.locks.get? f.1 = some h) : RootLock.IsFree r (w.close h) := by
  intro id t hopen
  have hclosed : Fit r here top (w.close h) := { hw with }
  have hid : id = f.1 :=
    (hclosed.locked_of_openFile hopen []).1.trans (congrArg Prod.fst hhas.eq)
  rw [← Option.not_isSome_iff_eq_none, Option.isSome_iff_exists]
  rintro ⟨h', hh'⟩
  obtain ⟨hheld, hother⟩ := SortedMap.get?_filter_eq_some_iff.mp hh'
  rw [hid, hlock] at hheld
  exact of_decide_eq_true hother (Option.some.inj hheld).symm

/-- Making a root that is there changes nothing, as long as its path can be used at all. -/
theorem Fit.start_prepare (hw : Fit v.root here top w)
    (hp : v.root.path.bytes = [] ∨ v.root.path.refusal? = none) (t : Toolchain) :
    ((v.prepare a command).start t).run o w = (v.prepareThere a command t).run o w := by
  rw [Bootstrap.start_prepare, run_bind, run_makeDirs_of_reaches hw.reaches, if_pos hp]

theorem run_prepare_of_unopened {e : Errno} (hw : Fit v.root here top w)
    (hp : v.root.path.bytes = [] ∨ v.root.path.refusal? = none)
    (hopen : w.tree.openFile w.cwd v.root.lock 0o666 = .error e) :
    ((v.prepare a command).start t).run o w =
      ((.error (.lock (.failed "open" v.root.lock e)), t), w) := by
  rw [hw.start_prepare hp, Bootstrap.prepareThere, run_bind, RootLock.run_take_of_error hopen]
  rfl

/-- With the lock free, making LLVM ready is taking the lock, the
steps, and giving the lock back. -/
theorem exists_held {id : FileId} {t₁ : Tree} (a : Arch) (command : String) (t : Toolchain)
    (hw : Fit v.root here top w)
    (hp : v.root.path.bytes = [] ∨ v.root.path.refusal? = none)
    (hfree : RootLock.IsFree v.root w)
    (hopen : w.tree.openFile w.cwd v.root.lock 0o666 = .ok (id, t₁)) :
    ∃ w₁ h, Held top w w₁ h ∧
      ((v.prepare a command).start t).run o w =
        ((((v.steps a).start t).run o w₁).1, (((v.steps a).start t).run o w₁).2.close h) := by
  have hrun : (RootLock.take v.root command a).run.run o w =
      (.ok ⟨w.nextHandle, v.root.lock⟩,
        RootLock.recorded o id t₁ (RootLock.recordNow o w command a) w) :=
    RootLock.run_take hopen (hfree id t₁ hopen)
  obtain ⟨rfl, hlocked⟩ :=
    hw.locked_of_openFile hopen (RootLock.recordNow o w command a).toBytes
  have hprocess := sameProcess_run o (RootLock.take v.root command a).run w
  rw [hrun] at hprocess
  refine ⟨_, w.nextHandle, ⟨hlocked, hprocess, SortedMap.get?_insert_self ..⟩, ?_⟩
  · rw [hw.start_prepare hp, Bootstrap.prepareThere, run_bind, hrun]
    dsimp only
    rw [Bootstrap.start_holding, run_bind]
    rfl

end Root

end LlvmBootstrap
