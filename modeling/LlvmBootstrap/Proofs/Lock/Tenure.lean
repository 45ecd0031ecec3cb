import Mathlib
import LlvmBootstrap.Proofs.Lock.Refusal

/-!
The lock of a root through any number of tenures. Processes ask for the lock, read its file,
read their own record back and give the lock away again, in any order. What they are told is
what a lock that one of them has at a time would tell them, and a file in which nothing stands
but the record of that one. What was in the file before does not matter.
-/

namespace LlvmBootstrap

open LlvmBootstrap.Tree Program

namespace Tree

variable {t t' : Tree} {cwd cwd' : Location} {p : Path} {id : FileId} {mode : Mode}

theorem openFile_of_start (hstart : p.start cwd' = p.start cwd) (mode : Mode) :
    t.openFile cwd' p mode = t.openFile cwd p mode := by
  rw [openFile, openFile, resolve_eq, resolve_eq, hstart]

theorem refusal?_of_openFile (h : t.openFile cwd p mode = .ok (id, t')) :
    p.refusal? = none := by
  rw [openFile] at h
  cases hresolve : t.resolve cwd true p with
  | ok s => exact refusal?_of_resolve hresolve
  | error e =>
      rw [hresolve] at h
      contradiction

/-- The path of a file that has been opened leads to it. -/
theorem lookup_of_openFile (h : t.openFile cwd p mode = .ok (id, t')) :
    ∃ loc, t'.lookup cwd true p = .ok (loc, .file id) := by
  have hp := refusal?_of_openFile h
  rcases openFile_eq_ok h with ⟨loc, hwalk, rfl⟩ | ⟨dir, n, hwalk, rfl, rfl⟩
  · exact ⟨loc, by rw [lookup, resolve_eq, hp]; simp only [hwalk]⟩
  · have hsame : ∀ loc, loc ≠ dir ++ [n] →
        ((t.addBody ⟨umasked mode, []⟩).2.put (dir ++ [n]) (.file t.bodies.length)).node? loc =
          t.node? loc := fun loc hne => by rw [node?_put_of_ne _ _ hne, node?_addBody]
    obtain ⟨hfound, -⟩ := walk_filled hwalk hsame (node?_put_self _ _ (by simp))
    exact ⟨dir ++ [n], by rw [lookup, resolve_eq, hp]; simp only [hfound]⟩

theorem Filled.openFile (hf : t.Filled) (h : t.openFile cwd p mode = .ok (id, t')) :
    t'.Filled := by
  rcases openFile_eq_ok h with ⟨_, -, rfl⟩ | ⟨dir, n, -, rfl, rfl⟩
  · exact hf
  · intro loc id hid
    by_cases hloc : loc = dir ++ [n]
    · rw [hloc, node?_put_self _ _ (by simp)] at hid
      obtain rfl := Node.file.inj (Option.some.inj hid)
      exact ⟨_, List.getElem?_concat_length⟩
    · rw [node?_put_of_ne _ _ hloc, node?_addBody] at hid
      obtain ⟨b, hb⟩ := hf loc id hid
      exact ⟨b, (List.getElem?_append_left (List.getElem?_eq_some_iff.mp hb).1).trans hb⟩

theorem lt_of_openFile (hc : t.Closed) (hd : ∃ mode, t.node? (p.start cwd) = some (.dir mode))
    (hf : t.Filled) (h : t.openFile cwd p mode = .ok (id, t')) : id < t'.bodies.length := by
  rcases openFile_eq_ok h with ⟨loc, hwalk, rfl⟩ | ⟨dir, n, -, rfl, rfl⟩
  · exact Root.lt_of_file hf (node?_of_walk_found hc hwalk hd)
  · simp [addBody, put]

theorem Filled.setContent (hf : t.Filled) (id : FileId) (content : Bytes) :
    (t.setContent id content).Filled :=
  hf.of_kept (fun _ => node?_setContent ..) (by simp [Tree.setContent, setBody])

end Tree

namespace RootLock

variable {σ : Type} {o : Outside σ} {r : Root} {a : Arch} {w w' : World σ}
  {h : Handle} {id : FileId} {t : Tree} {command : String} {cwd : Location}
  {record : Holder} {p : Process}

/-! ### Taking a lock that is free -/

def recordNow (o : Outside σ) (w : World σ) (command : String) (a : Arch) : Holder :=
  ⟨w.processId, command, a, (o.clock w.outside).1⟩

def recorded (o : Outside σ) (id : FileId) (t : Tree) (record : Holder) (w : World σ) :
    World σ :=
  { w with
    tree := t.setContent id record.toBytes
    handles :=
      ((w.handles.insert w.nextHandle ⟨id, 0⟩).insert w.nextHandle ⟨id, 0⟩).insert w.nextHandle
      ⟨id, 0 + record.toBytes.length⟩
    nextHandle := w.nextHandle + 1
    locks := w.locks.insert id w.nextHandle
    outside := (o.clock w.outside).2 }

theorem run_keep (hfile : w.file? h = some ⟨id, 0⟩) (record : Holder) :
    (keep r h record).run.run o w = (.ok ⟨h, r.lock⟩, { w with
      tree := w.tree.setContent id record.toBytes
      handles := (w.handles.insert h ⟨id, 0⟩).insert h ⟨id, 0 + record.toBytes.length⟩ }) := by
  rw [keep, ExceptT.run_bind_lift, run_bind, run_replaceContent hfile]
  rfl

theorem run_take (hopen : w.tree.openFile w.cwd r.lock 0o666 = .ok (id, t))
    (hfree : w.locks.get? id = none) : (take r command a).run.run o w =
      (.ok ⟨w.nextHandle, r.lock⟩, recorded o id t (recordNow o w command a) w) := by
  let w₁ : World σ := { w with
    tree := t
    handles := w.handles.insert w.nextHandle ⟨id, 0⟩
    nextHandle := w.nextHandle + 1 }
  let w₂ : World σ := { w₁ with locks := w.locks.insert id w.nextHandle }
  have hfile : w₁.file? w.nextHandle = some ⟨id, 0⟩ := SortedMap.get?_insert_self ..
  have hopened : w.perform o (.openFile r.lock) = (.ok w.nextHandle, w₁) := by
    change w.openFile r.lock = _
    rw [World.openFile, hopen]
    rfl
  have hlocked : w₁.perform o (.tryLock w.nextHandle) = (.ok true, w₂) := by
    have htry : w₁.tryLock w.nextHandle = (true, w₂) := by
      simp only [World.tryLock, hfile, show w₁.locks.get? id = none from hfree, w₁, w₂]
    exact congrArg (fun ended => (Except.ok ended.1, ended.2)) htry
  have hkeep :=
    run_keep (o := o) (r := r) (w := (w₂.perform o .clock).2) hfile (recordNow o w command a)
  rw [take, run_bind_ok (run_make hopened)]
  dsimp only
  rw [run_bind_ok (run_make hlocked)]
  exact hkeep

/-- Making the root does nothing but to add directories. -/
theorem run_makeDirs (hw : w.IsSound) (q : Path) :
    ∃ res t, (makeDirs q).run.run o w = (res, { w with tree := t }) ∧ NewDirs w.tree t ∧
      t.Closed := by
  have hmake := (throughout_makeDirs (o := o) (p := q) hw).since
    (R := fun w w' => w' = { w with tree := w'.tree } ∧ NewDirs w.tree w'.tree)
    ⟨rfl, .refl _⟩ ?_ ?_
  · obtain ⟨⟨hsound, -⟩, hsame, hnew⟩ := hmake.at_end
    exact ⟨_, _, Prod.ext rfl hsame, hnew, hsound.closed⟩
  · rintro w w' w'' ⟨hw', hnew⟩ ⟨hw'', hnew'⟩
    refine ⟨?_, hnew.trans hnew'⟩
    rw [hw'', hw']
  · rintro w c ⟨-, -, hc⟩
    cases hc with
    | look => exact ⟨rfl, .refl _⟩
    | @mkdir q hq =>
        cases happ : (Change.mkdir q).apply w.tree w.cwd with
        | error e =>
            rw [World.perform_change_error happ]
            exact ⟨rfl, .refl _⟩
        | ok t' =>
            rw [World.perform_change_ok happ]
            exact ⟨rfl, newDirs_of_mkdir happ⟩

/-- A lock whose file can be opened is taken. -/
theorem run_acquire_of_openFile (hw : w.IsSound)
    (hopen : w.tree.openFile w.cwd r.lock 0o666 = .ok (id, t))
    (hfree : w.locks.get? id = none) :
    (acquire r command a).run.run o w =
      (.ok ⟨w.nextHandle, r.lock⟩, recorded o id t (recordNow o w command a) w) := by
  have hp := refusal?_of_openFile hopen
  obtain ⟨spot, hresolve⟩ : ∃ spot, w.tree.resolve w.cwd true r.lock = .ok spot := by
    rw [resolve_eq, hp]
    rcases openFile_eq_ok hopen with ⟨_, hwalk, -⟩ | ⟨_, _, hwalk, -, -⟩ <;> exact ⟨_, hwalk⟩
  have hmake := Root.run_makeDirs_of_resolve (o := o) hw Root.isPlain_lockName hresolve
  have hmade : ((makeDirs r.path).adapt (LockError.failed "create" r.path)).run.run o w =
      (.ok (), w) := by
    rw [run_adapt, run_bind, hmake]
    rfl
  rw [acquire_eq, run_bind_ok hmade]
  exact run_take hopen hfree

/-- Where no lock is held, a lock is taken, unless the root or the
file of the lock cannot be made. -/
inductive Tried (o : Outside σ) (r : Root) (command : String) (a : Arch) (w : World σ) :
    Except LockError RootLock × World σ → Prop
  | failed {step : String} {p : Path} {e : Errno} {t : Tree} (hnew : NewDirs w.tree t)
      (hclosed : t.Closed) :
      Tried o r command a w (.error (.failed step p e), { w with tree := t })
  | taken {id : FileId} {t t' : Tree} (hnew : NewDirs w.tree t) (hclosed : t.Closed)
      (hopen : t.openFile w.cwd r.lock 0o666 = .ok (id, t')) :
      Tried o r command a w
        (.ok ⟨w.nextHandle, r.lock⟩, recorded o id t' (recordNow o w command a) w)

theorem tried_acquire (hw : w.IsSound) (hfree : ∀ id, w.locks.get? id = none) :
    Tried o r command a w ((acquire r command a).run.run o w) := by
  obtain ⟨res, t, hmake, hnew, hclosed⟩ := run_makeDirs (o := o) hw r.path
  have hadapt : ((makeDirs r.path).adapt (LockError.failed "create" r.path)).run.run o w =
      (res.mapError (.failed "create" r.path), { w with tree := t }) := by
    rw [run_adapt, run_bind, hmake]
    rfl
  rw [acquire_eq]
  cases res with
  | error e =>
      rw [run_bind_error hadapt]
      exact .failed hnew hclosed
  | ok =>
      rw [run_bind_ok hadapt]
      cases hopen : t.openFile w.cwd r.lock 0o666 with
      | error e =>
          rw [take, run_bind_ok (run_make (openFile_of_error hopen))]
          exact .failed hnew hclosed
      | ok opened =>
          obtain ⟨id, t'⟩ := opened
          have htake : (take r command a).run.run o { w with tree := t } = _ :=
            run_take hopen (hfree id)
          rw [htake]
          exact .taken hnew hclosed hopen

/-! ### Acts -/

inductive Act where
  /-- A process asks for it. -/
  | acquire (p : Process) (command : String) (a : Arch)
  /-- A process reads the lock file. -/
  | read (p : Process)
  /-- The one that has it reads its own record. -/
  | holder
  /-- The one that has it gives it back. -/
  | release

inductive Outcome where
  /-- What was said to one who asked for the lock, and when. -/
  | asked (now : Nat) (res : Except LockError RootLock)
  | seen (content : Except Errno Bytes)
  | told (record : Option Holder)
  | released
  /-- Nobody has the lock, so that there is nothing to read by or to give back. -/
  | nothing

structure Scene (σ : Type) where
  world : World σ
  lock : Option RootLock

variable {s : Scene σ} {act : Act} {acts : List Act}

namespace Act

def process? : Act → Option Process
  | acquire p _ _ | read p => some p
  | holder | release => none

def play (o : Outside σ) (r : Root) (s : Scene σ) : Act → Outcome × Scene σ
  | acquire p command a =>
    let ended := (RootLock.acquire r command a).run.run o (s.world.as p)
    (.asked (o.clock s.world.outside).1 ended.1, ⟨ended.2, ended.1.toOption <|> s.lock⟩)
  | read p =>
    let ended := (s.world.as p).perform o (.read r.lock)
    (.seen ended.1, ⟨ended.2, s.lock⟩)
  | holder =>
    match s.lock with
    | none => (.nothing, s)
    | some l =>
      let ended := l.holder?.run o s.world
      (.told ended.1, ⟨ended.2, s.lock⟩)
  | release =>
    match s.lock with
    | none => (.nothing, s)
    | some l => (.released, ⟨(l.release.run o s.world).2, none⟩)

def plays (o : Outside σ) (r : Root) : List Act → Scene σ → List Outcome × Scene σ
  | [], s => ([], s)
  | act :: acts, s =>
    let ended := act.play o r s
    let others := plays o r acts ended.2
    (ended.1 :: others.1, others.2)

end Act

/-! ### What is to be expected -/

/-- How it is with a lock. -/
inductive Tenure where
  /-- Nobody has it, and its file may be such that nobody will. -/
  | untried
  | free
  | held (record : Holder)

/-- What is to come of an act, and how it is with the lock then. -/
inductive Expected (r : Root) : Tenure → Act → Outcome → Tenure → Prop
  | failed {p : Process} {command : String} {a : Arch} {now : Nat} {step : String}
      {q : Path} {e : Errno} :
      Expected r .untried (.acquire p command a)
        (.asked now (.error (.failed step q e))) .untried
  | taken {st : Tenure} {p : Process} {command : String} {a : Arch} {now : Nat} {l : RootLock}
      (hst : ∀ record, st ≠ .held record) :
      Expected r st (.acquire p command a) (.asked now (.ok l)) (.held ⟨p.id, command, a, now⟩)
  | refused {record : Holder} {p : Process} {command : String} {a : Arch} {now : Nat} :
      Expected r (.held record) (.acquire p command a)
        (.asked now (.error (.busy r (some record) now))) (.held record)
  | seen {record : Holder} {p : Process} :
      Expected r (.held record) (.read p) (.seen (.ok record.toBytes)) (.held record)
  | unknown {st : Tenure} {p : Process} {content : Except Errno Bytes}
      (hst : ∀ record, st ≠ .held record) :
      Expected r st (.read p) (.seen content) st
  | told {record : Holder} :
      Expected r (.held record) .holder (.told (some record)) (.held record)
  | released {record : Holder} : Expected r (.held record) .release .released .free
  | nothing {st : Tenure} {act : Act} (hact : act = .holder ∨ act = .release)
      (hst : ∀ record, st ≠ .held record) : Expected r st act .nothing st

inductive Expecteds (r : Root) : Tenure → List Act → List Outcome → Tenure → Prop
  | nil {st : Tenure} : Expecteds r st [] [] st
  | cons {st st' st'' : Tenure} {act : Act} {acts : List Act} {out : Outcome}
      {outs : List Outcome}
      (hfirst : Expected r st act out st') (hothers : Expecteds r st' acts outs st'') :
      Expecteds r st (act :: acts) (out :: outs) st''

/-- The scene is one in which it is so with the lock of the root that is found from `cwd`. -/
inductive Stands (r : Root) (cwd : Location) : Tenure → Scene σ → Prop
  | untried {w : World σ} (hclosed : w.tree.Closed) (hfilled : w.tree.Filled)
      (hfree : ∀ id, w.locks.get? id = none) : Stands r cwd .untried ⟨w, none⟩
  | free {w : World σ} {id : FileId} {t : Tree} (hclosed : w.tree.Closed)
      (hfilled : w.tree.Filled)
      (hopen : w.tree.openFile cwd r.lock 0o666 = .ok (id, t))
      (hfree : w.locks.get? id = none) :
      Stands r cwd .free ⟨w, none⟩
  | held {record : Holder} {w : World σ} {h : Handle} {id : FileId} {loc : Location}
      (hheld : HeldAs h id w) (hfilled : w.tree.Filled)
      (hplace : w.tree.lookup cwd true r.lock = .ok (loc, .file id))
      (hcontent : w.tree.content id = record.toBytes)
      (hread : Holder.ofBytes? record.toBytes = some record) :
      Stands r cwd (.held record) ⟨w, some ⟨h, r.lock⟩⟩

/-- A process that finds the root where one in `cwd` finds it. -/
structure Finds (r : Root) (cwd : Location) (t : Tree) (p : Process) : Prop where
  start : r.lock.start p.cwd = r.lock.start cwd
  here : ∃ mode, t.node? p.cwd = some (.dir mode)
  id : p.id < Numeral.limit 32

variable {st : Tenure} {o : Outside σ}

theorem Finds.sound (hp : Finds r cwd w.tree p) (hclosed : w.tree.Closed) : (w.as p).IsSound :=
  ⟨hclosed, hp.here⟩

theorem Finds.mono {t' : Tree} (hp : Finds r cwd t p) (hk : RoutesKept t t') :
    Finds r cwd t' p := by
  obtain ⟨mode, hmode⟩ := hp.here
  exact ⟨hp.start, hk.dirs _ _ hmode, hp.id⟩

theorem Finds.read_recordNow (hp : Finds r cwd w.tree p)
    (hclock : ∀ x, (o.clock x).1 < Numeral.limit 64) (command : String) (a : Arch) :
    Holder.ofBytes? (recordNow o (w.as p) command a).toBytes =
      some (recordNow o (w.as p) command a) :=
  Holder.ofBytes?_toBytes hp.id (hclock _)

/-- One who has taken the lock has it, and the file holds the record and nothing else. -/
theorem stands_recorded (hw : w.IsSound) (hfilled : w.tree.Filled)
    (hopen : w.tree.openFile w.cwd r.lock 0o666 = .ok (id, t))
    (hstart : r.lock.start w.cwd = r.lock.start cwd)
    (hread : Holder.ofBytes? record.toBytes = some record) :
    Stands r cwd (.held record) ⟨recorded o id t record w, some ⟨w.nextHandle, r.lock⟩⟩ ∧
      RoutesKept w.tree (recorded o id t record w).tree := by
  have hdir := dir_start hw.cwd r.lock
  obtain ⟨hclosed, hkept⟩ := kept_of_openFile hw.closed hdir hopen
  obtain ⟨loc, hplace⟩ := lookup_of_openFile hopen
  have hsame : ∀ loc, (recorded o id t record w).tree.node? loc = t.node? loc :=
    fun _ => node?_setContent ..
  have hheld : HeldAs w.nextHandle id (recorded o id t record w) :=
    ⟨hclosed.congr hsame, ⟨_, SortedMap.get?_insert_self ..⟩, SortedMap.get?_insert_self ..,
      Nat.lt_succ_self _⟩
  have hfilled' : (recorded o id t record w).tree.Filled :=
    (hfilled.openFile hopen).setContent id _
  have hcontent :=
    content_setContent (lt_of_openFile hw.closed hdir hfilled hopen) record.toBytes
  have hroutes : RoutesKept w.tree (recorded o id t record w).tree :=
    .of_kept fun loc hloc => (hsame loc).trans (hkept loc hloc)
  exact ⟨.held hheld hfilled' ((lookup_congr hsame hstart.symm).trans hplace) hcontent hread,
    hroutes⟩

theorem expected_play_untried (hclock : ∀ x, (o.clock x).1 < Numeral.limit 64)
    (hclosed : w.tree.Closed) (hfilled : w.tree.Filled) (hfree : ∀ id, w.locks.get? id = none)
    (hact : ∀ p ∈ act.process?, Finds r cwd w.tree p) :
    ∃ st', Expected r .untried act (act.play o r ⟨w, none⟩).1 st' ∧
      Stands r cwd st' (act.play o r ⟨w, none⟩).2 ∧
      RoutesKept w.tree (act.play o r ⟨w, none⟩).2.world.tree := by
  cases act with
  | acquire p command a =>
      have hp := hact p rfl
      have htried : Tried o r command a (w.as p) _ := tried_acquire (hp.sound hclosed) hfree
      rw [Act.play]
      generalize (acquire r command a).run.run o (w.as p) = ended at htried
      cases htried with
      | failed hnew hclosed =>
          exact ⟨_, .failed, .untried hclosed (Root.filled_of_newDirs hnew hfilled) hfree,
            hnew.routesKept⟩
      | @taken id t t' hnew hclosed hopen =>
          have hread := hp.read_recordNow hclock command a
          have hsound : World.IsSound { w.as p with tree := t } :=
            ⟨hclosed, (hp.mono hnew.routesKept).here⟩
          have hfilled' := Root.filled_of_newDirs hnew hfilled
          obtain ⟨hstands, hroutes⟩ :=
            stands_recorded (o := o) hsound hfilled' hopen hp.start hread
          exact ⟨_, .taken nofun, hstands, hnew.routesKept.trans hroutes⟩
  | read p => exact ⟨_, .unknown nofun, .untried hclosed hfilled hfree, .refl _⟩
  | holder => exact ⟨_, .nothing (.inl rfl) nofun, .untried hclosed hfilled hfree, .refl _⟩
  | release => exact ⟨_, .nothing (.inr rfl) nofun, .untried hclosed hfilled hfree, .refl _⟩

theorem expected_play_free (hclock : ∀ x, (o.clock x).1 < Numeral.limit 64)
    (hclosed : w.tree.Closed) (hfilled : w.tree.Filled)
    (hopen : w.tree.openFile cwd r.lock 0o666 = .ok (id, t)) (hfree : w.locks.get? id = none)
    (hact : ∀ p ∈ act.process?, Finds r cwd w.tree p) :
    ∃ st', Expected r .free act (act.play o r ⟨w, none⟩).1 st' ∧
      Stands r cwd st' (act.play o r ⟨w, none⟩).2 ∧
      RoutesKept w.tree (act.play o r ⟨w, none⟩).2.world.tree := by
  cases act with
  | acquire p command a =>
      have hp := hact p rfl
      have hopen' : (w.as p).tree.openFile (w.as p).cwd r.lock 0o666 = .ok (id, t) :=
        (openFile_of_start hp.start _).trans hopen
      have hread := hp.read_recordNow hclock command a
      obtain ⟨hstands, hroutes⟩ :=
        stands_recorded (o := o) (hp.sound hclosed) hfilled hopen' hp.start hread
      rw [Act.play, run_acquire_of_openFile (hp.sound hclosed) hopen' hfree]
      exact ⟨_, .taken nofun, hstands, hroutes⟩
  | read p => exact ⟨_, .unknown nofun, .free hclosed hfilled hopen hfree, .refl _⟩
  | holder => exact ⟨_, .nothing (.inl rfl) nofun, .free hclosed hfilled hopen hfree, .refl _⟩
  | release => exact ⟨_, .nothing (.inr rfl) nofun, .free hclosed hfilled hopen hfree, .refl _⟩

/-- Reading its own record a run moves nothing but its place in the file. -/
theorem HeldAs.holder? (hheld : HeldAs h id w) (o : Outside σ) (q : Path) :
    HeldAs h id ((RootLock.holder? ⟨h, q⟩).run o w).2 ∧
      ((RootLock.holder? ⟨h, q⟩).run o w).2.tree = w.tree := by
  obtain ⟨offset, hfile⟩ := hheld.file
  have hrewind : w.rewind h = { w with handles := w.handles.insert h ⟨id, 0⟩ } := by
    rw [World.rewind, hfile]
  have hreadRest : ((w.rewind h).readRest h).2 =
      { w with
        handles := (w.handles.insert h ⟨id, 0⟩).insert h
          ⟨id, 0 + (w.tree.content id).length⟩ } := by
    simp [hrewind, World.readRest, World.file?]
  have hholder : ((RootLock.holder? ⟨h, q⟩).run o w).2 = ((w.rewind h).readRest h).2 := rfl
  rw [hholder, hreadRest]
  exact ⟨⟨hheld.closed, ⟨_, SortedMap.get?_insert_self ..⟩, hheld.locked, hheld.given⟩, rfl⟩

theorem expected_play_held {loc : Location} (hheld : HeldAs h id w) (hfilled : w.tree.Filled)
    (hplace : w.tree.lookup cwd true r.lock = .ok (loc, .file id))
    (hcontent : w.tree.content id = record.toBytes)
    (hread : Holder.ofBytes? record.toBytes = some record)
    (hact : ∀ p ∈ act.process?, Finds r cwd w.tree p) :
    ∃ st', Expected r (.held record) act (act.play o r ⟨w, some ⟨h, r.lock⟩⟩).1 st' ∧
      Stands r cwd st' (act.play o r ⟨w, some ⟨h, r.lock⟩⟩).2 ∧
      RoutesKept w.tree (act.play o r ⟨w, some ⟨h, r.lock⟩⟩).2.world.tree := by
  have hplace' : ∀ {p}, Finds r cwd w.tree p →
      w.tree.lookup p.cwd true r.lock = .ok (loc, .file id) :=
    fun hp => (lookup_congr (fun _ => rfl) hp.start).trans hplace
  -- Act by act. Only a release frees the lock, and none of the others writes to its file.
  cases act with
  | acquire p command a =>
      have hp := hact p rfl
      have hat : IsFile r id (w.as p).cwd (w.as p).tree := ⟨hp.here, loc, hplace' hp⟩
      obtain ⟨hres, hw⟩ := (throughout_acquire_held (o := o) (hheld.as p) hat command a).at_end
      rw [busy, show (w.as p).tree.content id = _ from hcontent, hread] at hres
      have hheld' := (hheld.as p).unmoved hw
      have htree : ((acquire r command a).run.run o (w.as p)).2.tree = w.tree := hw.tree
      rw [Act.play]
      dsimp only
      rw [hres]
      refine ⟨_, .refused,
        .held hheld' (htree ▸ hfilled) (htree ▸ hplace) (htree ▸ hcontent) hread, ?_⟩
      exact htree ▸ .refl _
  | read p =>
      have hseen : (w.as p).perform o (.read r.lock) = (.ok record.toBytes, w.as p) :=
        Prod.ext ((readFile_of_lookup (hplace' (hact p rfl))).trans (congrArg _ hcontent)) rfl
      rw [Act.play, hseen]
      exact ⟨_, .seen, .held (hheld.as p) hfilled hplace hcontent hread, .refl _⟩
  | holder =>
      have htold := hheld.run_holder? o r.lock
      rw [hcontent, hread] at htold
      obtain ⟨hheld', htree⟩ := hheld.holder? o r.lock
      rw [Act.play]
      dsimp only
      rw [htold]
      refine ⟨_, .told,
        .held hheld' (htree ▸ hfilled) (htree ▸ hplace) (htree ▸ hcontent) hread, ?_⟩
      exact htree ▸ .refl _
  | release =>
      have hunlocked : (w.close h).locks.get? id = none := by
        refine Option.eq_none_iff_forall_ne_some.mpr fun h' hh' => ?_
        obtain ⟨hlock, hne⟩ := SortedMap.get?_filter_eq_some_iff.mp hh'
        exact of_decide_eq_true hne (Option.some.inj (hlock.symm.trans hheld.locked))
      exact ⟨_, .released, .free hheld.closed hfilled (openFile_of_lookup hplace _) hunlocked,
        .refl _⟩

theorem expected_play (hclock : ∀ x, (o.clock x).1 < Numeral.limit 64) (hs : Stands r cwd st s)
    (hact : ∀ p ∈ act.process?, Finds r cwd s.world.tree p) :
    ∃ st', Expected r st act (act.play o r s).1 st' ∧ Stands r cwd st' (act.play o r s).2 ∧
      RoutesKept s.world.tree (act.play o r s).2.world.tree := by
  cases hs with
  | untried hclosed hfilled hfree =>
      exact expected_play_untried hclock hclosed hfilled hfree hact
  | free hclosed hfilled hopen hfree =>
      exact expected_play_free hclock hclosed hfilled hopen hfree hact
  | held hheld hfilled hplace hcontent hread =>
      exact expected_play_held hheld hfilled hplace hcontent hread hact

/-- **The record of a tenure.** Whatever is done about a lock, in whatever order and
however often, comes to what is to be expected: who takes it puts a record in place of all
that was in the file, reads just that record back, and is named by it to all who ask before
the lock has been given back. -/
theorem expecteds_plays (hclock : ∀ x, (o.clock x).1 < Numeral.limit 64)
    (hs : Stands r cwd st s)
    (hacts : ∀ act ∈ acts, ∀ p ∈ act.process?, Finds r cwd s.world.tree p) :
    ∃ st', Expecteds r st acts (Act.plays o r acts s).1 st' ∧
      Stands r cwd st' (Act.plays o r acts s).2 := by
  induction acts generalizing st s with
  | nil => exact ⟨st, .nil, hs⟩
  | cons act acts ih =>
      obtain ⟨st₁, hfirst, hs₁, hroutes⟩ :=
        expected_play hclock hs (hacts act List.mem_cons_self)
      obtain ⟨st₂, hothers, hs₂⟩ := ih hs₁ fun act' hact' p hp =>
        (hacts act' (List.mem_cons_of_mem _ hact') p hp).mono hroutes
      exact ⟨st₂, .cons hfirst hothers, hs₂⟩

def scribbled (content : Bytes) : World Unit :=
  let unplaced : Tree := ⟨.empty, [⟨0o644, content⟩]⟩
  let tree :=
    (unplaced.put (["llvm"].map Utf8.encode) (.dir 0o755)).put
      (["llvm", ".lock"].map Utf8.encode)
    (.file 0)
  .fresh tree [] .empty 1 ()

theorem stands_scribbled (content : Bytes) :
    Stands ⟨"llvm"⟩ [] .free (⟨scribbled content, none⟩ : Scene Unit) := by
  have hopen : (scribbled content).tree.openFile [] (Root.mk "llvm").lock 0o666 =
      .ok (0, (scribbled content).tree) := by cbv
  exact .free (.of_entries (by cbv)) (.of_entries (by cbv)) hopen rfl

def twoTenures : List Act :=
  let p : Process := ⟨[], .empty, 7⟩
  let q : Process := ⟨[], .empty, 8⟩
  [.read q, .acquire p "build \"x\"\n" .x64, .read q, .holder, .acquire q "doc" .x86,
    .holder, .release,
    .acquire q "doc" .x86, .read p, .acquire p "setup" .x64, .holder, .release, .holder]

theorem expecteds_plays_twoTenures :
    let s : Scene Unit := ⟨scribbled (List.replicate 1000 0x7b), none⟩
    Stands ⟨"llvm"⟩ [] .free s ∧
      (∀ act ∈ twoTenures, ∀ p ∈ act.process?, Finds ⟨"llvm"⟩ [] s.world.tree p) ∧
      ∃ st', Expecteds ⟨"llvm"⟩ .free twoTenures
        (Act.plays Archive.silent ⟨"llvm"⟩ twoTenures s).1 st' ∧
        Stands ⟨"llvm"⟩ [] st' (Act.plays Archive.silent ⟨"llvm"⟩ twoTenures s).2 := by
  intro s
  have hfinds : ∀ act ∈ twoTenures, ∀ p ∈ act.process?, Finds ⟨"llvm"⟩ [] s.world.tree p := by
    have hmine : ∀ act ∈ twoTenures, ∀ p ∈ act.process?, p.cwd = [] ∧ p.id ≤ 8 := by
      simp [twoTenures, Act.process?]
    intro act hact p hp
    obtain ⟨hcwd, hid⟩ := hmine act hact p hp
    exact ⟨by rw [hcwd], ⟨0o755, by rw [hcwd]; rfl⟩, Nat.lt_of_le_of_lt hid (by decide)⟩
  have hclock : ∀ x, (Archive.silent.clock x).1 < Numeral.limit 64 :=
    fun _ => Nat.two_pow_pos 64
  exact ⟨stands_scribbled _, hfinds, expecteds_plays hclock (stands_scribbled _) hfinds⟩

end RootLock

end LlvmBootstrap
