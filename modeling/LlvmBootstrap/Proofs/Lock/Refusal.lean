import Mathlib
import LlvmBootstrap.Proofs.Lock.Record
import LlvmBootstrap.Proofs.Root.Together
import LlvmBootstrap.Proofs.Run.Again

/-!
Runs that are refused. While a run has the lock of a root, whoever else asks for it is refused
and told what stands in the lock file, whatever that is. Such a run makes the few calls by
which it finds out, and they change nothing; so however many are refused, the one that has the
lock has it still and reads its own record.
-/

namespace LlvmBootstrap

open LlvmBootstrap.Tree Program

theorem Tree.openFile_of_lookup {t : Tree} {cwd loc : Location} {p : Path} {id : FileId}
    (h : t.lookup cwd true p = .ok (loc, .file id)) (mode : Mode) :
    t.openFile cwd p mode = .ok (id, t) := by
  rw [Tree.lookup] at h
  split at h
  · next hresolve =>
    obtain ⟨rfl, rfl⟩ := Prod.mk.inj (Except.ok.inj h)
    rw [openFile, hresolve]
    rfl
  · contradiction
  · contradiction

theorem Tree.readFile_of_lookup {t : Tree} {cwd loc : Location} {p : Path} {id : FileId}
    (h : t.lookup cwd true p = .ok (loc, .file id)) :
    t.readFile cwd p = .ok (t.content id) := by
  rw [readFile, h]
  rfl

namespace RootLock

variable {σ : Type} {o : Outside σ} {r : Root} {a : Arch} {w w' w'' : World σ}
  {h : Handle} {id : FileId} {command : String} {t t' : Toolchain} {tr : List Answered}

/-- The calls of a run that is refused the lock of a root. -/
inductive AsksFor (r : Root) : Call → Prop
  | making {c : Call} (hc : Making [r.path] c) : AsksFor r c
  | openFile : AsksFor r (.openFile r.lock)
  | tryLock (h : Handle) : AsksFor r (.tryLock h)
  | read : AsksFor r (.read r.lock)
  | close (h : Handle) : AsksFor r (.close h)
  | clock : AsksFor r .clock

/-! ### What a refused run leaves as it was -/

/-- The file `id` is open as `h`, which has its lock. -/
structure HeldAs (h : Handle) (id : FileId) (w : World σ) : Prop where
  closed : w.tree.Closed
  file : ∃ offset, w.file? h = some ⟨id, offset⟩
  locked : w.locks.get? id = some h
  given : h < w.nextHandle

/-- The lock file of the root is the file `id` for one who is in the directory `cwd`. -/
structure IsFile (r : Root) (id : FileId) (cwd : Location) (t : Tree) : Prop where
  here : ∃ mode, t.node? cwd = some (.dir mode)
  place : ∃ loc, t.lookup cwd true r.lock = .ok (loc, .file id)

structure Unmoved (w w' : World σ) : Prop where
  tree : w'.tree = w.tree
  file : ∀ h < w.nextHandle, w'.file? h = w.file? h
  locked : ∀ id, ∀ h < w.nextHandle, w.locks.get? id = some h → w'.locks.get? id = some h
  given : w.nextHandle ≤ w'.nextHandle
  events : w'.events = w.events
  out : w'.out = w.out
  err : w'.err = w.err

theorem Unmoved.refl (w : World σ) : Unmoved w w :=
  ⟨rfl, fun _ _ => rfl, fun _ _ _ h => h, Nat.le_refl _, rfl, rfl, rfl⟩

theorem Unmoved.trans (hw : Unmoved w w') (hw' : Unmoved w' w'') : Unmoved w w'' where
  tree := hw'.tree.trans hw.tree
  file h hh := (hw'.file h (Nat.lt_of_lt_of_le hh hw.given)).trans (hw.file h hh)
  locked id h hh hlock :=
    hw'.locked id h (Nat.lt_of_lt_of_le hh hw.given) (hw.locked id h hh hlock)
  given := Nat.le_trans hw.given hw'.given
  events := hw'.events.trans hw.events
  out := hw'.out.trans hw.out
  err := hw'.err.trans hw.err

theorem HeldAs.unmoved (hheld : HeldAs h id w) (hw : Unmoved w w') : HeldAs h id w' where
  closed := hw.tree ▸ hheld.closed
  file := by
    rw [hw.file h hheld.given]
    exact hheld.file
  locked := hw.locked id h hheld.given hheld.locked
  given := Nat.lt_of_lt_of_le hheld.given hw.given

theorem HeldAs.as (hheld : HeldAs h id w) (p : Process) : HeldAs h id (w.as p) :=
  ⟨hheld.closed, hheld.file, hheld.locked, hheld.given⟩

/-- The one that has the lock reads what stands in the lock file. -/
theorem HeldAs.run_holder? (hheld : HeldAs h id w) (o : Outside σ) (p : Path) :
    ((holder? ⟨h, p⟩).run o w).1 = Holder.ofBytes? (w.tree.content id) := by
  obtain ⟨offset, hfile⟩ := hheld.file
  rw [World.file?] at hfile
  have hrewind : w.rewind h = { w with handles := w.handles.insert h ⟨id, 0⟩ } := by
    simp [World.rewind, World.file?, hfile]
  have hread : ((w.rewind h).readRest h).1 = w.tree.content id := by
    simp [hrewind, World.readRest, World.file?]
  have hholder : ((holder? ⟨h, p⟩).run o w).1 = Holder.ofBytes? ((w.rewind h).readRest h).1 :=
    rfl
  rw [hholder, hread]

/-! ### One run -/

def reopened (id : FileId) (w : World σ) : World σ :=
  { w with handles := w.handles.insert w.nextHandle ⟨id, 0⟩, nextHandle := w.nextHandle + 1 }

theorem perform_openFile (hat : IsFile r id w.cwd w.tree) :
    w.perform o (.openFile r.lock) = (.ok w.nextHandle, reopened id w) := by
  obtain ⟨loc, hloc⟩ := hat.place
  have hopen : w.openFile r.lock = (.ok w.nextHandle, reopened id w) := by
    rw [World.openFile, openFile_of_lookup hloc]
    rfl
  exact hopen

/-- The lock is not given to a handle that is new while another one has it. -/
theorem perform_tryLock (hheld : HeldAs h id w) :
    (reopened id w).perform o (.tryLock w.nextHandle) = (.ok false, reopened id w) := by
  have hfile : (reopened id w).file? w.nextHandle = some ⟨id, 0⟩ :=
    SortedMap.get?_insert_self ..
  have hlocked : (reopened id w).locks.get? id = some h := hheld.locked
  have htry : (reopened id w).tryLock w.nextHandle = (false, reopened id w) := by
    simp only [World.tryLock, hfile, hlocked, Nat.ne_of_lt hheld.given, decide_false]
  have hperform : (reopened id w).perform o (.tryLock w.nextHandle) =
      (.ok ((reopened id w).tryLock w.nextHandle).1,
        ((reopened id w).tryLock w.nextHandle).2) := rfl
  rw [hperform, htry]

theorem perform_read (hat : IsFile r id w.cwd w.tree) :
    (reopened id w).perform o (.read r.lock) = (.ok (w.tree.content id), reopened id w) := by
  obtain ⟨loc, hloc⟩ := hat.place
  exact Prod.ext (readFile_of_lookup hloc) rfl

theorem unmoved_closed (id : FileId) (w : World σ) :
    Unmoved w (((reopened id w).close w.nextHandle).perform o .clock).2 where
  tree := rfl
  file h hh := by
    have hne : h ≠ w.nextHandle := Nat.ne_of_lt hh
    exact (SortedMap.get?_erase_of_ne _ hne).trans (SortedMap.get?_insert_of_ne _ _ hne)
  locked id h hh hlock := SortedMap.get?_filter_eq_some_iff.mpr
    ⟨hlock, decide_eq_true (Nat.ne_of_lt hh)⟩
  given := Nat.le_succ _
  events := rfl
  out := rfl
  err := rfl

def busy (o : Outside σ) (r : Root) (id : FileId) (w : World σ) : LockError :=
  .busy r (Holder.ofBytes? (w.tree.content id)) (o.clock w.outside).1

theorem throughout_take_held (hheld : HeldAs h id w) (hat : IsFile r id w.cwd w.tree)
    (command : String) (a : Arch) :
    (take r command a).run.Throughout o (fun _ c => AsksFor r c)
      (fun res w' => res = .error (busy o r id w) ∧ Unmoved w w') w := by
  refine Throughout.attempt_call_bind_iff.mpr ⟨.openFile, ?_⟩
  rw [perform_openFile hat]
  refine Throughout.attempt_call_bind_iff.mpr ⟨.tryLock _, ?_⟩
  rw [perform_tryLock hheld]
  refine Throughout.attempt_lift_bind_iff.mpr ?_
  rw [otherHolder_eq]
  refine Throughout.call_bind_iff.mpr ⟨.read, ?_⟩
  rw [perform_read hat]
  refine Throughout.pure_iff.mpr ?_
  refine Throughout.attempt_call_bind_iff.mpr ⟨.close _, ?_⟩
  exact Throughout.attempt_call_bind_iff.mpr ⟨.clock, rfl, unmoved_closed id w⟩

theorem throughout_acquire_held (hheld : HeldAs h id w) (hat : IsFile r id w.cwd w.tree)
    (command : String) (a : Arch) :
    (acquire r command a).run.Throughout o (fun _ c => AsksFor r c)
      (fun res w' => res = .error (busy o r id w) ∧ Unmoved w w') w := by
  obtain ⟨loc, hloc⟩ := hat.place
  have hsound : w.IsSound := ⟨hheld.closed, hat.here⟩
  obtain ⟨hp, hwalk⟩ := lookup_eq_ok hloc
  have hresolve : w.tree.resolve w.cwd true r.lock = .ok (.found loc (.file id)) := by
    rw [resolve_eq, hp]
    exact hwalk
  obtain ⟨top, hr⟩ :=
    Reaches.of_resolve hsound.closed (dir_start hsound.cwd r.path) r.extends_lock hresolve
  have hmakes := Root.run_makeDirs_of_resolve (o := o) hsound Root.isPlain_lockName hresolve
  have hmaking := (throughout_makeDirs_of_reaches (o := o) hr
    (C := fun _ c => AsksFor r c) fun _ hc => .making hc).result
  rw [acquire_eq]
  refine Throughout.adapt_bind hmaking ?_ ?_
  · rintro ⟨⟩ w' ⟨rfl, -⟩
    exact throughout_take_held hheld hat command a
  · rintro e w' ⟨-, hfails⟩
    rw [hmakes] at hfails
    exact absurd (congrArg Prod.fst hfails) (by simp)

/-- Whoever asks for the lock while another run has it is refused, and nothing has changed. -/
theorem refused_of_goes {res : Except LockError RootLock} (hheld : HeldAs h id w)
    (hat : IsFile r id w.cwd w.tree) (hgoes : (acquire r command a).run.Goes o w res tr w') :
    res = .error (busy o r id w) ∧ Unmoved w w' ∧ ∀ x ∈ tr, AsksFor r x.call := by
  obtain ⟨⟨hres, hw⟩, htr⟩ := hgoes.of_throughout (throughout_acquire_held hheld hat command a)
  exact ⟨hres, hw, htr⟩

end RootLock

namespace Bootstrap

open RootLock

variable {σ : Type} {o : Outside σ} {v : Bootstrap} {a : Arch} {command : String}
  {w w' : World σ} {t t' : Toolchain} {c i d : Option Tried} {tr : List Answered}
  {h : Handle} {id : FileId}

/-- A run that cannot take the lock ends with that, before the
toolchain is asked for anything. -/
theorem PrepareCourse.of_held {res : Except BootstrapError Path} (hheld : HeldAs h id w)
    (hat : IsFile v.root id w.cwd w.tree)
    (hcourse : PrepareCourse o v a command t w c i res t' tr w') :
    (res = .error (.lock (busy o v.root id w)) ∧ t' = t) ∧ Unmoved w w' ∧
      ∀ x ∈ tr, AsksFor v.root x.call := by
  cases hcourse with
  | refused hlock =>
      obtain ⟨he, hw, htr⟩ := refused_of_goes hheld hat hlock
      exact ⟨⟨by rw [Except.error.inj he], rfl⟩, hw, htr⟩
  | held hlock =>
      have hrefused := (refused_of_goes hheld hat hlock).1
      contradiction

theorem Course.of_held {q : Request} {res : Except BootstrapError Unit} (hheld : HeldAs h id w)
    (hat : IsFile v.root id w.cwd w.tree) (hcourse : Course o v q w c i d res tr w') :
    res = .error (.lock (busy o v.root id w)) ∧ Unmoved w w' ∧
    ∀ x ∈ tr, AsksFor v.root x.call := by
  cases hcourse with
  | unprepared hprepare =>
      obtain ⟨⟨he, -⟩, hw, htr⟩ := hprepare.of_held hheld hat
      exact ⟨congrArg Except.error (Except.error.inj he), hw, htr⟩
  | prepared hprepare =>
      have hrefused := (hprepare.of_held hheld hat).1.1
      contradiction

end Bootstrap

/-! ### Any number of runs -/

inductive Bid where
  | acquire (r : Root) (command : String) (a : Arch)
  | prepare (v : Bootstrap) (a : Arch) (command : String) (t : Toolchain)
  | run (v : Bootstrap) (q : Request)

namespace Bid

open RootLock

def root : Bid → Root
  | .acquire r _ _ => r
  | .prepare v _ _ _ | .run v _ => v.root

def toolchain? : Bid → Option Toolchain
  | .prepare _ _ _ t => some t
  | .acquire .. | .run .. => none

/-- Gives the error, if there is one, and what has become of the toolchain. -/
def program : Bid → Program (Except BootstrapError Unit × Option Toolchain)
  | .acquire r command a =>
    (RootLock.acquire r command a).run >>= fun res =>
  pure ((res.mapError .lock).map fun _ => (), none)
  | .prepare v a command t =>
    (v.prepare a command).start t >>= fun res => pure (res.1.map fun _ => (), some res.2)
  | .run v q => v.run q >>= fun res => pure (res, none)

structure Outcome where
  result : Except BootstrapError Unit × Option Toolchain
  calls : List Answered

variable {σ : Type} {o : Outside σ} {w w' : World σ} {h : Handle} {id : FileId} {b : Bid}

/-- The bids in turn, each in a process of its own. -/
def inTurn (o : Outside σ) : List (Process × Bid) → World σ → List Outcome × World σ
  | [], w => ([], w)
  | (p, b) :: bids, w =>
    let ended := b.program.run o (w.as p)
    let others := inTurn o bids ended.2
    (⟨ended.1, b.program.trace o (w.as p)⟩ :: others.1, others.2)

/-- The bid is refused with what stands in the lock file, and nothing else is done. -/
structure IsRefused (content : Bytes) (b : Bid) (out : Outcome) : Prop where
  result : ∃ now, out.result =
    (.error (.lock (.busy b.root (Holder.ofBytes? content) now)), b.toolchain?)
  calls : ∀ x ∈ out.calls, AsksFor b.root x.call

theorem goes_refused {res : Except BootstrapError Unit × Option Toolchain} {tr : List Answered}
    (hheld : HeldAs h id w) (hat : IsFile b.root id w.cwd w.tree)
    (hgoes : b.program.Goes o w res tr w') :
    b.IsRefused (w.tree.content id) ⟨res, tr⟩ ∧ Unmoved w w' := by
  cases b with
  | acquire r command a =>
      obtain ⟨taken, w₁, tr₁, tr₂, htaken, hrest, rfl⟩ := hgoes.of_bind
      obtain ⟨rfl, rfl, rfl⟩ := hrest.of_pure
      obtain ⟨rfl, hw, htr⟩ := refused_of_goes hheld hat htaken
      rw [List.append_nil]
      exact ⟨⟨⟨_, rfl⟩, htr⟩, hw⟩
  | prepare v a command t =>
      obtain ⟨⟨prepared, t'⟩, w₁, tr₁, tr₂, hprepared, hrest, rfl⟩ := hgoes.of_bind
      obtain ⟨rfl, rfl, rfl⟩ := hrest.of_pure
      obtain ⟨c, i, hcourse⟩ := Bootstrap.prepareCourse_of_goes hprepared
      obtain ⟨⟨rfl, rfl⟩, hw, htr⟩ := hcourse.of_held hheld hat
      rw [List.append_nil]
      exact ⟨⟨⟨_, rfl⟩, htr⟩, hw⟩
  | run v q =>
      obtain ⟨ended, w₁, tr₁, tr₂, hended, hrest, rfl⟩ := hgoes.of_bind
      obtain ⟨rfl, rfl, rfl⟩ := hrest.of_pure
      obtain ⟨c, i, d, hcourse⟩ := Bootstrap.course_of_goes hended
      obtain ⟨rfl, hw, htr⟩ := hcourse.of_held hheld hat
      rw [List.append_nil]
      exact ⟨⟨⟨_, rfl⟩, htr⟩, hw⟩

/-- However many there are, all are refused. -/
theorem inTurn_refused {bids : List (Process × Bid)} (hheld : HeldAs h id w)
    (hat : ∀ x ∈ bids, IsFile x.2.root id x.1.cwd w.tree) :
    List.Forall₂ (fun x out => x.2.IsRefused (w.tree.content id) out) bids
      (inTurn o bids w).1 ∧
      Unmoved w (inTurn o bids w).2 := by
  induction bids generalizing w with
  | nil => exact ⟨.nil, .refl w⟩
  | cons x bids ih =>
      obtain ⟨p, b⟩ := x
      have hfirst : IsFile b.root id (w.as p).cwd (w.as p).tree := hat _ List.mem_cons_self
      obtain ⟨hrefused, hw⟩ := goes_refused (hheld.as p) hfirst (Goes.run o b.program (w.as p))
      have hheld' := (hheld.as p).unmoved hw
      have htree : (b.program.run o (w.as p)).2.tree = w.tree := hw.tree
      have hmoved : Unmoved w (b.program.run o (w.as p)).2 :=
        ⟨hw.tree, hw.file, hw.locked, hw.given, hw.events, hw.out, hw.err⟩
      obtain ⟨hothers, hw'⟩ := ih hheld' fun x hx => htree ▸ hat x (List.mem_cons_of_mem _ hx)
      rw [htree] at hothers
      exact ⟨.cons hrefused hothers, hmoved.trans hw'⟩

/-- **A refused run changes nothing.** While a run has the lock, all others that ask for it are
told that it is busy, and what stands in the lock file if that can be read as a record. They
have made no call but those by which they have found out; the tree is what it was, and the run
that has the lock has it still and reads what it has written. -/
theorem refused_changesNothing {bids : List (Process × Bid)} (hheld : HeldAs h id w)
    (hat : ∀ x ∈ bids, IsFile x.2.root id x.1.cwd w.tree) :
    let content := w.tree.content id
    let ended := inTurn o bids w
    (∀ record, Holder.ofBytes? content = some record ↔
      ∃ text v, Utf8.encode text = content ∧ Json.ofText? text = some v ∧ v.Describes record) ∧
    List.Forall₂ (fun x out => x.2.IsRefused content out) bids ended.1 ∧
    ended.2.tree = w.tree ∧ ended.2.locks.get? id = some h ∧
    ∀ p, ((holder? ⟨h, p⟩).run o ended.2).1 = Holder.ofBytes? content := by
  obtain ⟨hrefused, hw⟩ := inTurn_refused (o := o) hheld hat
  have hheld' := hheld.unmoved hw
  refine ⟨fun record => Holder.ofBytes?_eq_some_iff, hrefused, hw.tree,
    hheld'.locked, fun p => ?_⟩
  rw [hheld'.run_holder? o p, hw.tree]

/-- A run has the lock of `llvm` as its handle 3, and `content` stands in the lock file. -/
def lockedWith (content : Bytes) : World Unit :=
  let unplaced : Tree := ⟨.empty, [⟨0o644, content⟩]⟩
  let tree := (unplaced.put (["llvm"].map Utf8.encode) (.dir 0o755)).put
    (["llvm", ".lock"].map Utf8.encode) (.file 0)
  { World.fresh tree [] .empty 1 () with
    handles := .ofList [(3, ⟨0, 0⟩)]
    nextHandle := 4
    locks := .ofList [(0, 3)] }

def three : List (Process × Bid) :=
  let v : Bootstrap := ⟨.default, ⟨"llvm"⟩, Platform.unix ⟨.linux, .empty, none⟩⟩
  [(⟨[], .empty, 2⟩, .acquire v.root "setup" .x86),
    (⟨[], .empty, 3⟩, .prepare v .x64 "setup" (.of .x64)),
    (⟨[], .empty, 4⟩, .run v ⟨.x64, false, .build, []⟩)]

theorem heldAs_lockedWith (content : Bytes) : HeldAs 3 0 (lockedWith content) :=
  ⟨.of_entries (by cbv), ⟨0, rfl⟩, rfl, Nat.lt_succ_self 3⟩

theorem isFile_lockedWith (content : Bytes) :
    ∀ x ∈ three, IsFile x.2.root 0 x.1.cwd (lockedWith content).tree := by
  have hplace : (lockedWith content).tree.lookup [] true (Root.mk "llvm").lock =
      .ok ([Utf8.encode "llvm", Utf8.encode ".lock"], .file 0) := by cbv
  have hsame : ∀ x ∈ three, x.2.root = ⟨"llvm"⟩ ∧ x.1.cwd = [] := by simp [three, root]
  intro x hx
  rw [(hsame x hx).1, (hsame x hx).2]
  exact ⟨⟨0o755, rfl⟩, _, hplace⟩

/-- All three are told of the record of a run, but of one that is not
whole they are told nothing. -/
theorem refused_changesNothing_asWritten :
    let record : Holder := ⟨7, "build", .x86, 1700000000⟩
    let part := lockedWith (Utf8.encode "\x7b\"pid\":7")
    let whole := lockedWith record.toBytes
    (HeldAs 3 0 part ∧ ∀ x ∈ three, IsFile x.2.root 0 x.1.cwd part.tree) ∧
      (HeldAs 3 0 whole ∧ ∀ x ∈ three, IsFile x.2.root 0 x.1.cwd whole.tree) ∧
      List.Forall₂ (fun x out => ∃ now, out.result =
        (.error (.lock (.busy x.2.root none now)), x.2.toolchain?))
        three (inTurn Archive.silent three part).1 ∧
      List.Forall₂ (fun x out => ∃ now, out.result =
        (.error (.lock (.busy x.2.root (some record) now)), x.2.toolchain?))
        three (inTurn Archive.silent three whole).1 ∧
      (inTurn Archive.silent three part).2.tree = part.tree ∧
      (inTurn Archive.silent three whole).2.tree = whole.tree := by
  intro record part whole
  have hnone : Holder.ofBytes? (part.tree.content 0) = none := by cbv
  have hsome : Holder.ofBytes? (whole.tree.content 0) = some record :=
    Holder.ofBytes?_toBytes (by decide) (by decide)
  obtain ⟨-, hpart, hpartTree, -⟩ :=
    refused_changesNothing (o := Archive.silent) (heldAs_lockedWith _) (isFile_lockedWith _)
  obtain ⟨-, hwhole, hwholeTree, -⟩ :=
    refused_changesNothing (o := Archive.silent) (heldAs_lockedWith _) (isFile_lockedWith _)
  refine ⟨⟨heldAs_lockedWith _, isFile_lockedWith _⟩,
    ⟨heldAs_lockedWith _, isFile_lockedWith _⟩,
    hpart.imp fun x out hout => ?_, hwhole.imp fun x out hout => ?_, hpartTree, hwholeTree⟩
  · rw [← hnone]
    exact hout.result
  · rw [← hsome]
    exact hout.result

end Bid

end LlvmBootstrap
