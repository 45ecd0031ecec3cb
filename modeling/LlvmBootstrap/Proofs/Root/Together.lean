import Mathlib
import LlvmBootstrap.Proofs.Root.Handled
import LlvmBootstrap.Proofs.Root.LockFile

/-!
Runs on one root that take turns, one call at a time and in any order. Each has a process of
its own; they share the files, the open handles and the locks. What one run does in its turn is
what the others count on, so all runs keep to what each of them does alone.
-/

namespace LlvmBootstrap

open LlvmBootstrap.Tree Program

structure Process where
  cwd : Location
  environ : Environ
  id : Nat

def World.as {σ : Type} (w : World σ) (p : Process) : World σ :=
  { w with cwd := p.cwd, environ := p.environ, processId := p.id }

inductive Errand where
  | prepare (a : Arch) (command : String)
  | run (q : Request)

structure Job where
  settings : Settings
  platform : Platform
  errand : Errand
  process : Process

namespace Job

def bootstrap (j : Job) (r : Root) : Bootstrap := ⟨j.settings, r, j.platform⟩

def program (j : Job) (r : Root) : Program (Except BootstrapError Unit) :=
  match j.errand with
  | .prepare a command =>
    ((j.bootstrap r).prepare a command).start (.of a) >>= fun res =>
      pure (res.1.map fun _ => ())
  | .run q => (j.bootstrap r).run q

end Job

/-- Runs with what is left of their programs, and all calls so far, in order. -/
structure Together (ι σ : Type) where
  world : World σ
  left : ι → Program (Except BootstrapError Unit)
  history : List (ι × Answered)

namespace Together

variable {ι σ : Type} [DecidableEq ι]

def callsOf (i : ι) (history : List (ι × Answered)) : List Answered :=
  (history.filter (·.1 = i)).map (·.2)

def past (s : Together ι σ) (i : ι) : List Answered := callsOf i s.history

def start (r : Root) (jobs : ι → Job) (w : World σ) : Together ι σ :=
  ⟨w, fun i => (jobs i).program r, []⟩

/-- It is the turn of the run `i`, whose next call is made and answered as `x` says. -/
inductive Turn (o : Outside σ) (jobs : ι → Job) (i : ι) (x : Answered) :
    Together ι σ → Together ι σ → Prop
  | turn {s : Together ι σ} {next : x.call.Answer → Program (Except BootstrapError Unit)}
      {w : World σ} (hleft : s.left i = .call x.call next)
      (hp : (s.world.as (jobs i).process).Performs o x.call x.answer w) :
      Turn o jobs i x s ⟨w, Function.update s.left i (next x.answer), s.history ++ [(i, x)]⟩

def Steps (o : Outside σ) (jobs : ι → Job) : Together ι σ → Together ι σ → Prop :=
  Relation.ReflTransGen fun s s' => ∃ i x, Turn o jobs i x s s'

/-- Turns of the runs of a schedule, in its order. Where nothing fails by
itself, that is all there is to say. -/
def play (o : Outside σ) (jobs : ι → Job) : List ι → Together ι σ → Together ι σ
  | [], s => s
  | i :: is, s =>
    match s.left i with
    | .done _ => play o jobs is s
    | .call c next =>
      let answered := (s.world.as (jobs i).process).perform o c
      play o jobs is ⟨answered.2, Function.update s.left i (next answered.1),
        s.history ++ [(i, ⟨c, answered.1⟩)]⟩

theorem steps_play (o : Outside σ) (jobs : ι → Job) (is : List ι) (s : Together ι σ) :
    Steps o jobs s (play o jobs is s) := by
  induction is generalizing s with
  | nil => exact .refl
  | cons i is ih =>
      rw [play]
      split
      · exact ih s
      · next c next hleft =>
        exact .head ⟨i, ⟨c, _⟩, .turn hleft (.done c)⟩ (ih _)

theorem past_concat (w : World σ) (left : ι → Program (Except BootstrapError Unit))
    (history : List (ι × Answered)) (j : ι) (x : Answered) :
    (⟨w, left, history ++ [(j, x)]⟩ : Together ι σ).past =
      Root.Handled.next (fun i => callsOf i history) j x := by
  funext i
  by_cases hij : i = j
  · subst hij
    rw [Root.Handled.next_self]
    simp [past, callsOf]
  · rw [Root.Handled.next_of_ne hij]
    simp [past, callsOf, Ne.symm hij]

end Together

namespace Root

variable {ι σ : Type} {o : Outside σ} {r : Root} {w w' : World σ} {c : Call}
  {answer : c.Answer} {past : List Answered} {top : Location} {id : FileId} {i j : ι}
  {x : Answered} {jobs : ι → Job} {cwd : Location} {h : Handle}

/-! ### One run amid the others -/

/-- What a job is asked for it does, whatever the others do meanwhile. -/
theorem amid_program (ho : SparesLock o r) (hd : o.DrawsPlain) (job : Job) (w : World σ) :
    (job.program r).Amid o (Meanwhile o r) (Obeys r)
      (fun res past' _ => Ended r res past') [] w := by
  have hasks : (job.bootstrap r).host.OnlyAsks := job.platform.onlyAsks
  rw [Job.program]
  cases job.errand with
  | prepare a command =>
      refine (amid_prepare ho hd rfl hasks a command (.of a) w).bind ?_
      rintro ⟨e | install, t⟩ past' w' hend
      · refine ⟨⟨hend.1.released, ?_⟩, nofun⟩
        rintro r' holder now hres
        exact hend.1.refused r' holder now (by rw [Except.error.inj hres])
      · exact ⟨⟨hend.1.released, nofun⟩, fun _ => hend.2 ⟨install, rfl⟩⟩
  | run q => exact amid_run ho hd rfl hasks q w

/-- A run that does not hold the lock leaves the staging directories alone. -/
theorem Obeys.sameStaging (ho : SparesLock o r) (hw : LockAt r w.cwd top id w.tree)
    (hc : Obeys r past w c) (hno : ∀ h, ¬ Holds r past h) (hp : w.Performs o c answer w') :
    SameStaging o top w.tree w'.tree := by
  have hsame : (∀ loc, w'.tree.node? loc = w.tree.node? loc) →
      SameStaging o top w.tree w'.tree :=
    fun hn x _ rel => hn _
  cases hc with
  | idle hc =>
      obtain ⟨-, rfl⟩ := hp.sure hc.not_mayFail
      exact hsame fun loc => by rw [w.tree_of_isIdle o hc]
  | @way q hq =>
      -- The root is there, and so is all on the way to it.
      obtain ⟨-, rfl⟩ := hp.sure not_false
      have hdir : ∃ mode, w.tree.node? (r.path.start w.cwd) = some (.dir mode) :=
        r.start_lock w.cwd ▸ hw.start
      obtain ⟨loc', hr⟩ := hw.reaches.of_isOnWay hw.closed hdir hq
      cases happ : (Change.mkdir q).apply w.tree w.cwd with
      | error e => exact hsame fun loc => by rw [World.perform_change_error happ]
      | ok t' =>
          rw [Change.apply, hr.mkdir] at happ
          contradiction
  | openFile hopened =>
      obtain ⟨-, rfl⟩ := hp.sure not_false
      refine hsame fun loc => ?_
      rw [World.perform, World.openFile]
      cases hopen : w.tree.openFile w.cwd r.lock 0o666 with
      | error e => rfl
      | ok opened =>
          obtain ⟨-, ht⟩ := hw.openFile hopen
          exact congrArg (·.node? loc) ht
  | tryLock hh => exact hsame (hp.byHandle rfl).nodes
  | close hh => exact hsame (hp.byHandle rfl).nodes
  | truncate hh | rewind hh | write _ hh | stage _ hh | effect hh => exact absurd hh (hno _)
  | collect cmd hopen | @tool cmd hopen =>
      obtain ⟨-, rfl⟩ := hp.sure not_false
      rw [(perform_spawn o w _ cmd).2.1]
      exact (ho ⟨w.cwd, w.environ⟩ _ cmd w.tree w.outside top id hw).staging

/-- Whatever a run may do, the lock file is as fresh as it was, or it has just been opened. -/
theorem Obeys.fresh (hf : r.Fresh w.cwd w.tree) (hno : ¬ HasOpened r past)
    (hc : Obeys r past w c) (hp : w.Performs o c answer w') :
    w.SameHandles w' ∧ (∀ h, ¬ (⟨c, answer⟩ : Answered).Concerns r h) ∧
        r.Fresh w.cwd w'.tree ∧ w'.tree.bodies = w.tree.bodies ∨
      ∃ top id t', (⟨c, answer⟩ : Answered) = ⟨.openFile r.lock, .ok w.nextHandle⟩ ∧
        LockAt r w.cwd top id t' ∧ t'.content id = w.tree.content id ∧ w' = { w with
          tree := t'
          handles := w.handles.insert w.nextHandle ⟨id, 0⟩
          nextHandle := w.nextHandle + 1 } := by
  -- Before anybody has opened the lock file the rules allow little: making
  -- the way to the root, and opening.
  cases hc with
  | idle hc =>
      obtain ⟨-, rfl⟩ := hp.sure hc.not_mayFail
      have hnone : c.handle? = none := by cases c <;> first | rfl | exact hc.elim
      have hopen : ∀ p, c ≠ .openFile p := by
        rintro p rfl
        exact hc
      have hx := Answered.not_concerns (r := r) (x := ⟨c, answer⟩) hnone fun h he =>
        hopen r.lock (congrArg Answered.call he)
      refine .inl ⟨hp.sameHandles hnone hopen, hx, ?_⟩
      rw [w.tree_of_isIdle o hc]
      exact ⟨hf, rfl⟩
  | @way q hq =>
      obtain ⟨-, rfl⟩ := hp.sure not_false
      cases happ : (Change.mkdir q).apply w.tree w.cwd with
      | error e =>
          rw [World.perform_change_error happ]
          exact .inl ⟨⟨rfl, rfl, rfl⟩, Answered.not_concerns rfl (by rintro _ ⟨⟩), hf, rfl⟩
      | ok t' =>
          rw [World.perform_change_ok happ]
          exact .inl ⟨⟨rfl, rfl, rfl⟩, Answered.not_concerns rfl (by rintro _ ⟨⟩),
            hf.mkdir (start_of_isOnWay hq) happ,
            (newDirs_of_mkdir happ).bodies⟩
  | openFile =>
      obtain ⟨rfl, rfl⟩ := hp.sure not_false
      rw [World.perform, World.openFile]
      cases hopen : w.tree.openFile w.cwd r.lock 0o666 with
      | error e =>
          exact .inl ⟨⟨rfl, rfl, rfl⟩, Answered.not_concerns rfl (by rintro _ ⟨⟩), hf, rfl⟩
      | ok opened =>
          obtain ⟨top, hl⟩ := hf.openFile hopen
          exact .inr ⟨top, opened.1, opened.2, rfl, hl, content_of_openFile hopen _, rfl⟩
  | tryLock hh | close hh => exact absurd ⟨_, hh.opened⟩ hno
  | truncate hh | rewind hh | write _ hh | stage _ hh | effect hh =>
      exact absurd ⟨_, hh.opened⟩ hno
  | collect cmd hopen | tool hopen => exact absurd hopen hno

/-! ### All of them -/

/-- What is asked of the start and of what is outside. -/
structure Shared (o : Outside σ) (r : Root) (cwd : Location) (jobs : ι → Job)
    (w : World σ) : Prop where
  spares : SparesLock o r
  draws : o.DrawsPlain
  /-- The path of the root is for all runs the path of the same root. -/
  start : ∀ i, r.lock.start (jobs i).process.cwd = r.lock.start cwd
  fresh : r.Fresh cwd w.tree
  unlocked : ∀ id, w.locks.get? id = none

/-- The lock file has not been opened, or it is the file `id`, as
which each run has it open. -/
inductive Placed (r : Root) (cwd : Location) (past : ι → List Answered) (w : World σ) : Prop
  | fresh (hf : r.Fresh cwd w.tree) (hno : ∀ i, ∀ x ∈ past i, ∀ h, ¬ x.Concerns r h)
      (hfree : ∀ id, w.locks.get? id = none)
  | at_ (top : Location) (id : FileId) (hl : LockAt r cwd top id w.tree)
      (hw : Handled r id past w)

structure Joint (o : Outside σ) (r : Root) (cwd : Location) (jobs : ι → Job) [DecidableEq ι]
    (s : Together ι σ) : Prop where
  amid : ∀ i, (s.left i).Amid o (Meanwhile o r) (Obeys r)
    (fun res past' _ => Ended r res past') (s.past i) (s.world.as (jobs i).process)
  placed : Placed r cwd s.past s.world

theorem Placed.sound {past : ι → List Answered} (hp : Placed r cwd past w) {p : Process}
    (hstart : r.lock.start p.cwd = r.lock.start cwd) : r.Sound (w.as p) := by
  cases hp with
  | fresh hf hno hfree => exact .inl (hf.of_start hstart.symm)
  | at_ top id hl hw => exact .inr ⟨top, id, hl.of_start hstart.symm⟩

theorem Meanwhile.refl (hw : r.Sound w) : Meanwhile o r past w w :=
  ⟨rfl, hw, fun _ _ hl => .refl hl.closed, fun _ _ _ _ _ _ _ _ => rfl⟩

variable {w₀ : World σ}

/-- The lock file is the same file after the call, if it was one before. -/
theorem Placed.lockAt_next {past : ι → List Answered} (hready : Shared o r cwd jobs w₀)
    (hc : Obeys r (past j) (w.as (jobs j).process) c)
    (hperf : (w.as (jobs j).process).Performs o c answer w')
    (hl : LockAt r cwd top id w.tree) :
    LockAt r cwd top id w'.tree ∧ r.Leaves cwd w.tree w'.tree := by
  have hstart := hready.start j
  have hl' : LockAt r (w.as (jobs j).process).cwd top id (w.as (jobs j).process).tree :=
    hl.of_start hstart.symm
  have hleaves := hc.leaves hready.spares hl' hperf
  exact ⟨(hl'.next hleaves).of_start hstart, hleaves.of_start hstart⟩

variable [DecidableEq ι] {s s' : Together ι σ}

/-- The next call of a run, as it stands in its program. -/
theorem Joint.obeys {next : c.Answer → Program (Except BootstrapError Unit)}
    (hs : Joint o r cwd jobs s) (hready : Shared o r cwd jobs w₀)
    (hleft : s.left i = .call c next) :
    Obeys r (s.past i) (s.world.as (jobs i).process) c ∧ ∀ answer w',
      (s.world.as (jobs i).process).Performs o c answer w' →
      (next answer).Amid o (Meanwhile o r) (Obeys r) (fun res past' _ => Ended r res past')
        (s.past i ++ [⟨c, answer⟩]) w' := by
  have hamid := hs.amid i
  rw [hleft] at hamid
  exact hamid _ (.refl (hs.placed.sound (hready.start i)))

/-- One more call keeps the lock file in its place. -/
theorem Placed.next {past : ι → List Answered} (hp : Placed r cwd past w)
    (hready : Shared o r cwd jobs w₀) (hc : Obeys r (past j) (w.as (jobs j).process) c)
    (hperf : (w.as (jobs j).process).Performs o c answer w') :
    Placed r cwd (Handled.next past j ⟨c, answer⟩) w' := by
  have hstart := hready.start j
  cases hp with
  | fresh hf hno hfree =>
      have hopened : ¬ HasOpened r (past j) := fun ⟨h, hmem⟩ => hno j _ hmem h (.inr rfl)
      rcases hc.fresh (w := w.as (jobs j).process) (hf.of_start hstart.symm) hopened hperf with
        ⟨hsame, hx, hf', -⟩ | ⟨top, id, t', hx, hl, -, rfl⟩
      · refine .fresh (hf'.of_start hstart) (fun i y hy => ?_) fun id => ?_
        · rcases Handled.mem_next.mp hy with hy | ⟨-, rfl⟩
          · exact hno i y hy
          · exact hx
        · rw [hsame.locks]
          exact hfree id
      · refine .at_ top id (hl.of_start hstart) ?_
        have hw : Handled r id past (w.as (jobs j).process) := .of_untouched hno (hfree id)
        exact hw.opens hopened hx rfl rfl (SortedMap.get?_insert_self ..) fun h hne =>
          SortedMap.get?_insert_of_ne _ _ hne
  | at_ top id hl hw =>
      have hl' : LockAt r (w.as (jobs j).process).cwd top id (w.as (jobs j).process).tree :=
        hl.of_start hstart.symm
      refine .at_ top id ?_ (Handled.obeys (w := w.as (jobs j).process) ?_ hl' hc hperf)
      · exact (hl'.next (hc.leaves hready.spares hl' hperf)).of_start hstart
      · exact ⟨hw.below, hw.apart, hw.once, hw.file, hw.lock⟩

/-- What another run does in its turn is what a run counts on. -/
theorem Placed.meanwhile {past : ι → List Answered} (hp : Placed r cwd past w)
    (hready : Shared o r cwd jobs w₀) (hc : Obeys r (past j) (w.as (jobs j).process) c)
    (hperf : (w.as (jobs j).process).Performs o c answer w') (hij : i ≠ j) :
    Meanwhile o r (past i) (w.as (jobs i).process) (w'.as (jobs i).process) := by
  have hi := hready.start i
  have hj := hready.start j
  have hboth : ∀ {t : Tree} {top id}, LockAt r (jobs i).process.cwd top id t →
      LockAt r (jobs j).process.cwd top id t := fun hl => hl.of_start (hi.trans hj.symm)
  refine ⟨rfl, (hp.next hready hc hperf).sound hi, fun top id hl => ?_,
    fun top id h hl hh => ?_⟩
  · exact (hc.leaves hready.spares (hboth hl) hperf).of_start (hj.trans hi.symm)
  · have hno : ∀ h', ¬ Holds r (past j) h' := by
      intro h' hh'
      cases hp with
      | fresh hf hno hfree => exact hno i _ hh.opened h (.inr rfl)
      | at_ top' id' hl' hw => exact hij (hw.exclusive hh hh')
    have hsame : SameStaging o top (w.as (jobs j).process).tree w'.tree :=
      Obeys.sameStaging hready.spares (hboth hl) hc hno hperf
    exact hsame

theorem Shared.joint (hready : Shared o r cwd jobs w) :
    Joint o r cwd jobs (Together.start r jobs w) where
  amid i := amid_program hready.spares hready.draws (jobs i) _
  placed := .fresh hready.fresh (fun _ => nofun) hready.unlocked

/-- A turn of any run. -/
theorem Joint.turn (hs : Joint o r cwd jobs s) (hready : Shared o r cwd jobs w₀)
    (ht : Together.Turn o jobs j x s s') : Joint o r cwd jobs s' := by
  cases ht with
  | @turn next w' hleft hp =>
      obtain ⟨hc, hnext⟩ := hs.obeys hready hleft
      refine ⟨fun i => ?_, @Together.past_concat ι _ _ .. ▸ hs.placed.next hready hc hp⟩
      rw [Together.past_concat]
      dsimp only
      by_cases hij : i = j
      · subst hij
        rw [Function.update_self, Handled.next_self]
        have hsame : w'.as (jobs i).process = w' := by
          obtain ⟨henviron, hid⟩ := hp.process
          rw [World.as, ← show w'.cwd = (jobs i).process.cwd from hp.cwd,
            ← show w'.environ = (jobs i).process.environ from henviron,
            ← show w'.processId = (jobs i).process.id from hid]
        rw [hsame]
        exact hnext x.answer w' hp
      · rw [Function.update_of_ne hij, Handled.next_of_ne hij]
        exact (hs.amid i).rely (fun _ _ _ => .trans) (fun _ _ _ hend _ => hend)
          (hs.placed.meanwhile hready hc hp hij)

theorem Joint.steps (hs : Joint o r cwd jobs s) (hready : Shared o r cwd jobs w₀)
    (hsteps : Together.Steps o jobs s s') : Joint o r cwd jobs s' := by
  induction hsteps with
  | refl => exact hs
  | tail _ ht ih =>
      obtain ⟨i, x, ht⟩ := ht
      exact ih.turn hready ht

/-- The lock file stays the same file, whoever takes turns. -/
theorem Joint.lockAt_steps (hs : Joint o r cwd jobs s) (hready : Shared o r cwd jobs w₀)
    (hsteps : Together.Steps o jobs s s') (hl : LockAt r cwd top id s.world.tree) :
    LockAt r cwd top id s'.world.tree := by
  induction hsteps with
  | refl => exact hl
  | tail hfirst ht ih =>
      obtain ⟨i, x, ht⟩ := ht
      cases ht with
      | turn hleft hp =>
          exact (Placed.lockAt_next hready
            ((hs.steps hready hfirst).obeys hready hleft).1 hp ih).1

/-! ### Mutual exclusion -/

/-- Calls that change the files of a root or have the command of a stage change them.
Directories on the way to the root are made by all runs. -/
inductive Affects (r : Root) : Call → Prop
  | change {ch : Change} (hway : ∀ q : Path, q.IsOnWay r.path → ch ≠ .mkdir q) :
      Affects r (.change ch)
  | truncate (h : Handle) : Affects r (.truncate h)
  | write (h : Handle) (bytes : Bytes) : Affects r (.write h bytes)
  | stage {cmd : Command} (hd : cmd.dir ≠ none) : Affects r (.spawn .shared cmd)

theorem Obeys.exists_holds (hc : Obeys r past w c) (ha : Affects r c) :
    ∃ h, Holds r past h := by
  cases hc with
  | idle hc => cases ha <;> exact hc.elim
  | way hq =>
      cases ha with
      | change hway => exact absurd rfl (hway _ hq)
  | openFile | tryLock | close | collect | rewind hh => cases ha
  | truncate hh | write _ hh | stage _ hh | effect hh => exact ⟨_, hh⟩
  | tool hopen hr hd =>
      cases ha with
      | stage hne => exact absurd hd hne

/-- No two of the runs get into each other's way. -/
structure Exclusive (o : Outside σ) (r : Root) (cwd : Location) (jobs : ι → Job)
    (s : Together ι σ) :
    Prop where
  /-- At most one run is between taking the lock and giving it back. -/
  one : ∀ i j h h', Holds r (s.past i) h → Holds r (s.past j) h' → i = j
  /-- What changes the files of the root is done by the run that has the lock. -/
  affects : ∀ i x s', Together.Turn o jobs i x s s' → Affects r x.call →
    ∃ h, Holds r (s.past i) h
  /-- Once the lock file has been opened it stays the same file, which all runs have open. -/
  file : ∀ i, HasOpened r (s.past i) → ∃ top id, ∀ s', Together.Steps o jobs s s' →
    LockAt r cwd top id s'.world.tree ∧
      ∀ j h, Owns r (s'.past j) h → ∃ f, s'.world.file? h = some f ∧ f.id = id
  /-- Whatever a run has come to, it has closed the lock file, so the lock is not with it. -/
  released : ∀ i res, s.left i = .done res → Released r (s.past i) ∧ ∀ top id h,
    LockAt r cwd top id s.world.tree → ⟨.openFile r.lock, .ok h⟩ ∈ s.past i →
      s.world.locks.get? id ≠ some h
  /-- So it has when it runs the build tool of the project, which is
  not run in a build tree. -/
  tool : ∀ i cmd answer s', Together.Turn o jobs i ⟨.spawn .shared cmd, answer⟩ s s' →
    cmd.dir = none → Released r (s.past i)
  /-- A run that is refused the lock is refused because another has it. -/
  refused : ∀ i h s', Together.Turn o jobs i ⟨.tryLock h, .ok false⟩ s s' →
    ∃ j, j ≠ i ∧ ∃ h', Holds r (s.past j) h'

/-- The lock is refused to a handle if another has it. -/
theorem refused_of_performs {p : Process} {f : OpenFile} (hf : w.file? h = some f)
    (hp : (w.as p).Performs o (.tryLock h) (.ok false) w') :
    ∃ h', w.locks.get? f.id = some h' ∧ h' ≠ h := by
  obtain ⟨answer, hanswer⟩ : ∃ answer : Except Errno Bool, answer = .ok false := ⟨_, rfl⟩
  rw [← hanswer] at hp
  cases hp with
  | tryLock e => exact nomatch hanswer
  | done => exact (World.tryLock_of_refused (w := w.as p) hf (Except.ok.inj hanswer)).1

theorem Together.past_prefix (hsteps : Together.Steps o jobs s s') (i : ι) :
    s.past i <+: s'.past i := by
  induction hsteps with
  | refl => exact List.prefix_rfl
  | tail _ ht ih =>
      obtain ⟨j, x, ht⟩ := ht
      cases ht with
      | turn hleft hp =>
          refine ih.trans ?_
          rw [Together.past_concat]
          by_cases hij : i = j
          · subst hij
            rw [Handled.next_self]
            exact List.prefix_append ..
          · rw [Handled.next_of_ne hij]
            exact List.prefix_rfl

theorem Joint.exclusive (hs : Joint o r cwd jobs s) (hready : Shared o r cwd jobs w₀) :
    Exclusive o r cwd jobs s where
  one i j h h' hi hj := by
    cases hs.placed with
    | fresh hf hno hfree => exact absurd (.inr rfl) (hno i _ hi.opened h)
    | at_ top id hl hw => exact hw.exclusive hi hj
  affects i x s' ht ha := by
    cases ht with
    | turn hleft hp => exact (hs.obeys hready hleft).1.exists_holds ha
  -- The place found when the file was first opened stays its place,
  -- and all handles are of that file.
  file i hopened := by
    cases hs.placed with
    | fresh hf hno hfree =>
        obtain ⟨h, hmem⟩ := hopened
        exact absurd (.inr rfl) (hno i _ hmem h)
    | at_ top id hl hw =>
        refine ⟨top, id, fun s' hsteps => ?_⟩
        have hl' := hs.lockAt_steps hready hsteps hl
        refine ⟨hl', fun j h hh => ?_⟩
        cases (hs.steps hready hsteps).placed with
        | fresh hf hno hfree => exact absurd (.inr rfl) (hno j _ hh.opened h)
        | at_ top' id' hl'' hw' =>
            obtain ⟨f, hf, hid, -⟩ := hw'.file j h hh
            exact ⟨f, hf, hid.trans (hl''.unique hl').2⟩
  released i res hleft := by
    have hend := hs.amid i
    rw [hleft] at hend
    refine ⟨hend.1.released, fun top id h hl hmem hlock => ?_⟩
    cases hs.placed with
    | fresh hf hno hfree => exact nomatch (hfree id).symm.trans hlock
    | at_ top' id' hl' hw =>
        obtain ⟨rfl, rfl⟩ := hl.unique hl'
        obtain ⟨j, hj⟩ := (hw.lock h).mp hlock
        obtain rfl := hw.apart i j h hmem hj.opened
        exact hend.1.released h hj.toOwns
  tool i cmd answer s' ht hdir := by
    cases ht with
    | turn hleft hp =>
        cases (hs.obeys hready hleft).1 with
        | idle hc => exact hc.elim
        | stage hd => exact absurd hdir hd
        | tool hopen hr => exact hr
  refused i h s' ht := by
    cases ht with
    | turn hleft hp =>
        cases (hs.obeys hready hleft).1 with
        | idle hc => exact hc.elim
        | tryLock hh =>
            cases hs.placed with
            | fresh hf hno hfree => exact absurd (.inr rfl) (hno i _ hh.opened h)
            | at_ top id hl hw =>
                obtain ⟨f, hf, rfl, -⟩ := hw.file i h hh
                obtain ⟨h', hlock, hne⟩ := refused_of_performs hf hp
                obtain ⟨j, hj⟩ := (hw.lock h').mp hlock
                refine ⟨j, ?_, h', hj⟩
                rintro rfl
                exact hne (hw.once j h' h hj.opened hh.opened)

/-- **Mutual exclusion.** However the runs take turns, they do not get
into each other's way. -/
theorem mutual_exclusion (hready : Shared o r cwd jobs w)
    (hsteps : Together.Steps o jobs (Together.start r jobs w) s) : Exclusive o r cwd jobs s :=
  (hready.joint.steps hready hsteps).exclusive hready

/-! ### Two runs -/

/-- Whether a run has the lock by the handle `h`, to be found out from its calls. -/
def holds (r : Root) (past : List Answered) (h : Handle) : Bool :=
  past.any (fun x => match x with
    | ⟨.openFile p, .ok h'⟩ => p = r.lock && h' = h
    | _ => false) &&
  past.any (fun x => match x with
    | ⟨.tryLock h', .ok true⟩ => h' = h
    | _ => false) &&
  past.all fun x => match x with
    | ⟨.close h', _⟩ => h' ≠ h
    | _ => true

theorem Holds.of_test (hh : holds r past h = true) : Holds r past h := by
  simp only [holds, Bool.and_eq_true, List.any_eq_true, List.all_eq_true] at hh
  obtain ⟨⟨⟨x, hx, hopened⟩, y, hy, htaken⟩, hclosed⟩ := hh
  refine ⟨⟨?_, fun hmem => ?_⟩, ?_⟩
  · split at hopened
    · simp only [Bool.and_eq_true, decide_eq_true_eq] at hopened
      obtain ⟨rfl, rfl⟩ := hopened
      exact hx
    · contradiction
  · simpa using hclosed _ hmem
  · split at htaken
    · rw [decide_eq_true_eq] at htaken
      exact htaken ▸ hy
    · contradiction

def isRefused (past : List Answered) (h : Handle) : Bool :=
  past.any fun x => match x with
    | ⟨.tryLock h', .ok false⟩ => h' = h
    | _ => false

theorem mem_of_isRefused (hh : isRefused past h = true) : ⟨.tryLock h, .ok false⟩ ∈ past := by
  simp only [isRefused, List.any_eq_true] at hh
  obtain ⟨x, hx, hrefused⟩ := hh
  split at hrefused
  · rw [decide_eq_true_eq] at hrefused
    exact hrefused ▸ hx
  · contradiction

def here : Root := ⟨"llvm"⟩

def mirrored : Settings :=
  { Settings.default with llvm := ⟨Defaults.llvmVersion, some "u", some "t", none⟩ }

theorem archive_mirrored : mirrored.archive = ⟨"u", "t", none⟩ := rfl

def twice (_ : Bool) : Job :=
  ⟨mirrored, .unix ⟨.linux, .empty, none⟩, .prepare .x64 "setup", ⟨[], .empty, 1⟩⟩

theorem sparesLock_silent (r : Root) : SparesLock Archive.silent r :=
  fun _ _ _ _ _ _ _ hl => ⟨.refl hl.closed, rfl, fun _ _ _ => rfl⟩

theorem node?_bareWorld (loc : Location) :
    bareWorld.tree.node? loc = if loc = [] then some (.dir 0o755) else none := by
  split
  · next h => rw [h]; rfl
  · next h => exact Tree.node?_empty h

theorem shared_bareWorld {ι : Type} {jobs : ι → Job} (hcwd : ∀ i, (jobs i).process.cwd = []) :
    Shared Archive.silent here [] jobs bareWorld where
  spares := sparesLock_silent here
  draws _ := nofun
  start i := by rw [hcwd]
  fresh :=
    { closed := isSound_bareWorld.closed
      start := ⟨_, rfl⟩
      filled := fun loc id hid => by
        rw [node?_bareWorld] at hid
        split at hid <;> exact nomatch hid
      firm := fun t' hnew a top target hr hlink => by
        rcases hnew.nodes (top ++ [markerName (.install a)]) with hsame | ⟨-, mode, hdir⟩
        · rw [hsame, node?_bareWorld, if_neg (by simp)] at hlink
          contradiction
        · rw [hdir] at hlink
          exact nomatch Option.some.inj hlink }
  unlocked _ := rfl

/-- The first run has the lock when the second one asks for it. -/
theorem mutual_exclusion_twice :
    let s :=
      Together.play Archive.silent twice (List.replicate 9 false ++ List.replicate 4 true)
        (Together.start here twice bareWorld)
    Shared Archive.silent here [] twice bareWorld ∧
      Together.Steps Archive.silent twice (Together.start here twice bareWorld) s ∧
      Exclusive Archive.silent here [] twice s ∧
      Holds here (s.past false) 3 ∧ ⟨.tryLock 4, .ok false⟩ ∈ s.past true := by
  intro s
  have hsteps :=
    Together.steps_play Archive.silent twice (List.replicate 9 false ++ List.replicate 4 true)
    (Together.start here twice bareWorld)
  have htests : (holds here (s.past false) 3 && isRefused (s.past true) 4) = true := by
    simp only [s, Together.start, Job.program, twice, Job.bootstrap, Bootstrap.prepare,
      Bootstrap.steps, archive_mirrored]
    cbv
  rw [Bool.and_eq_true] at htests
  have hshared : Shared Archive.silent here [] twice bareWorld := shared_bareWorld fun _ => rfl
  exact ⟨hshared, hsteps, mutual_exclusion hshared hsteps, .of_test htests.1,
    mem_of_isRefused htests.2⟩

/-- The lock file is a link to where LLVM is to be installed, where a link to a file stands. -/
def linkedWorld : World Unit :=
  let dirs : List (List String) := [["llvm"], ["llvm", "source"], ["llvm", "build-x64"]]
  let links : List (List String × Node) :=
    [(["llvm", ".lock"], .link "x64"), (["llvm", "x64"], .link "f"),
    (["llvm", "f"], .file 0)]
  let nodes := dirs.map (fun ns => (ns, Node.dir 0o755)) ++ links
  .fresh (nodes.foldl (fun t e => t.put (e.1.map Utf8.encode) e.2) ⟨.empty, [⟨0o644, []⟩]⟩)
  [] .empty 1 ()

/-- The first run has the lock; since its build has failed it has removed the link that was on
the way to the lock file, and so the second one has the lock of another file. -/
theorem both_hold_linkedWorld :
    let s :=
      Together.play Archive.silent twice (List.replicate 19 false ++ List.replicate 4 true)
        (Together.start here twice linkedWorld)
    SparesLock Archive.silent here ∧ Archive.silent.DrawsPlain ∧ linkedWorld.IsSound ∧
      linkedWorld.tree.Filled ∧ linkedWorld.locks.entries = [] ∧
      Together.Steps Archive.silent twice (Together.start here twice linkedWorld) s ∧
      Holds here (s.past false) 3 ∧ Holds here (s.past true) 4 := by
  intro s
  have htests : (holds here (s.past false) 3 && holds here (s.past true) 4) = true := by
    simp only [s, Together.start, Job.program, twice, Job.bootstrap, Bootstrap.prepare,
      Bootstrap.steps, archive_mirrored]
    cbv
  rw [Bool.and_eq_true] at htests
  exact ⟨sparesLock_silent here, fun _ => by rintro ⟨⟩, ⟨.of_entries (by cbv), _, rfl⟩,
    .of_entries (by cbv), rfl,
    Together.steps_play .., .of_test htests.1, .of_test htests.2⟩

end Root

end LlvmBootstrap
