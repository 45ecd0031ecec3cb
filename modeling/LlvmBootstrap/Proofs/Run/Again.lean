import Mathlib
import LlvmBootstrap.Proofs.Root.Changes
import LlvmBootstrap.Proofs.Run.Capture
import LlvmBootstrap.Proofs.Tree.Ways

/-!
Running again. On a root where the stages of an architecture are complete a run only takes the
lock and notes itself in the lock file, whatever it is set to do and whatever the platform,
servers and commands would answer: it asks nobody. What is left of it is the build tool of the
project.
-/

namespace LlvmBootstrap

open LlvmBootstrap.Tree Program

/-! ### Opening a file -/

namespace Tree

variable {t t' : Tree} {cwd : Location} {p : Path} {id : FileId} {mode : Mode}

theorem setContent_setContent (t : Tree) (id : FileId) (content content' : Bytes) :
    (t.setContent id content).setContent id content' = t.setContent id content' := by
  have hmode : (t.setContent id content).mode id = t.mode id := by
    rw [mode, setContent, setBody, body?, List.getElem?_set_self']
    cases h : t.bodies[id]? <;> simp [mode, body?, h]
  rw [setContent, hmode]
  simp [setContent, setBody]

/-- What is written in place of all that a file held is all that it holds then. -/
theorem setContent_overwrite (t : Tree) (id : FileId) (content : Bytes) :
    (t.setContent id []).setContent id
      (World.overwrite ((t.setContent id []).content id) 0 content) =
        t.setContent id content := by
  rw [content_setContent_nil, setContent_setContent]
  simp [World.overwrite]

theorem kept_of_openFile (hc : t.Closed)
    (hd : ∃ mode, t.node? (p.start cwd) = some (.dir mode))
    (h : t.openFile cwd p mode = .ok (id, t')) :
    t'.Closed ∧ ∀ loc, t.node? loc ≠ none → t'.node? loc = t.node? loc := by
  rcases openFile_eq_ok h with ⟨_, -, rfl⟩ | ⟨dir, n, hwalk, -, rfl⟩
  · exact ⟨hc, fun _ _ => rfl⟩
  · have hvacant := node?_of_walk_vacant hwalk
    have hdir := dir_of_walk_vacant hc hwalk hd
    have hadded : (t.addBody ⟨umasked mode, []⟩).2.Closed := hc.congr fun _ => node?_addBody ..
    refine ⟨hadded.put ?_ ?_, fun loc hloc => ?_⟩
    · rwa [node?_addBody]
    · rwa [node?_addBody]
    · rw [node?_put_of_ne _ _ fun heq => hloc (by rw [heq]; exact hvacant), node?_addBody]

/-- What becomes of a tree when a file is written that may have to be made. -/
inductive Noted (t : Tree) (cwd : Location) (p : Path) : Tree → Prop
  | there {loc : Location} {id : FileId} {content : Bytes}
      (hfile : t.walk true maxLinks (p.start cwd) (steps p) = .ok (.found loc (.file id))) :
      Noted t cwd p (t.setContent id content)
  | made {dir : Location} {n : Name} {mode : Mode} {content : Bytes}
      (hvacant : t.walk true maxLinks (p.start cwd) (steps p) = .ok (.vacant dir n)) :
      Noted t cwd p
        ((t.addBody ⟨mode, content⟩).2.put (dir ++ [n]) (.file t.bodies.length))

theorem noted_of_openFile (h : t.openFile cwd p mode = .ok (id, t')) (content : Bytes) :
    t.Noted cwd p (t'.setContent id content) := by
  rcases openFile_eq_ok h with ⟨loc, hwalk, rfl⟩ | ⟨dir, n, hwalk, rfl, rfl⟩
  · exact .there hwalk
  · have hmade : ((t.addBody ⟨umasked mode, []⟩).2.put (dir ++ [n])
        (.file t.bodies.length)).setContent t.bodies.length content =
          (t.addBody ⟨umasked mode, content⟩).2.put (dir ++ [n]) (.file t.bodies.length) := by
      simp [addBody, put, setContent, setBody, Tree.mode, body?]
    exact hmade ▸ .made hwalk

end Tree

/-! ### A root that is ready -/

namespace Root

variable {σ : Type} {o : Outside σ} {r : Root} {a : Arch} {w w' : World σ} {s : Stage}

def IsReady (r : Root) (a : Arch) (w : World σ) : Prop :=
  ∀ s : Stage, s.IsOf a → w.tree.isDir w.cwd (r.marker s) = true

theorem IsReady.still (h : IsReady r a w) (hw : w.Still w') : IsReady r a w' := fun s hs => by
  rw [hw.1, hw.2]
  exact h s hs

theorem throughout_isComplete_again (h : w.tree.isDir w.cwd (r.marker s) = true) :
    (r.isComplete s).Throughout o (fun _ c => c.IsOwn)
      (fun done w' => done = true ∧ w' = w) w :=
  (throughout_isDir trivial).post fun _ _ ⟨hw, hdone⟩ => ⟨hdone.trans h, hw⟩

/-- While the path of an entry of it can be walked, making the root is nothing. -/
theorem run_makeDirs_of_resolve {n : Name} {follow : Bool} {spot : Spot} (hw : w.IsSound)
    (hn : Path.IsPlain n)
    (hresolve : w.tree.resolve w.cwd follow (r.path / (⟨n⟩ : Path)) = .ok spot) :
    (makeDirs r.path).run.run o w = (.ok (), w) := by
  obtain ⟨top, hr⟩ : ∃ top, Reaches w.tree w.cwd r.path top :=
    Reaches.of_resolve hw.closed (dir_start hw.cwd r.path)
      ((Path.Extends.refl r.path).concat hn) hresolve
  have hstay := (throughout_makeDirs_of_reaches (o := o) (C := fun _ _ => True) hr
    fun _ _ => trivial).at_end
  cases hmake : (makeDirs r.path).run.run o w with
  | mk res w' =>
      rw [hmake] at hstay
      obtain rfl : w' = w := hstay
      cases res with
      | ok u => rfl
      | error e =>
          have hnot := isDir_of_makeDirs_error hw hmake
          by_cases hempty : r.path.bytes = []
          · have hmakes : (makeDirs r.path).run.run o w' = (.ok (), w') := by
              rw [makeDirs, if_pos (Path.components_eq_nil hempty)]
              rfl
            rw [hmakes] at hmake
            exact absurd (congrArg Prod.fst hmake) (by simp)
          · have hp := Path.refusal?_of_join (Path.isAbsolute_name hn) hempty
              (refusal?_of_resolve hresolve)
            exact absurd (hr.isDir hp) (by simp [hnot])

/-- While anything in it can be found, making the root is nothing. -/
theorem run_makeDirs_of_isDir (hw : w.IsSound) (h : w.tree.isDir w.cwd (r.marker s) = true) :
    (makeDirs r.path).run.run o w = (.ok (), w) := by
  obtain ⟨hp, loc, mode, hwalk⟩ := isDir_iff.mp h
  have hresolve : w.tree.resolve w.cwd true (r.marker s) = .ok (.found loc (.dir mode)) := by
    rw [resolve_eq, hp]
    exact hwalk
  rw [r.marker_eq] at hresolve
  exact run_makeDirs_of_resolve hw (isPlain_markerName s) hresolve

/-- Opening the lock file and writing into it leaves every directory where it can be found. -/
theorem isDir_opened {id : FileId} {t : Tree} {content : Bytes}
    (h : w.tree.isDir w.cwd (r.marker s) = true) (hw : w.IsSound)
    (hopen : w.tree.openFile w.cwd r.lock 0o666 = .ok (id, t))
    (htree : w'.tree = t.setContent id content) (hcwd : w'.cwd = w.cwd) :
    w'.tree.isDir w'.cwd (r.marker s) = true := by
  obtain ⟨hclosed, hkept⟩ := kept_of_openFile hw.closed (dir_start hw.cwd r.lock) hopen
  have hsame : ∀ loc, w'.tree.node? loc = t.node? loc :=
    fun loc => by rw [htree, node?_setContent]
  have hroutes : RoutesKept w.tree w'.tree :=
    .of_kept fun loc hloc => (hsame loc).trans (hkept loc hloc)
  obtain ⟨mode, hmode⟩ := dir_start hw.cwd (r.marker s)
  rw [hcwd]
  exact isDir_mono hroutes (hclosed.congr hsame) (hroutes.dirs _ mode hmode) h

theorem IsReady.opened {id : FileId} {t : Tree} {content : Bytes} (h : IsReady r a w)
    (hw : w.IsSound) (hopen : w.tree.openFile w.cwd r.lock 0o666 = .ok (id, t))
    (htree : w'.tree = t.setContent id content) (hcwd : w'.cwd = w.cwd) : IsReady r a w' :=
  fun s hs => isDir_opened (h s hs) hw hopen htree hcwd

end Root

/-! ### Taking the lock -/

namespace RootLock

variable {σ : Type} {o : Outside σ} {r : Root} {a : Arch} {w w' : World σ} {s : Stage}

inductive Taken (r : Root) (w : World σ) : Except LockError RootLock → World σ → Prop
  | unopened {e : Errno} {w' : World σ} (hopen : w.tree.openFile w.cwd r.lock 0o666 = .error e)
      (hstill : w.Still w') : Taken r w (.error (.failed "open" r.lock e)) w'
  | taken {id : FileId} {t : Tree} {content : Bytes} {w' : World σ}
      (hopen : w.tree.openFile w.cwd r.lock 0o666 = .ok (id, t))
      (htree : w'.tree = t.setContent id content) (hcwd : w'.cwd = w.cwd) :
      Taken r w (.ok ⟨w.nextHandle, r.lock⟩) w'

def IsFree (r : Root) (w : World σ) : Prop :=
  ∀ id t, w.tree.openFile w.cwd r.lock 0o666 = .ok (id, t) → w.locks.get? id = none

structure AtStart (h : Handle) (id : FileId) (t : Tree) (cwd : Location)
    (w : World σ) : Prop where
  file : w.file? h = some ⟨id, 0⟩
  tree : w.tree = t
  cwd : w.cwd = cwd

variable {h : Handle} {id : FileId} {t : Tree} {cwd : Location}

/-- What is written in place of the content of a file that has just been opened. -/
theorem run_replaceContent (hfile : w.file? h = some ⟨id, 0⟩) (content : Bytes) :
    (replaceContent h content).run.run o w = (.ok (), { w with
      tree := w.tree.setContent id content
      handles := (w.handles.insert h ⟨id, 0⟩).insert h ⟨id, 0 + content.length⟩ }) := by
  rw [World.file?] at hfile
  have htruncate : w.truncate h = { w with tree := w.tree.setContent id [] } := by
    simp [World.truncate, World.file?, hfile]
  have hwrite : ((w.truncate h).rewind h).write h content = { w with
      tree := (w.tree.setContent id []).setContent id
        (World.overwrite ((w.tree.setContent id []).content id) 0 content)
      handles := (w.handles.insert h ⟨id, 0⟩).insert h ⟨id, 0 + content.length⟩ } := by
    simp [htruncate, World.rewind, World.write, World.file?, hfile]
  have hrun : (replaceContent h content).run.run o w =
      (.ok (), ((w.truncate h).rewind h).write h content) := rfl
  rw [hrun, hwrite, setContent_overwrite]

theorem replaced_of_atStart (hw : AtStart h id t cwd w) (content : Bytes) :
    (replaceContent h content).run.Throughout o (fun _ _ => True)
      (fun res w' => res = .ok () ∧ w'.tree = t.setContent id content ∧ w'.cwd = cwd) w := by
  obtain ⟨hfile, rfl, rfl⟩ := hw
  have hrun := run_replaceContent (o := o) hfile content
  exact ⟨trivial, trivial, trivial, rfl, congrArg (·.2.tree) hrun, congrArg (·.2.cwd) hrun⟩

theorem openFile_of_error {p : Path} {e : Errno}
    (hopen : w.tree.openFile w.cwd p 0o666 = .error e) :
    w.perform o (.openFile p) = (.error e, w) := by
  have hperform : w.openFile p = (.error e, w) := by rw [World.openFile, hopen]
  exact hperform

theorem atStart_of_openFile {p : Path} (hopen : w.tree.openFile w.cwd p 0o666 = .ok (id, t)) :
    ∃ w', w.perform o (.openFile p) = (.ok w.nextHandle, w') ∧
      AtStart w.nextHandle id t w.cwd w' ∧ w'.locks = w.locks := by
  have hperform : w.openFile p = (.ok w.nextHandle, { w with
      tree := t
      handles := w.handles.insert w.nextHandle ⟨id, 0⟩
      nextHandle := w.nextHandle + 1 }) := by
    rw [World.openFile, hopen]
  exact ⟨_, hperform, ⟨SortedMap.get?_insert_self .., rfl, rfl⟩, rfl⟩

theorem atStart_tryLock (hw : AtStart h id t cwd w) (hfree : w.locks.get? id = none) :
    ∃ w', w.perform o (.tryLock h) = (.ok true, w') ∧ AtStart h id t cwd w' := by
  have hperform : w.tryLock h = (true, { w with locks := w.locks.insert id h }) := by
    simp only [World.tryLock, hw.file, hfree]
  have hanswer : w.perform o (.tryLock h) = (.ok (w.tryLock h).1, (w.tryLock h).2) := rfl
  rw [hperform] at hanswer
  exact ⟨_, hanswer, hw.file, hw.tree, hw.cwd⟩

theorem throughout_take_free (hfree : IsFree r w) (command : String) :
    (take r command a).run.Throughout o (fun _ _ => True) (Taken r w) w := by
  refine Throughout.attempt_call_bind_iff.mpr ⟨trivial, ?_⟩
  cases hopen : w.tree.openFile w.cwd r.lock 0o666 with
  | error e =>
      rw [openFile_of_error hopen]
      exact .unopened hopen ⟨rfl, rfl⟩
  | ok opened =>
      obtain ⟨id, t⟩ := opened
      obtain ⟨w₁, hperform, hw₁, hlocks⟩ := atStart_of_openFile (o := o) hopen
      rw [hperform]
      obtain ⟨w₂, hgranted, hw₂⟩ := atStart_tryLock (o := o) hw₁ (hlocks ▸ hfree id t hopen)
      refine Throughout.attempt_call_bind_iff.mpr ⟨trivial, ?_⟩
      rw [hgranted]
      refine Throughout.attempt_call_bind_iff.mpr ⟨trivial, ?_⟩
      refine Throughout.attempt_call_bind_iff.mpr ⟨trivial, ?_⟩
      have hw₃ : AtStart w.nextHandle id t w.cwd
          ((w₂.perform o .processId).2.perform o .clock).2 :=
        ⟨hw₂.file, hw₂.tree, hw₂.cwd⟩
      refine Throughout.attempt_lift_bind_iff.mpr ((replaced_of_atStart hw₃ _).post ?_)
      rintro _ w₄ ⟨rfl, htree, hcwd⟩
      exact .taken hopen htree hcwd

/-- A free lock is taken, while anything in the root can be found,
unless its file cannot be opened. -/
theorem taken_of_goes (hw : w.IsSound) (hdir : w.tree.isDir w.cwd (r.marker s) = true)
    (hfree : IsFree r w) {command : String} {res : Except LockError RootLock}
    {tr : List Answered} (hgoes : (acquire r command a).run.Goes o w res tr w') :
    Taken r w res w' := by
  rw [acquire_eq] at hgoes
  have hmake : ((makeDirs r.path).adapt (LockError.failed "create" r.path)).run.run o w =
      (.ok (), w) := by
    rw [run_adapt, run_bind, Root.run_makeDirs_of_isDir hw hdir]
    rfl
  rcases hgoes.of_attempt_bind with ⟨e, -, herror⟩ | ⟨_, w₁, _, _, hok, htake, -⟩
  · exact absurd (congrArg Prod.fst (herror.1.symm.trans hmake)) nofun
  · obtain ⟨-, rfl⟩ := Prod.mk.inj (hok.1.symm.trans hmake)
    exact htake.at_end (throughout_take_free hfree command)

end RootLock

/-! ### The steps of a run -/

/-- What is said of a program at its end and of all its calls, said of one that goes. -/
theorem Program.Goes.of_throughout {σ α : Type} {o : Outside σ} {p : Program α}
    {w w' : World σ} {a : α} {tr : List Answered} {P : Call → Prop} {Q : α → World σ → Prop}
    (h : p.Goes o w a tr w') (hp : p.Throughout o (fun _ c => P c) Q w) :
    Q a w' ∧ ∀ x ∈ tr, P x.call := by
  obtain ⟨hrun, rfl⟩ := h
  have htraced := Traced.of_throughout hp
  rw [Traced, hrun] at htraced
  exact ⟨htraced.1, fun x hx => (htraced.2 x hx).elim fun _ hc => hc⟩

section

variable {σ : Type} {o : Outside σ} {a : Arch} {w w' : World σ} {t t' : Toolchain}
  {tr : List Answered}

theorem Sources.fetch_again {r : Root} (hready : r.IsReady a w) {archive : SourceArchive}
    {res : Except SourceError Fetched}
    (h : (fetch archive r r.record).run.Goes o w res tr w') :
    (res = .ok .already ∧ w.Still w') ∧ ∀ x ∈ tr, x.call.IsOwn := by
  refine h.of_throughout (P := Call.IsOwn) (Q := fun res w' => res = .ok .already ∧ w.Still w')
    (Throughout.attempt_lift_bind_iff.mpr ?_)
  refine (Root.throughout_isComplete_again (hready .fetch trivial)).post
    fun done w₁ ⟨hdone, hw₁⟩ => ?_
  subst hdone hw₁
  exact ⟨trivial, rfl, rfl, rfl⟩

theorem Build.Part.Went.again {b : Build} {p : Build.Part} {tried : Option Tried}
    {res : Except BuildError StageOutcome} (hr : b.record = b.root.record)
    (hready : b.root.IsReady a w) (h : p.Went o b a t w tried res t' tr w') :
    (res = .ok .skipped ∧ t' = t ∧ w.Still w') ∧ ∀ x ∈ tr, x.call.IsOwn := by
  have hdir : w.tree.isDir w.cwd (b.root.marker (p.stage a)) = true :=
    hready _ (by cases p <;> rfl)
  have hgoes := h.goes
  rw [start_work, hr] at hgoes
  refine And.imp_left (fun ⟨heq, hw⟩ => ⟨(Prod.mk.inj heq).1, (Prod.mk.inj heq).2, hw⟩)
    (hgoes.of_throughout (Q := fun res w' => res = (.ok .skipped, t) ∧ w.Still w') ?_)
  refine (Root.throughout_isComplete_again hdir).bind fun done w₁ ⟨hdone, hw₁⟩ => ?_
  subst hdone hw₁
  exact ⟨trivial, rfl, rfl, rfl⟩

end

namespace Bootstrap

variable {σ : Type} {o : Outside σ} {v : Bootstrap} {a : Arch} {command : String}
  {w w' : World σ} {t t' : Toolchain} {c i : Option Tried} {tr : List Answered}
  {res : Except BootstrapError Path}

/-- Steps that are all complete are skipped. -/
theorem StepsCourse.again (hready : v.root.IsReady a w)
    (h : StepsCourse o v a t w c i res t' tr w') :
    (res = .ok (v.root.install a) ∧ t' = t ∧ w.Still w') ∧ ∀ x ∈ tr, x.call.IsOwn := by
  -- What is ready stays ready along the way, so no step can fail and each has nothing to do.
  cases h with
  | unfetched hfetch => exact absurd (Sources.fetch_again hready hfetch).1.1 nofun
  | unconfigured hfetch hconfigure =>
      obtain ⟨⟨-, hw₁⟩, -⟩ := Sources.fetch_again hready hfetch
      exact absurd (hconfigure.again rfl (hready.still hw₁)).1.1 nofun
  | uninstalled hfetch hconfigure hinstall =>
      obtain ⟨⟨-, hw₁⟩, -⟩ := Sources.fetch_again hready hfetch
      have hready₁ := hready.still hw₁
      obtain ⟨⟨-, -, hw₂⟩, -⟩ := hconfigure.again rfl hready₁
      exact absurd (hinstall.again rfl (hready₁.still hw₂)).1.1 nofun
  | done hfetch hconfigure hinstall hsaid =>
      obtain ⟨⟨-, hw₁⟩, hfetching⟩ := Sources.fetch_again hready hfetch
      have hready₁ := hready.still hw₁
      obtain ⟨⟨-, rfl, hw₂⟩, hconfiguring⟩ := hconfigure.again rfl hready₁
      obtain ⟨⟨-, rfl, hw₃⟩, hinstalling⟩ := hinstall.again rfl (hready₁.still hw₂)
      obtain ⟨hperform, rfl⟩ := hsaid.of_ask
      obtain ⟨-, rfl⟩ := Prod.mk.inj hperform
      refine ⟨⟨rfl, rfl, hw₃.1.trans (hw₂.1.trans hw₁.1), hw₃.2.trans (hw₂.2.trans hw₁.2)⟩, ?_⟩
      intro x hx
      rcases List.mem_append.mp hx with hx | hx
      · exact hfetching x hx
      rcases List.mem_append.mp hx with hx | hx
      · exact hconfiguring x hx
      rcases List.mem_append.mp hx with hx | hx
      · exact hinstalling x hx
      · obtain rfl := List.mem_singleton.mp hx
        trivial

/-- With the sources there, making LLVM ready is building it, with the lock held. -/
theorem run_prepare_of_fetched {l : RootLock} {w₁ : World σ} (hw : w.IsSound)
    (hdir : w.tree.isDir w.cwd v.root.sources = true)
    (hlock : (RootLock.take v.root command a).run.run o w = (.ok l, w₁))
    (hdir₁ : w₁.tree.isDir w₁.cwd v.root.sources = true) :
    ((v.prepare a command).start t).run o w = ((holding l (v.building a)).start t).run o
      (w₁.perform o (.log .info "sources already fetched")).2 := by
  have hmake := Root.run_makeDirs_of_isDir (o := o) (r := v.root) (s := .fetch) hw hdir
  have hlook : Program.run o (monadLift (v.root.record.isComplete .fetch) : Program Bool) w₁ =
      (true, w₁) := by
    obtain ⟨hstill, hdone⟩ := Root.goes_isComplete (Goes.run o (v.root.isComplete .fetch) w₁)
    exact Prod.ext (hdone.trans hdir₁) hstill
  have hfetch : (Sources.fetch v.settings.archive v.root v.root.record).run.run o w₁ =
      (.ok .already, (w₁.perform o (.log .info "sources already fetched")).2) := by
    rw [Sources.fetch]
    refine (congrArg (Program.run o · w₁) (ExceptT.run_bind_lift ..)).trans ?_
    rw [run_bind, hlook]
    rfl
  rw [start_prepare, run_bind, hmake]
  dsimp only
  rw [prepareThere, run_bind, hlock]
  dsimp only
  rw [start_holding, start_holding, run_bind, run_steps_of_fetched hfetch,
    run_bind o ((v.building a).start t)]

/-- What comes of making LLVM ready where it is: the lock file is
written, unless it cannot be opened. -/
inductive Idles (r : Root) (a : Arch) (cwd : Location) (t : Tree) :
    Except BootstrapError Path → Tree → Prop
  | noted {id : FileId} {t₁ t' : Tree} (hopen : t.openFile cwd r.lock 0o666 = .ok (id, t₁))
      (hnoted : t.Noted cwd r.lock t') : Idles r a cwd t (.ok (r.install a)) t'
  | unopened {e : Errno} (hopen : t.openFile cwd r.lock 0o666 = .error e) :
      Idles r a cwd t (.error (.lock (.failed "open" r.lock e))) t

theorem Idles.eq_ok {r : Root} {cwd : Location} {t t' : Tree}
    (h : Idles r a cwd t res t') {id : FileId}
    (hopen : (t.openFile cwd r.lock 0o666).map Prod.fst = .ok id) :
    res = .ok (r.install a) := by
  cases h with
  | noted => rfl
  | unopened herror =>
      rw [herror] at hopen
      contradiction

theorem Idles.eq_error {r : Root} {cwd : Location} {t t' : Tree}
    (h : Idles r a cwd t res t') {e : Errno}
    (hopen : (t.openFile cwd r.lock 0o666).map Prod.fst = .error e) :
    res = .error (.lock (.failed "open" r.lock e)) := by
  cases h with
  | noted hok =>
      rw [hok] at hopen
      contradiction
  | unopened herror =>
      rw [herror] at hopen
      rw [Except.error.inj hopen]

theorem PrepareCourse.again (hw : w.IsSound) (hready : v.root.IsReady a w)
    (hfree : RootLock.IsFree v.root w) (h : PrepareCourse o v a command t w c i res t' tr w') :
    Idles v.root a w.cwd w.tree res w'.tree ∧ t' = t ∧ ∀ x ∈ tr, x.call.IsOwn := by
  have hdir := hready .fetch trivial
  -- The lock file is all that may be written: it is made if it is not
  -- there, and gets the new record.
  cases h with
  | refused hlock =>
      cases RootLock.taken_of_goes hw hdir hfree hlock with
      | unopened hopen hstill =>
          rw [hstill.1]
          exact ⟨.unopened hopen, rfl, (RootLock.acquire_onlyOwn ..).goes hlock⟩
  | held hlock hsteps hfreed =>
      cases RootLock.taken_of_goes hw hdir hfree hlock with
      | @taken id t₁ content _ hopen htree hcwd =>
          obtain ⟨⟨rfl, rfl, hstill⟩, hown⟩ := hsteps.again (hready.opened hw hopen htree hcwd)
          obtain ⟨hperform, rfl⟩ := hfreed.of_ask
          obtain ⟨-, rfl⟩ := Prod.mk.inj hperform
          have hend : w.tree.Noted w.cwd v.root.lock (t₁.setContent id content) :=
            noted_of_openFile hopen content
          rw [← htree, ← hstill.1] at hend
          refine ⟨.noted hopen hend, rfl, fun x hx => ?_⟩
          rcases List.mem_append.mp hx with hx | hx
          · exact (RootLock.acquire_onlyOwn ..).goes hlock x hx
          rcases List.mem_append.mp hx with hx | hx
          · exact hown x hx
          · obtain rfl := List.mem_singleton.mp hx
            trivial

end Bootstrap

/-! ### The build tool of the project -/

namespace Downstream

variable {σ : Type} {o : Outside σ} {p : Platform} {d : Downstream} {q : Request}
  {install : Path} {tried : Option Tried} {w w' : World σ} {tr : List Answered}
  {res : Except InvokeError Unit}

/-- Others are asked to make the environment if the action compiles, and then to do it; that is
left out only where there is no target or no environment. -/
structure OnlyInvokes (o : Outside σ) (p : Platform) (d : Downstream) (q : Request)
    (install : Path)
    (w : World σ) (tried : Option Tried) (res : Except InvokeError Unit) (tr : List Answered)
    (w' : World σ) : Prop where
  outward : ∃ asked, LlvmBootstrap.outward tr =
    asked ++ tried.toList.map (fun x => ⟨.spawn .shared x.1, x.2⟩) ∧
    (asked = [] ∨ q.action.compiles = true ∧ ∃ m found answer, p = .msvc m ∧
      asked = [⟨.spawn .collected (Msvc.initCommand found q.arch), answer⟩])
  others : ∀ x ∈ tr, x.call.Asks ∨ ∃ y ∈ tried, x = ⟨.spawn .shared y.1, y.2⟩
  does : ∀ x ∈ tried, d.Does q install x.1
  missing : tried = none → ∃ e, res = .error (.platform e) ∧
    (q.action.needsTarget = true ∧ p.triple q.arch = .error e ∨
      q.action.compiles = true ∧ (p.environment q.arch).run.Goes o w (.error e) tr w')

theorem environment_of_goes {h : Host} {a : Arch} {t' : Toolchain}
    {res : Except PlatformError Variables}
    (hgoes : ((Work.environment h).start (.of a)).Goes o w (res, t') tr w') :
    (h.environment a).run.Goes o w res tr w' := by
  rw [Work.start_environment] at hgoes
  obtain ⟨made, w₁, tr₁, tr₂, hmade, hrest, rfl⟩ := hgoes.of_bind
  cases made <;>
    · obtain ⟨heq, rfl, rfl⟩ := hrest.of_pure
      obtain ⟨rfl, -⟩ := Prod.mk.inj heq
      rwa [List.append_nil]

/-- To make a command ready the environment is made, if the action
compiles, and nothing else done. -/
theorem environment_of_withToolchain {t' : Toolchain} {cmd : Command}
    {res : Except PlatformError Command}
    (h : ((d.withToolchain q.action cmd).start (.of q.arch)).Goes o w (res, t') tr w') :
    (res = .ok cmd ∧ tr = []) ∨ q.action.compiles = true ∧
      ∃ made, (d.host.environment q.arch).run.Goes o w made tr w' ∧
        res = made.map cmd.withVars := by
  rw [withToolchain] at h
  split at h
  · refine .inr ⟨‹_›, ?_⟩
    rcases h.of_work_bind with ⟨e, rfl, hmade⟩ | ⟨vars, t₁, w₁, tr₁, tr₂, hmade, hrest, rfl⟩
    · exact ⟨_, environment_of_goes hmade, rfl⟩
    · obtain ⟨rfl, -, rfl, rfl⟩ := hrest.of_work_pure
      rw [List.append_nil]
      exact ⟨_, environment_of_goes hmade, rfl⟩
  · obtain ⟨rfl, -, rfl, -⟩ := h.of_work_pure
    exact .inl ⟨rfl, rfl⟩

/-- What making a command ready asks of others. -/
theorem asked_of_withToolchain {t' : Toolchain} {cmd : Command}
    {res : Except PlatformError Command} (hp : d.host = p)
    (h : ((d.withToolchain q.action cmd).start (.of q.arch)).Goes o w (res, t') tr w') :
    LlvmBootstrap.outward tr = [] ∨ q.action.compiles = true ∧ ∃ m found answer, p = .msvc m ∧
      LlvmBootstrap.outward tr =
        [⟨.spawn .collected (Msvc.initCommand found q.arch), answer⟩] := by
  rcases environment_of_withToolchain h with ⟨-, rfl⟩ | ⟨hcompiles, made, hmade, -⟩
  · exact .inl rfl
  · rw [hp] at hmade
    exact (p.outward_environment hmade).imp_right fun hone => ⟨hcompiles, hone⟩

theorem Course.onlyInvokes (hp : d.host = p)
    (h : Course o d q install (.of q.arch) w tried res tr w') :
    OnlyInvokes o p d q install w tried res tr w' := by
  have hasks : d.host.OnlyAsks := hp ▸ p.onlyAsks
  have hdoes := h.does
  cases h with
  | unsupported hcommand =>
      obtain ⟨hneeds, htriple⟩ := command_eq_error_iff.mp hcommand
      rw [hp] at htriple
      exact ⟨⟨[], rfl, .inl rfl⟩, fun _ hx => absurd hx List.not_mem_nil, hdoes,
        fun _ => ⟨_, rfl, .inl ⟨hneeds, htriple⟩⟩⟩
  -- Only a tool that compiles is given an environment, and only
  -- asking for that one can fail here.
  | stopped hcommand henv =>
      refine ⟨⟨_, (List.append_nil _).symm, asked_of_withToolchain hp henv⟩,
        fun x hx => .inl ((withToolchain_onlyAsks hasks ..).goes henv x hx), hdoes,
        fun _ => ⟨_, rfl, .inr ?_⟩⟩
      rcases environment_of_withToolchain henv with ⟨hres, -⟩ | ⟨hcompiles, made, hmade, hres⟩
      · contradiction
      · cases made with
        | ok vars => contradiction
        | error e =>
            obtain rfl := Except.error.inj hres
            rw [hp] at hmade
            exact ⟨hcompiles, hmade⟩
  | @ran cmd cmd' t' before said w₁ w₂ w₃ answer hcommand henv hsaid hspawn =>
      have hsaying := hsaid.of_ask.2
      refine ⟨⟨LlvmBootstrap.outward before, ?_, asked_of_withToolchain hp henv⟩,
        fun x hx => ?_, hdoes, nofun⟩
      · rw [outward_append, outward_append, hsaying]
        rfl
      · rw [hsaying] at hx
        rcases List.mem_append.mp hx with hx | hx
        · exact .inl ((withToolchain_onlyAsks hasks ..).goes henv x hx)
        rcases List.mem_append.mp hx with hx | hx
        · obtain rfl := List.mem_singleton.mp hx
          exact .inl (.log ..)
        · obtain rfl := List.mem_singleton.mp hx
          exact .inr ⟨_, rfl, rfl⟩

end Downstream

/-! ### Running again -/

namespace Bootstrap

/-- What comes of a run where LLVM is ready: the lock file is written, and then the
build tool of the project is run. -/
inductive Resumes {σ : Type} (o : Outside σ) (p : Platform) (v : Bootstrap) (q : Request)
    (w : World σ) :
    Except BootstrapError Unit → List Answered → World σ → Prop
  | unopened {e : BootstrapError} {tr : List Answered} {w' : World σ}
      (hidles : Idles v.root q.arch w.cwd w.tree (.error e) w'.tree)
      (hown : ∀ x ∈ tr, x.call.IsOwn) :
      Resumes o p v q w (.error e) tr w'
  | invoked {install : Path} {tried : Option Tried} {res : Except InvokeError Unit}
      {preparing invoking : List Answered} {w₁ w' : World σ}
      (hidles : Idles v.root q.arch w.cwd w.tree (.ok install) w₁.tree)
      (hown : ∀ x ∈ preparing, x.call.IsOwn)
      (hinvokes : Downstream.OnlyInvokes o p v.downstream q install w₁ tried res invoking w') :
      Resumes o p v q w (res.mapError .invoke) (preparing ++ invoking) w'

/-- Once LLVM is ready for an architecture, making it ready again only takes the lock, if it
is free, and writes the lock file. That fails only where the lock file cannot be opened.
Whatever is set, and whatever others would answer, nobody is asked anything. A run only has
its build tool run beyond that. -/
theorem prepare_again {σ σ' : Type} {o₀ : Outside σ} {o : Outside σ'} {v₀ v : Bootstrap}
    {p : Platform} {a : Arch} {command₀ : String} {t₀ t₁ : Toolchain} {w₀ w₁ : World σ}
    {w : World σ'} {install : Path} {tr₀ : List Answered}
    (hfirst : ((v₀.prepare a command₀).start t₀).Goes o₀ w₀ (.ok install, t₁) tr₀ w₁)
    (hready : v₀.root.IsReady a w₁) (hsound : w₁.IsSound)
    (hroot : v.root = v₀.root) (hp : v.host = p) (htree : w.tree = w₁.tree)
    (hcwd : w.cwd = w₁.cwd) (hfree : RootLock.IsFree v.root w) :
    install = v.root.install a ∧
      (∀ {command t res t' tr w'}, ((v.prepare a command).start t).Goes o w (res, t') tr w' →
        Idles v.root a w.cwd w.tree res w'.tree ∧ t' = t ∧ ∀ x ∈ tr, x.call.IsOwn) ∧
      ∀ {q res tr w'}, q.arch = a → (v.run q).Goes o w res tr w' →
        Resumes o p v q w res tr w' := by
  have hsound' : w.IsSound := ⟨htree ▸ hsound.closed, htree ▸ hcwd ▸ hsound.cwd⟩
  have hready' : v.root.IsReady a w := fun s hs => by
    rw [htree, hcwd, hroot]
    exact hready s hs
  refine ⟨?_, fun {command t res t' tr w'} h => ?_, fun {q res tr w'} hq h => ?_⟩
  · obtain ⟨c, i, hcourse⟩ := prepareCourse_of_goes hfirst
    rw [hroot]
    exact hcourse.eq_install
  · obtain ⟨c, i, hcourse⟩ := prepareCourse_of_goes h
    exact hcourse.again hsound' hready' hfree
  · subst hq
    obtain ⟨c, i, d, hcourse⟩ := course_of_goes h
    cases hcourse with
    | unprepared hprepare =>
        obtain ⟨hidles, -, hown⟩ := hprepare.again hsound' hready' hfree
        exact .unopened hidles hown
    | prepared hprepare hinvoke =>
        obtain ⟨hidles, rfl, hown⟩ := hprepare.again hsound' hready' hfree
        exact .invoked hidles hown (hinvoke.course.onlyInvokes hp)

/-! The lock file is not safe from the commands that are run. -/

def halfBuilt : World Unit :=
  let dirs : List (List String) := [["llvm"], ["llvm", "source"], ["llvm", "build-x64"]]
  .fresh (dirs.foldl (fun t ns => t.put (ns.map Utf8.encode) (.dir 0o755)) .empty)
  [] .empty 1 ()

theorem isSound_halfBuilt : halfBuilt.IsSound := ⟨.of_entries (by cbv), 0o755, rfl⟩

def installing (first : Tree → Tree) : Outside Unit where
  spawn _ _ _ t s :=
    (.ok ⟨⟨some 0⟩, [], []⟩, (first t).put (["llvm", "x64"].map Utf8.encode) (.dir 0o755), s)
  send _ s := (.error (), s)
  clock s := (0, s)
  draw s := ([], s)

def prepareHere : Program (Except BootstrapError Path × Toolchain) :=
  (onLinux.prepare .x64 "setup").start (.of .x64)

def built (o : Outside Unit) : (Except BootstrapError Path × Toolchain) × World Unit :=
  let locked := ((RootLock.take onLinux.root "setup" .x64).run.run o halfBuilt).2
  ((holding ⟨3, onLinux.root.lock⟩ (onLinux.building .x64)).start (.of .x64)).run o
    (locked.perform o (.log .info "sources already fetched")).2

theorem run_prepareHere (o : Outside Unit) : prepareHere.run o halfBuilt = built o := by
  have hdir : halfBuilt.tree.isDir halfBuilt.cwd onLinux.root.sources = true := by cbv
  have htaken : RootLock.Taken onLinux.root halfBuilt
      ((RootLock.take onLinux.root "setup" .x64).run.run o halfBuilt).1
      ((RootLock.take onLinux.root "setup" .x64).run.run o halfBuilt).2 :=
    (RootLock.throughout_take_free (fun _ _ _ => rfl) "setup").at_end
  rw [built]
  cases hrun : (RootLock.take onLinux.root "setup" .x64).run.run o halfBuilt with
  | mk res w₁ =>
      rw [hrun] at htaken
      cases htaken with
      | unopened hopen =>
          have hopens : (halfBuilt.tree.openFile halfBuilt.cwd onLinux.root.lock 0o666).isOk =
              true := by
            cbv
          rw [hopen] at hopens
          contradiction
      | taken hopen htree hcwd =>
          have hdir₁ := Root.isDir_opened (s := .fetch) hdir isSound_halfBuilt hopen htree hcwd
          exact run_prepare_of_fetched isSound_halfBuilt hdir hrun hdir₁

/-- Nobody is at work, and everything for an architecture is there. -/
structure Rests (a : Arch) (w : World Unit) : Prop where
  sound : w.IsSound
  locks : w.locks.entries = []
  ready : onLinux.root.IsReady a w

def rests (a : Arch) (w : World Unit) : Bool :=
  w.cwd = [] && w.locks.entries.isEmpty &&
    w.tree.nodes.entries.all
    (fun e => (w.tree.node? e.1.dropLast).map Node.objectKind = some .dir) &&
    [.fetch, .configure a, .install a].all fun s => w.tree.isDir w.cwd (onLinux.root.marker s)

theorem Rests.of_test {a : Arch} {w : World Unit} (h : rests a w = true) : Rests a w := by
  simp only [rests, Bool.and_eq_true, decide_eq_true_eq, List.isEmpty_iff,
    List.all_cons, List.all_nil, and_true] at h
  obtain ⟨⟨⟨hcwd, hlocks⟩, hclosed⟩, hfetch, hconfigure, hinstall⟩ := h
  refine ⟨⟨.of_entries hclosed, 0o755, by rw [hcwd]; rfl⟩, hlocks, fun s hs => ?_⟩
  cases s with
  | fetch => exact hfetch
  | configure a' => exact (show a' = a from hs) ▸ hconfigure
  | install a' => exact (show a' = a from hs) ▸ hinstall

theorem Rests.isFree {a : Arch} {w : World Unit} (h : Rests a w) (r : Root) :
    RootLock.IsFree r w :=
  fun id _ _ => by
    rw [SortedMap.get?, h.locks]
    rfl

theorem rests_installing : let run := prepareHere.run (installing id) halfBuilt
    run.1 = (.ok "llvm/x64", ⟨.x64, some .empty⟩) ∧ Rests .x64 run.2 ∧
      (run.2.tree.openFile run.2.cwd onLinux.root.lock 0o666).map Prod.fst = .ok 0 := by
  have hbuilt : let out := built (installing id)
      (out.1, rests .x64 out.2,
        (out.2.tree.openFile out.2.cwd onLinux.root.lock 0o666).map Prod.fst) =
          ((.ok "llvm/x64", ⟨.x64, some .empty⟩), true, .ok 0) := by
    cbv
  simp only [← run_prepareHere, Prod.mk.injEq] at hbuilt
  exact ⟨hbuilt.1, .of_test hbuilt.2.1, hbuilt.2.2⟩

def onMsvc : Bootstrap := { onLinux with host := Platform.msvc ⟨"C:", none, .empty, none⟩ }

/-- What was built on one platform is ready on another one. -/
theorem prepare_again_elsewhere :
    let w := (prepareHere.run (installing id) halfBuilt).2
    prepareHere.Goes (installing id) halfBuilt (.ok "llvm/x64", ⟨.x64, some .empty⟩)
        (prepareHere.trace (installing id) halfBuilt) w ∧
      onLinux.root.IsReady .x64 w ∧ w.IsSound ∧ RootLock.IsFree onMsvc.root w ∧
      ∀ command t, (((onMsvc.prepare .x64 command).start t).run Archive.silent w).1 =
        (.ok (onMsvc.root.install .x64), t) := by
  have hrests := rests_installing
  revert hrests
  generalize hrun : prepareHere.run (installing id) halfBuilt = run
  rintro ⟨hres, hrests, hopen⟩
  have hfirst : prepareHere.Goes (installing id) halfBuilt
      (.ok "llvm/x64", ⟨.x64, some .empty⟩)
      (prepareHere.trace (installing id) halfBuilt) run.2 :=
        ⟨hrun.trans (Prod.ext hres rfl), rfl⟩
  have hfree : RootLock.IsFree onMsvc.root run.2 := hrests.isFree _
  refine ⟨hfirst, hrests.ready, hrests.sound, hfree, fun command t => ?_⟩
  have hagain :=
    prepare_again (o := Archive.silent) hfirst hrests.ready hrests.sound (v := onMsvc) rfl
    (p := .msvc ⟨"C:", none, .empty, none⟩) rfl rfl rfl hfree
  obtain ⟨hidles, htoolchain, -⟩ :=
    hagain.2.1 (Goes.run Archive.silent ((onMsvc.prepare .x64 command).start t) run.2)
  exact Prod.ext (hidles.eq_ok hopen) htoolchain

def lockReplacing : Outside Unit :=
  let lock := ["llvm", ".lock"].map Utf8.encode
  installing fun t => (t.remove lock).put lock (.dir 0o755)

theorem rests_lockReplacing : let run := prepareHere.run lockReplacing halfBuilt
    run.1 = (.ok "llvm/x64", ⟨.x64, some .empty⟩) ∧ Rests .x64 run.2 ∧
      (run.2.tree.openFile run.2.cwd onLinux.root.lock 0o666).map Prod.fst =
        .error .isDirectory := by
  have hbuilt : let out := built lockReplacing
      (out.1, rests .x64 out.2,
        (out.2.tree.openFile out.2.cwd onLinux.root.lock 0o666).map Prod.fst) =
          ((.ok "llvm/x64", ⟨.x64, some .empty⟩), true, .error .isDirectory) := by
    cbv
  simp only [← run_prepareHere, Prod.mk.injEq] at hbuilt
  exact ⟨hbuilt.1, .of_test hbuilt.2.1, hbuilt.2.2⟩

/-- Nobody has the lock, all that is to be made is there, and yet the
root cannot be made ready again. -/
theorem prepare_again_lockReplaced :
    let w := (prepareHere.run lockReplacing halfBuilt).2
    (prepareHere.run lockReplacing halfBuilt).1.1 = .ok "llvm/x64" ∧ w.locks.entries = [] ∧
      onLinux.root.IsReady .x64 w ∧
      (prepareHere.run lockReplacing w).1.1 =
        .error (.lock (.failed "open" onLinux.root.lock .isDirectory)) := by
  have hrests := rests_lockReplacing
  revert hrests
  generalize prepareHere.run lockReplacing halfBuilt = run
  rintro ⟨hres, hrests, hopen⟩
  refine ⟨congrArg Prod.fst hres, hrests.locks, hrests.ready, ?_⟩
  obtain ⟨c, i, hcourse⟩ := prepareCourse_of_goes (Goes.run lockReplacing prepareHere run.2)
  obtain ⟨hidles, -⟩ := hcourse.again hrests.sound hrests.ready (hrests.isFree _)
  exact hidles.eq_error hopen

end Bootstrap

end LlvmBootstrap
