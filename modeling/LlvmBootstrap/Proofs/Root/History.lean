import LlvmBootstrap.Proofs.Archive.Gzipped
import LlvmBootstrap.Proofs.Root.Running
import LlvmBootstrap.Proofs.Root.Together
import LlvmBootstrap.Proofs.Run.Calls
import LlvmBootstrap.Proofs.Sources.Checks

/-!
All that is ever done with a root, from nothing on. Whatever the runs come to, one after
another and for any architectures, in the root there is nothing but the lock file and the
directories of the stages that have been done, each of them once.
-/

namespace LlvmBootstrap

open LlvmBootstrap.Tree Program

def Errand.arch : Errand → Arch
  | .prepare a _ => a
  | .run q => q.arch

/-- One use of a root: what is asked for, by which process, and what it finds outside. -/
structure Use (σ : Type) where
  settings : Settings
  platform : Platform
  errand : Errand
  /-- What a preparation is told of the compilers. -/
  toolchain : Toolchain
  process : Process
  outside : Outside σ

namespace Use

variable {σ : Type}

def bootstrap (u : Use σ) (r : Root) : Bootstrap := ⟨u.settings, r, u.platform⟩

def program (u : Use σ) (r : Root) : Program (Except BootstrapError Unit) :=
  match u.errand with
  | .prepare a command =>
    ((u.bootstrap r).prepare a command).start u.toolchain >>= fun res =>
      pure (res.1.map fun _ => ())
  | .run q => (u.bootstrap r).run q

def programThere (u : Use σ) (r : Root) : Program (Except BootstrapError Unit) :=
  match u.errand with
  | .prepare a command =>
    (u.bootstrap r).prepareThere a command u.toolchain >>= fun res =>
      pure (res.1.map fun _ => ())
  | .run q =>
    (u.bootstrap r).prepareThere q.arch q.action.subcommand (.of q.arch) >>= fun
      | (.ok install, t) =>
          (((u.bootstrap r).downstream.invoke q install).adapt .invoke).start t >>=
          fun res => pure res.1
      | (.error e, _) => pure (.error e)

theorem program_eq (u : Use σ) (r : Root) :
    u.program r = (makeDirs r.path).run >>= fun
      | .ok () => u.programThere r
      | .error e => pure (.error (.lock (.failed "create" r.path e))) := by
  rw [program, programThere]
  cases u.errand with
  | prepare a command =>
      dsimp only
      rw [Bootstrap.start_prepare, LawfulMonad.bind_assoc]
      refine congrArg ((makeDirs r.path).run >>= ·) (funext fun res => ?_)
      rcases res with e | ⟨⟩ <;> rfl
  | run q =>
      dsimp only
      rw [Bootstrap.run, Work.start_bind, Bootstrap.start_prepare]
      simp only [LawfulMonad.bind_assoc]
      refine congrArg ((makeDirs r.path).run >>= ·) (funext fun res => ?_)
      rcases res with e | ⟨⟩
      · rfl
      · refine congrArg (Program.bind _) (funext fun res => ?_)
        obtain ⟨e | install, t⟩ := res <;> rfl

/-- The commands of the use keep to the directories of its architecture, and it
is made in the directory `cwd`. -/
structure Fits (u : Use σ) (r : Root) (cwd : Location) : Prop where
  cwd : u.process.cwd = cwd
  tame : u.outside.Tame (u.bootstrap r).build u.errand.arch
  draws : u.outside.DrawsPlain

/-- The calls of uses of a root, one after another, and the world in the end. -/
def series (r : Root) : List (Use σ) → World σ → List Answered × World σ
  | [], w => ([], w)
  | u :: us, w =>
    let rest := series r us ((u.program r).run u.outside (w.as u.process)).2
    ((u.program r).trace u.outside (w.as u.process) ++ rest.1, rest.2)

end Use

namespace Root

variable {σ : Type} {r : Root} {m w w' : World σ} {top : Location} {s : Stage} {o : Outside σ}
  {u : Use σ} {us : List (Use σ)} {tr tr' : List Answered}

/-! ### While the root is there -/

theorem advances_programThere (hb : Bare r m top) (hu : u.Fits r m.cwd) (hw : Tidy r m top w) :
    Advances r m top u.outside (fun _ _ => True) (u.programThere r) w := by
  have hbuild : u.outside.Suits r (u.bootstrap r).build u.errand.arch :=
    ⟨rfl, rfl, u.platform.onlyAsks, hu.tame⟩
  rw [Use.programThere]
  cases herrand : u.errand with
  | prepare a command =>
      rw [herrand] at hbuild
      refine (advances_prepareThere hb rfl hbuild hu.draws hw command u.toolchain).bind ?_
      exact fun _ _ hw' _ => .done hw' trivial
  | run q =>
      rw [herrand] at hbuild
      refine (advances_prepareThere hb rfl hbuild hu.draws hw q.action.subcommand _).bind ?_
      rintro ⟨e | install, t⟩ w₁ hw₁ -
      · exact .done hw₁ trivial
      · have hinvoke := advances_invoke hb hbuild hw₁ (u.bootstrap r).downstream
          u.platform.onlyAsks q install t
        refine Advances.bind (P := fun _ _ => True) (.work_adapt hinvoke) ?_
        exact fun _ _ hw₂ _ => .done hw₂ trivial

theorem Tidy.as (hw : Tidy r m top w) {p : Process} (hp : p.cwd = m.cwd) :
    Tidy r m top (w.as p) :=
  hw.congr (fun _ => rfl) (hp.trans hw.cwd.symm)

theorem advances_program (hb : Bare r m top) (hu : u.Fits r m.cwd) (hw : Tidy r m top w) :
    Advances r m top u.outside (fun _ _ => True) (u.program r) w := by
  rw [Use.program_eq]
  have hmake : (makeDirs r.path).run.Throughout u.outside (fun _ c => Making [r.path] c)
      (fun _ w' => w' = w) w := throughout_makeDirs_of_reaches (hw.reaches hb) fun _ hc => hc
  have hquiet : Advances r m top u.outside (fun _ _ => True) (makeDirs r.path).run w := by
    refine (Traced.of_throughout hmake).post ?_
    rintro res tr w' ⟨rfl, hcalls⟩
    refine ⟨hw, .of_quiet (fun x hx s => ?_) fun _ => Iff.rfl, trivial⟩
    obtain ⟨-, hmaking⟩ := hcalls x hx
    exact not_serves_of_making hmaking s
  refine hquiet.bind ?_
  rintro (e | ⟨⟩) w₁ hw₁ -
  · exact .done hw₁ trivial
  · exact advances_programThere hb hu hw₁

/-- Use after use leaves a tidy root, with progress of the stages. -/
theorem series_of_tidy (hb : Bare r m top) (hus : ∀ u ∈ us, u.Fits r m.cwd)
    (hw : Tidy r m top w) :
    Tidy r m top (Use.series r us w).2 ∧
      Progress r top w.tree (Use.series r us w).1 (Use.series r us w).2.tree := by
  induction us generalizing w with
  | nil => exact ⟨hw, .refl ..⟩
  | cons u us ih =>
      have hu := hus u (List.mem_cons_self ..)
      obtain ⟨hw₁, hp₁, -⟩ := advances_program hb hu (hw.as hu.cwd)
      obtain ⟨hw₂, hp₂⟩ := ih (fun u' h => hus u' (List.mem_cons_of_mem _ h)) hw₁
      exact ⟨hw₂, hp₁.trans hp₂⟩

/-! ### From nothing on -/

/-- As soon as the root is there, it is empty, whichever directories on the way to it have been
made. So it is not there yet, or is empty, and no way to it leads through it. -/
def BeginsEmpty (r : Root) (w : World σ) : Prop :=
  ∀ t top, Grown w.cwd (r.path :: ancestors r.path) w.tree t → Reaches t w.cwd r.path top →
    t.isVacantBelow top = true

/-- A root whose name is still free in a directory that is there, or
stands for an empty directory. -/
theorem BeginsEmpty.of_above {p : Path} {n : Name} {dir : Location} (hw : w.IsSound)
    (hp : Path.Extends p [n] r.path) (hr : Reaches w.tree w.cwd p dir)
    (hlink : ∀ target, w.tree.node? (dir ++ [n]) ≠ some (.link target))
    (hvacant : w.tree.isVacantBelow (dir ++ [n]) = true) : BeginsEmpty r w := by
  intro t top hgrown htop
  have hroutes := hgrown.newDirs.routesKept
  -- The root is an entry of a directory that was there before, and the entry is no link.
  obtain rfl : top = dir ++ [n] := by
    obtain ⟨links, hl⟩ := htop.leads
    rw [hp.moves_eq, List.map_singleton, Path.start, hp.isAbsolute_eq] at hl
    obtain ⟨links', dir', hl', hlast⟩ := hl.of_append
    obtain ⟨_, hl''⟩ := (hr.mono hroutes).leads
    obtain rfl := hl''.unique hl'
    cases hlast with
    | dir short node rest => cases rest; rfl
    | link short node rest =>
        rcases hgrown.newDirs.nodes (dir ++ [n]) with hsame | ⟨-, mode, hdir⟩
        · exact absurd (hsame.symm.trans node) (hlink _)
        · exact absurd (node.symm.trans hdir) (by simp)
  refine isVacantBelow_iff.mpr fun rel hne => ?_
  by_contra hnode
  obtain ⟨q, hq, hreach⟩ := hgrown.led _ (isVacantBelow_iff.mp hvacant rel hne) hnode
  rcases List.mem_cons.mp hq with rfl | hq
  · have heq := hreach.unique htop
    exact hne (List.append_right_eq_self.mp heq)
  · -- The paths above the root lead to directories that were there before.
    have hway := (Path.isAbove_of_mem_ancestors hq).isOnWay_of_extends hp
    obtain ⟨loc, hbefore⟩ := hr.of_isOnWay hw.closed (dir_start hw.cwd p) hway
    obtain rfl := hreach.unique (hbefore.mono hroutes)
    obtain ⟨mode, hdir⟩ := hbefore.dir
    rw [isVacantBelow_iff.mp hvacant rel hne] at hdir
    contradiction

/-- What is known of a root from all calls that have been made. -/
structure Orderly (r : Root) (tr : List Answered) (w : World σ) : Prop where
  /-- There is nothing in the root but the lock file and the directories of stages. -/
  entries : ∀ top, Reaches w.tree w.cwd r.path top →
    ∀ n node, w.tree.node? (top ++ [n]) = some node → Entry r n node
  order : ∀ s s', s.Needs s' → w.tree.isDir w.cwd (r.marker s) = true →
    w.tree.isDir w.cwd (r.marker s') = true
  /-- The directory of a stage is there exactly if the stage has been done. -/
  done_iff : ∀ s, w.tree.isDir w.cwd (r.marker s) = true ↔ ∃ x ∈ tr, Completes r s x
  /-- After a stage has been done nothing is done for it any more. -/
  once : ∀ s, tr.Pairwise fun x y => Completes r s x → ¬ Serves r s y.call

theorem Orderly.of_tidy (hb : Bare r m top) (hw : Tidy r m top w)
    (hp : Progress r top m.tree tr w.tree) : Orderly r tr w where
  entries top' hr n node hn := by
    obtain rfl := hr.unique (hw.reaches hb)
    exact hw.entries n node hn
  order s s' hn hs :=
    (hw.isDir_marker_iff hb).mpr (hw.order s s' hn ((hw.isDir_marker_iff hb).mp hs))
  done_iff s := by
    have hnot : ¬ Has top s m.tree := by
      rintro ⟨mode, hm⟩
      rw [isVacantBelow_iff.mp hb.vacant _ (List.cons_ne_nil _ _)] at hm
      contradiction
    rw [hw.isDir_marker_iff hb, hp.has_iff, or_iff_right hnot]
  once := hp.once

/-- Calls that serve no stage change nothing of that. -/
theorem Orderly.quiet_append (h : Orderly r tr' w) (htr : ∀ x ∈ tr, ∀ s, ¬ Serves r s x.call) :
    Orderly r (tr ++ tr') w where
  entries := h.entries
  order := h.order
  done_iff s := by
    rw [h.done_iff]
    constructor
    · rintro ⟨x, hx, hc⟩
      exact ⟨x, List.mem_append_right _ hx, hc⟩
    · rintro ⟨x, hx, hc⟩
      rcases List.mem_append.mp hx with hx | hx
      · exact absurd hc.serves (htr x hx s)
      · exact ⟨x, hx, hc⟩
  once s := by
    refine List.pairwise_append.mpr
      ⟨?_, h.once s, fun x hx _ _ hc => absurd hc.serves (htr x hx s)⟩
    exact List.pairwise_of_forall_mem_list fun x hx _ _ hc => absurd hc.serves (htr x hx s)

/-- While the root is not there, no stage is. -/
theorem Orderly.of_unmade (hw : w.IsSound) (hno : ∀ top, ¬ Reaches w.tree w.cwd r.path top) :
    Orderly r [] w := by
  have hnot : ∀ s, ¬ w.tree.isDir w.cwd (r.marker s) = true := by
    intro s hs
    obtain ⟨hp, loc, mode, hwalk⟩ := isDir_iff.mp hs
    have hresolve : w.tree.resolve w.cwd true (r.marker s) = .ok (.found loc (.dir mode)) := by
      rw [resolve_eq, hp]
      exact hwalk
    obtain ⟨top, hr⟩ :=
      Reaches.of_resolve hw.closed (dir_start hw.cwd r.path) (r.extends_marker s) hresolve
    exact hno top hr
  refine ⟨fun top hr => absurd hr (hno top), fun s _ _ hs => absurd hs (hnot s), fun s => ?_,
    fun _ => .nil⟩
  exact iff_of_false (hnot s) (by simp)

theorem BeginsEmpty.bare (hempty : BeginsEmpty r w) (hw : w.IsSound)
    (hr : Reaches w.tree w.cwd r.path top) : Bare r w top :=
  ⟨hw, hr, hempty w.tree top (.refl ..) hr⟩

theorem BeginsEmpty.of_moreDirs (hempty : BeginsEmpty r w)
    (hmore : MoreDirs (r.path :: ancestors r.path) w w') : BeginsEmpty r w' := by
  obtain ⟨hcwd, hgrown⟩ := hmore
  intro t top hgrown' hr
  rw [hcwd] at hgrown' hr
  exact hempty t top (hgrown.trans hgrown') hr

/-- From a root that is not there yet, or is empty, the uses of it lead to an orderly one,
however many there are, for whatever architectures and with whatever results. -/
theorem orderly_series (hw : w.IsSound) (hempty : BeginsEmpty r w)
    (hus : ∀ u ∈ us, u.Fits r w.cwd) :
    Orderly r (Use.series r us w).1 (Use.series r us w).2 := by
  induction us generalizing w with
  | nil =>
      by_cases hr : ∃ top, Reaches w.tree w.cwd r.path top
      · obtain ⟨top, hr⟩ := hr
        have hb := hempty.bare hw hr
        exact .of_tidy hb hb.tidy (.refl ..)
      · exact .of_unmade hw (not_exists.mp hr)
  | cons u us ih =>
      have hu := hus u (List.mem_cons_self ..)
      have hrest : ∀ u' ∈ us, u'.Fits r w.cwd := fun u' h => hus u' (List.mem_cons_of_mem _ h)
      have hw₀ : (w.as u.process).IsSound := by
        obtain ⟨mode, hm⟩ := hw.cwd
        exact ⟨hw.closed, mode, (congrArg w.tree.node? hu.cwd).trans hm⟩
      have hempty₀ : BeginsEmpty r (w.as u.process) := by
        intro t top
        rw [show (w.as u.process).cwd = w.cwd from hu.cwd]
        exact hempty t top
      -- Making the root comes first and serves no stage.
      have hquiet : ∀ x ∈ (makeDirs r.path).run.trace u.outside (w.as u.process), ∀ s,
          ¬ Serves r s x.call := fun x hx =>
        not_serves_of_making ((makeDirs_only r.path).trace u.outside (w.as u.process) x hx)
      obtain ⟨hmade, hmore⟩ := Sources.madeDir_rootMade (o := u.outside) (r := r) hw₀ rfl
      rw [Use.series, Use.program_eq, run_bind, trace_bind]
      cases hrun : (makeDirs r.path).run.run u.outside (w.as u.process) with
      | mk res w₁ =>
          rw [hrun] at hmade hmore
          have hcwd₁ : w₁.cwd = w.cwd := hmade.2.1.trans hu.cwd
          have hempty₁ := hempty₀.of_moreDirs hmore
          rw [← hcwd₁] at hrest
          rcases res with e | ⟨⟩
          · have hlater := ih hmade.1 hempty₁ hrest
            rw [List.append_assoc]
            exact hlater.quiet_append hquiet
          · obtain ⟨top, hr⟩ := hmade.2.2 rfl
            have hb := hempty₁.bare hmade.1 hr
            have hu₁ : u.Fits r w₁.cwd := hcwd₁ ▸ hu
            obtain ⟨hw₂, hp₂, -⟩ := advances_programThere hb hu₁ hb.tidy
            obtain ⟨hw₃, hp₃⟩ := series_of_tidy hb hrest hw₂
            rw [List.append_assoc]
            exact (Orderly.of_tidy hb hw₃ (hp₂.trans hp₃)).quiet_append hquiet

/-! ### Tools that do as they should -/

/-- Tools that do nothing but make the install directory, where that is for them to do, and a
server that has the sources: an archive of one empty file. -/
def makingInstall (b : Build) (a : Arch) : Outside Unit where
  spawn caller output c t s :=
    match if output = .shared ∧ c.vars.map (b.installCommand a) = some c then
        (Change.mkdir (b.root.install a)).apply t caller.cwd else .ok t with
    | .ok t' => (.ok ⟨.zero, [], []⟩, t', s)
    | .error e => (.error (.system e), t, s)
  send _ s := (.ok ⟨200, none, Archive.headerA⟩, s)
  clock s := (0, s)
  draw s := ([0x78], s)

theorem spares_refl {a : Arch} {t : Tree} {installs succeeds : Prop} (hc : t.Closed)
    (hinstalled : installs → succeeds → Has top (.install a) t) :
    t.Spares top a t installs succeeds :=
  ⟨hc, fun _ _ _ => rfl, fun _ hs => hs, fun _ hn => .inl hn, hinstalled⟩

theorem spares_mkdir {b : Build} {a : Arch} {t t' : Tree} {cwd : Location}
    {installs succeeds : Prop} (hi : installs) (hc : t.Closed)
    (hr : Reaches t cwd b.root.path top)
    (h : (Change.mkdir (b.root.install a)).apply t cwd = .ok t') :
    t.Spares top a t' installs succeeds := by
  obtain ⟨ha, ht'⟩ := (hr.belowEntry (b.root.extends_marker (.install a))).eq_of_mkdir h
  obtain ⟨-, -, hnone⟩ := arrive_single_iff.mp ha
  have hmade : Has top (.install a) t' := ⟨_, by rw [ht', node?_put_self _ _ (by simp)]⟩
  have hsame : ∀ loc, isWithin (top ++ [markerName (.install a)]) loc = false →
      t'.node? loc = t.node? loc := by
    intro loc hloc
    rw [ht', node?_put_of_ne _ _ (fun he => by simp [he] at hloc)]
  have hother : ∀ s, s ≠ .install a →
      t'.node? (top ++ [markerName s]) = t.node? (top ++ [markerName s]) := fun s hne =>
    hsame _ (isWithin_sibling (markerName_ne hne.symm))
  refine ⟨ht' ▸ hc.put hr.dir hnone, fun loc _ hloc => hsame loc hloc, fun s hs => ?_,
    fun s hs => ?_, fun _ _ => hmade⟩
  · by_cases heq : s = .install a
    · exact heq ▸ hmade
    · exact (has_congr (hother s heq)).mpr hs
  · by_cases heq : s = .install a
    · exact .inr ⟨hi, heq, heq ▸ hmade⟩
    · exact .inl ((hother s heq).trans hs)

theorem tame_makingInstall (b : Build) (a : Arch) : (makingInstall b a).Tame b a := by
  intro caller output c t s top hc hr
  have hinstalls : (output = .shared ∧ c.vars.map (b.installCommand a) = some c) ↔
      (output = .shared ∧ ∃ vars, c = b.installCommand a vars) := by
    refine and_congr_right fun _ => ?_
    constructor
    · intro h
      obtain ⟨vars, -, hvars⟩ := Option.map_eq_some_iff.mp h
      exact ⟨vars, hvars.symm⟩
    · rintro ⟨vars, rfl⟩
      rfl
  rw [← hinstalls]
  simp only [makingInstall]
  by_cases h : output = .shared ∧ c.vars.map (b.installCommand a) = some c
  · rw [if_pos h]
    cases happ : (Change.mkdir (b.root.install a)).apply t caller.cwd with
    | error e => exact spares_refl hc fun _ ⟨f, hf, _⟩ => absurd hf (by simp)
    | ok t' =>
        exact spares_mkdir h hc hr happ
  · rw [if_neg h]
    exact spares_refl hc fun hi => absurd hi h

def archiveHere : SourceArchive := ⟨"http://h/a.tar", "R", none⟩

def rootHere : Root := ⟨"llvm"⟩

def useHere (errand : Errand) : Use Unit where
  settings := { Settings.default with
    llvm := ⟨Defaults.llvmVersion, some archiveHere.url, some archiveHere.top, none⟩ }
  platform := .unix ⟨.linux, .empty, none⟩
  errand := errand
  toolchain := .of errand.arch
  process := ⟨[], .empty, 1⟩
  outside := makingInstall ⟨rootHere, Root.record rootHere,
    Platform.unix ⟨.linux, .empty, none⟩, "cmake"⟩ errand.arch

theorem fits_useHere (errand : Errand) : (useHere errand).Fits rootHere [] where
  cwd := rfl
  tame := tame_makingInstall _ _
  draws _ := show Path.slash ∉ [0x78] by decide

theorem beginsEmpty_bareWorld : BeginsEmpty rootHere bareWorld := by
  have hvacant : ∀ loc, loc ≠ [] → bareWorld.tree.node? loc = none := fun loc => node?_empty
  have hdir : Reaches bareWorld.tree bareWorld.cwd ⟨[]⟩ [] := .of_nil rfl ⟨_, rfl⟩
  have hext : Path.Extends ⟨[]⟩ [Utf8.encode "llvm"] rootHere.path :=
    (Path.Extends.refl ⟨[]⟩).concat (by constructor <;> decide)
  refine .of_above isSound_bareWorld hext hdir ?_ ?_
  · intro target
    simp [hvacant [Utf8.encode "llvm"] (by simp)]
  · exact isVacantBelow_iff.mpr fun rel _ => hvacant _ (by simp)

/-! ### The first use of a root

It is gone through step by step: each world is what the step before it has left. -/

def firstUse : Use Unit := useHere (.prepare .x64 "setup")

def firstBootstrap : Bootstrap := firstUse.bootstrap rootHere

def withRoot : World Unit := ((makeDirs rootHere.path).run.run firstUse.outside bareWorld).2

def withLock : World Unit :=
  ((RootLock.take rootHere "setup" .x64).run.run firstUse.outside withRoot).2

def withFile : World Unit :=
  { withLock with
    events :=
      withLock.events ++ [(.info, "downloading sources")] ++ [(.info, "download complete")] }

def unpackRead (staging : Path) : Attempt SourceError Sources.Fetched := do
  let entries ← Archive.unpack ⟨[Archive.emptyFile "R/a"], false⟩ "R" staging
  Sources.place archiveHere rootHere staging entries

def placeRead : Attempt SourceError Sources.Fetched :=
  Sources.withStaging rootHere fun staging => do
    make (.log .info "extracting sources")
    unpackRead staging

def withSources : World Unit := (placeRead.run.run firstUse.outside withFile).2

theorem run_download : (download archiveHere.url).run.run firstUse.outside withLock =
    (.ok Archive.headerA, withFile) := by
  have hurl : Url.ofText? archiveHere.url =
      some ⟨"http", some "h", none, "/a.tar", none, none⟩ := by
    decide +kernel
  rw [download, Download.body, hurl]
  rfl

theorem run_fetch : Sources.fetched firstUse.outside archiveHere rootHere withLock =
    (.ok (.unpacked 1), withSources) := by
  have hmissing : Sources.isFetched rootHere withLock = false := by cbv
  have hformat : Archive.Format.ofUrl? archiveHere.url = some .plain := by decide +kernel
  have hroot : (makeDirs rootHere.path).run.run firstUse.outside withLock =
      (.ok (), withLock) := by
    cbv
  have hread : Sources.unpackTrusted archiveHere rootHere .plain Archive.headerA =
      placeRead := by
    rw [Sources.unpackTrusted, Sources.checkDigest_of_trusted (by rintro _ ⟨⟩),
      pure_bind, placeRead]
    congr 1
    funext staging
    rw [Sources.unpackSources, Archive.extract, Archive.Format.stream, Archive.read_headerA]
    rfl
  have hplaced : (placeRead.run.run firstUse.outside withFile).1 = .ok (.unpacked 1) := by cbv
  rw [Sources.fetched_of_missing hmissing, hformat]
  refine (run_bind_ok (Sources.run_orFail_ok hroot) _).trans ?_
  refine (run_bind_ok run_download _).trans ?_
  rw [hread]
  exact Prod.ext hplaced rfl

def withTree : World Unit :=
  ((makeDirs (rootHere.build .x64)).run.run firstUse.outside
    (withSources.perform firstUse.outside (.log .info "configuring LLVM")).2).2

def withInstall : World Unit :=
  (((firstBootstrap.build.install .x64).start ⟨.x64, some .empty⟩).run
    firstUse.outside withTree).2

theorem run_build :
    ((firstBootstrap.build.run .x64).start (.of .x64)).run firstUse.outside withSources =
      ((.ok (rootHere.install .x64), ⟨.x64, some .empty⟩), withInstall) := by
  have hmake : (makeDirs (rootHere.build .x64)).run.run firstUse.outside
      (withSources.perform firstUse.outside (.log .info "configuring LLVM")).2 =
        (.ok (), withTree) := by
    refine Prod.ext ?_ rfl
    cbv
  have hconfigure : ((firstBootstrap.build.configure .x64).start (.of .x64)).run
      firstUse.outside withSources = ((.ok .ran, ⟨.x64, some .empty⟩), withTree) := by
    have henv : ((Work.environment firstBootstrap.build.host).start (.of .x64)).run
        firstUse.outside withSources =
          ((.ok (.empty : Variables), ⟨.x64, some .empty⟩), withSources) := by
      cbv
    refine Build.Part.run_configure (by cbv) rfl henv hmake (f := ⟨.zero, [], []⟩) ?_ rfl
    cbv
  have hinstall : ((firstBootstrap.build.install .x64).start ⟨.x64, some .empty⟩).run
      firstUse.outside withTree = ((.ok .ran, ⟨.x64, some .empty⟩), withInstall) := by
    refine Prod.ext ?_ rfl
    cbv
  rw [Build.run, Work.start_bind, run_bind, hconfigure]
  dsimp only
  rw [Work.start_bind, run_bind, hinstall]
  rfl

theorem run_prepareThere :
    ((firstBootstrap.prepareThere .x64 "setup" (.of .x64)).run
      firstUse.outside withRoot).2.tree = withInstall.tree ∧
    ((firstBootstrap.prepareThere .x64 "setup" (.of .x64)).run
      firstUse.outside withRoot).2.cwd = [] := by
  have htaken : (RootLock.take rootHere "setup" .x64).run.run firstUse.outside withRoot =
      (.ok ⟨3, rootHere.lock⟩, withLock) := by
    refine Prod.ext ?_ rfl
    cbv
  have harchive : firstBootstrap.settings.archive = archiveHere := rfl
  have hsteps : ((firstBootstrap.steps .x64).start (.of .x64)).run firstUse.outside withLock =
      ((firstBootstrap.building .x64).start (.of .x64)).run firstUse.outside withSources :=
    Bootstrap.run_steps_of_fetched (harchive ▸ run_fetch) _ _
  have hbuilding : ((firstBootstrap.building .x64).start (.of .x64)).run firstUse.outside
      withSources = ((.ok (rootHere.install .x64), ⟨.x64, some .empty⟩),
        (withInstall.perform firstUse.outside (.log .info "LLVM ready")).2) := by
    rw [Bootstrap.building, Work.start_bind, run_bind, Work.start_adapt, run_bind, run_build]
    rfl
  rw [Bootstrap.prepareThere, run_bind, show firstBootstrap.root = rootHere from rfl, htaken]
  dsimp only
  rw [Bootstrap.start_holding, run_bind, hsteps, hbuilding]
  have hcwd : withInstall.cwd = [] := by cbv
  exact ⟨rfl, hcwd⟩

/-- The first use does all stages for its architecture. -/
theorem isDir_firstUse (hs : s.IsOf .x64) :
    let w' := (Use.series rootHere [firstUse] bareWorld).2
    w'.tree.isDir w'.cwd (rootHere.marker s) = true := by
  have hmade : (makeDirs rootHere.path).run.run firstUse.outside bareWorld =
      (.ok (), withRoot) := by
    refine Prod.ext ?_ rfl
    cbv
  have hall : ([Stage.fetch, .configure .x64, .install .x64].all fun s =>
      withInstall.tree.isDir [] (rootHere.marker s)) = true := by
    cbv
  have hrun : (Use.series rootHere [firstUse] bareWorld).2 =
      ((firstBootstrap.prepareThere .x64 "setup" (.of .x64)).run firstUse.outside
        withRoot).2 := by
    rw [Use.series, Use.program_eq, run_bind,
      show bareWorld.as firstUse.process = bareWorld from rfl, hmade]
    change ((firstBootstrap.prepareThere .x64 "setup" (.of .x64) >>= fun res =>
      pure (res.1.map fun _ => ())).run firstUse.outside withRoot).2 = _
    rw [run_bind]
    rfl
  obtain ⟨htree, hcwd⟩ := run_prepareThere
  simp only [List.all_cons, List.all_nil, Bool.and_eq_true, and_true] at hall
  obtain ⟨hfetch, hconfigure, hinstall⟩ := hall
  simp only [hrun, htree, hcwd]
  cases s with
  | fetch => exact hfetch
  | configure a => exact (show a = .x64 from hs) ▸ hconfigure
  | install a => exact (show a = .x64 from hs) ▸ hinstall

/-- What the first of two uses has done is not done again by the
second one, for another architecture. -/
theorem orderly_series_llvm :
    let second := useHere (.run ⟨.x86, false, .build, []⟩)
    let w := (Use.series rootHere [firstUse] bareWorld).2
    bareWorld.IsSound ∧ BeginsEmpty rootHere bareWorld ∧
      (∀ u ∈ [firstUse, second], u.Fits rootHere bareWorld.cwd) ∧
      Orderly rootHere (Use.series rootHere [firstUse, second] bareWorld).1
        (Use.series rootHere [firstUse, second] bareWorld).2 ∧
      ∀ s : Stage, s.IsOf .x64 →
        w.tree.isDir w.cwd (rootHere.marker s) = true ∧
        (∃ x ∈ (Use.series rootHere [firstUse] bareWorld).1, Completes rootHere s x) ∧
        ∀ y ∈ (Use.series rootHere [second] w).1, ¬ Serves rootHere s y.call := by
  intro second w
  have hfits : ∀ u ∈ [firstUse, second], u.Fits rootHere bareWorld.cwd := by
    simp only [List.mem_cons, List.not_mem_nil, or_false]
    rintro u (rfl | rfl) <;> exact fits_useHere _
  have hone : Orderly rootHere (Use.series rootHere [firstUse] bareWorld).1 w :=
    orderly_series isSound_bareWorld beginsEmpty_bareWorld fun u hu =>
      hfits u (List.mem_cons.mpr (.inl (List.mem_singleton.mp hu)))
  have htwo := orderly_series isSound_bareWorld beginsEmpty_bareWorld hfits
  refine ⟨isSound_bareWorld, beginsEmpty_bareWorld, hfits, htwo, fun s hs => ?_⟩
  obtain ⟨x, hx, hcompletes⟩ := (hone.done_iff s).mp (isDir_firstUse hs)
  -- The calls of both uses are those of the first one and then those of the second one.
  have hcalls : (Use.series rootHere [firstUse, second] bareWorld).1 =
      (firstUse.program rootHere).trace firstUse.outside (bareWorld.as firstUse.process) ++
        (Use.series rootHere [second] w).1 := rfl
  have hfirst : (Use.series rootHere [firstUse] bareWorld).1 =
      (firstUse.program rootHere).trace firstUse.outside (bareWorld.as firstUse.process) :=
    List.append_nil _
  have honce := htwo.once s
  rw [hcalls, ← hfirst, List.pairwise_append] at honce
  exact ⟨isDir_firstUse hs, ⟨x, hx, hcompletes⟩, fun y hy => honce.2.2 x hx y hy hcompletes⟩

end Root

end LlvmBootstrap
