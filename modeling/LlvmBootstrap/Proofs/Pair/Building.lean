import LlvmBootstrap.Build
import LlvmBootstrap.Proofs.Build.Course
import LlvmBootstrap.Proofs.Pair.Owned

/-!
Building for an architecture minds what the others have of their own, whenever its commands and
the making of its environment do: what is looked at, made and removed are its own two
directories.
-/

namespace LlvmBootstrap

open LlvmBootstrap.Tree Program
open Build (Does)

def Msvc.places (m : Msvc) : List Path :=
  match m.install with
  | some p => [p]
  | none => editions.map fun e => m.baseDir / Path.ofString e

namespace Root

variable {σ α β ε ε' : Type} {o : Outside σ} {r : Root} {here top loc : Location} {a : Arch}
  {u v w : World σ} {t t' : Tree} {s : Stage} {p : Program α}

/-! ### One's own entries -/

def kindAt (t : Tree) (loc : Location) : Option ObjectKind := (t.node? loc).map Node.objectKind

theorem kindAt_eq {R : Location → Prop} (h : SameOn R t t') (hloc : R loc) :
    kindAt t loc = kindAt t' loc := by
  have hshown := h.shown loc hloc
  rw [kindAt, kindAt]
  cases hn : t.node? loc with
  | none => rw [(h.none_iff hloc).mp hn]
  | some n =>
      rw [hn] at hshown
      obtain ⟨n', hn', heq⟩ := Option.map_eq_some_iff.mp hshown.symm
      rw [hn']
      cases n <;> cases n' <;> first | rfl | contradiction

/-- What becomes of an entry of a root: it is left, or made as a directory, or removed. -/
inductive Fate where
  | left
  | made
  | gone

def Fate.apply (loc : Location) (t : Tree) : Fate → Tree
  | .left => t
  | .made => t.put loc (.dir (umasked 0o777))
  | .gone => t.prune loc

/-- What the program comes to is told by the kind of thing that stands for the stage `s`. A
directory is made only where nothing stands. -/
structure Decided (o : Outside σ) (r : Root) (here top : Location) (s : Stage) (p : Program α)
    (f : Option ObjectKind → α × Fate) : Prop where
  run : ∀ w, Fit r here top w → p.run o w =
    ((f (kindAt w.tree (top ++ [markerName s]))).1,
      { w with
        tree := (f (kindAt w.tree (top ++ [markerName s]))).2.apply
          (top ++ [markerName s]) w.tree })
  vacant : ∀ k, (f k).2 = .made → k = none

theorem ne_of_not_own (hs : Own top a (top ++ [markerName s])) (hloc : ¬ Own top a loc) :
    isWithin (top ++ [markerName s]) loc = false := by
  rw [isWithin_eq_false_iff]
  rintro rel rfl
  exact hloc (hs.append rel)

/-- One's own entry may be left, made or removed. -/
theorem Fit.onlyOwn_apply {fate : Fate} (h : Fit r here top w)
    (hs : Own top a (top ++ [markerName s]))
    (hvacant : fate = .made → w.tree.node? (top ++ [markerName s]) = none) :
    OnlyOwn top a w.tree (fate.apply (top ++ [markerName s]) w.tree) := by
  have hne : top ++ [markerName s] ≠ [] := by simp
  cases fate with
  | left => exact h.onlyOwn_refl a
  | made =>
      -- What is not a directory was there before the marker.
      have hput : ∀ {loc' n}, (∀ mode, n ≠ .dir mode) →
          (w.tree.put (top ++ [markerName s]) (.dir (umasked 0o777))).node? loc' = some n →
          w.tree.node? loc' = some n := fun {loc' n} hdir hn => by
        by_cases heq : loc' = top ++ [markerName s]
        · rw [heq, node?_put_self _ _ hne] at hn
          exact absurd (Option.some.inj hn).symm (hdir _)
        · rwa [node?_put_of_ne _ _ heq] at hn
      exact {
        closed := h.closed.put h.reaches.dir (hvacant rfl)
        filled := fun loc' id hn => h.filled loc' id (hput nofun hn)
        nodes := fun loc' hloc' => node?_put_of_ne _ _ fun heq => hloc' (heq ▸ hs)
        bodies := fun _ _ _ _ => rfl
        lock := fun loc' hloc' ⟨id, hn, hn'⟩ =>
          h.lock.not_oneFile hloc' ⟨id, hput nofun hn, hput nofun hn'⟩
        unlinked := fun s' target hn => h.unlinked s' target (hput nofun hn) }
  | gone =>
      have hkept : ∀ {loc' n}, (w.tree.prune (top ++ [markerName s])).node? loc' = some n →
          w.tree.node? loc' = some n := fun {loc' n} hn => by
        rw [node?_prune _ hne] at hn
        split at hn
        · contradiction
        · exact hn
      exact {
        closed := h.closed.prune hne
        filled := fun loc' id hn => h.filled loc' id (hkept hn)
        nodes := fun loc' hloc' => by
          rw [Fate.apply, node?_prune _ hne, ne_of_not_own hs hloc']; rfl
        bodies := fun _ _ _ _ => rfl
        lock := fun loc' hloc' ⟨id, hn, hn'⟩ =>
          h.lock.not_oneFile hloc' ⟨id, hkept hn, hkept hn'⟩
        unlinked := fun s' target hn => h.unlinked s' target (hkept hn) }

theorem Decided.minds {f : Option ObjectKind → α × Fate} (h : Decided o r here top s p f)
    (hs : s = .configure a ∨ s = .install a) : Minds o r here top a p where
  keeps u hu := by
    rw [h.run u hu]
    refine hu.onlyOwn_apply (own_marker_iff.mpr hs) fun hmade => ?_
    exact Option.map_eq_none_iff.mp (h.vacant _ hmade)
  same u v hpeers := by
    have hof : s.IsOf a := by rcases hs with rfl | rfl <;> rfl
    have hkind : kindAt u.tree (top ++ [markerName s]) =
        kindAt v.tree (top ++ [markerName s]) :=
      kindAt_eq hpeers.same (concerns_marker hof)
    rw [h.run u hpeers.left, h.run v hpeers.right, hkind]
    refine ⟨rfl, ?_⟩
    cases (f (kindAt v.tree (top ++ [markerName s]))).2 with
    | left => exact hpeers.same
    | made => exact hpeers.same.put_dir _ (by simp)
    | gone => exact hpeers.same.prune (by simp)
  locks u hu := by rw [h.run u hu]

/-! ### Looking at a stage, making its directory and resetting it -/

theorem Fit.isDir_marker (h : Fit r here top w) (s : Stage) : w.tree.isDir w.cwd (r.marker s) =
    ((r.marker s).refusal?.isNone && kindAt w.tree (top ++ [markerName s]) == some .dir) := by
  have hlook : w.tree.lookup w.cwd true (r.marker s) = _ :=
    (h.below s).lookup fun _ => h.unlinked s
  rw [h.arrive] at hlook
  rw [Tree.isDir, hlook, kindAt]
  cases (r.marker s).refusal? with
  | some e => rfl
  | none =>
      cases w.tree.node? (top ++ [markerName s]) with
      | none => rfl
      | some n => cases n <;> rfl

theorem decided_isComplete (s : Stage) : Decided o r here top s (r.isComplete s) fun k =>
    ((r.marker s).refusal?.isNone && k == some .dir, .left) where
  run w hw := by
    rw [← hw.isDir_marker s]
    exact run_isDir o w (r.marker s)
  vacant := by simp

theorem decided_makeDirs (s : Stage) :
    Decided o r here top s (makeDirs (r.marker s)).run fun k =>
    match (r.marker s).refusal?, k with
    | some e, _ => (.error e, .left)
    | none, none => (.ok (), .made)
    | none, some .dir => (.ok (), .left)
    | none, some _ => (.error .exists, .left) where
  run w hw := by
    have hp : (r.marker s).bytes ≠ [] := ((r.extends_marker s).last (List.cons_ne_nil _ _)).2
    have hmkdir := (hw.below s).mkdir 0o777
    have hfound := (hw.below s).mkdir_ne_notFound hp 0o777
    have hdir := hw.isDir_marker s
    rw [kindAt] at hdir ⊢
    rw [hw.arrive] at hmkdir
    have hunlinked := hw.unlinked s
    -- From here on only what stands at the marker counts.
    generalize w.tree.node? (top ++ [markerName s]) = found at hmkdir hdir hunlinked ⊢
    cases hrefusal : (r.marker s).refusal? with
    | some e =>
        rw [hrefusal] at hmkdir hdir
        rw [run_makeDirs_refused hp hmkdir fun h => hfound (h ▸ hmkdir), hdir]
        rfl
    | none =>
        rw [hrefusal] at hmkdir hdir
        cases found with
        | none =>
            rw [run_makeDirs_made hp hmkdir]
            rfl
        | some n =>
            rw [run_makeDirs_refused hp hmkdir nofun, hdir]
            cases n with
            | dir mode => rfl
            | file id => rfl
            | link target => exact absurd rfl (hunlinked target)
  vacant k := by
    rcases k with _ | _ | _ | _ <;> cases (r.marker s).refusal? <;> simp

theorem decided_reset (s : Stage) : Decided o r here top s (r.reset s).run fun k =>
    match (r.marker s).refusal?, k with
    | some .notFound, _ => (.ok (), .left)
    | some e, _ => (.error (.system e), .left)
    | none, none => (.ok (), .left)
    | none, some .dir => (.ok (), .gone)
    | none, some _ => (.error (.system .notDirectory), .left) where
  run w hw := by
    have hremove : (Change.removeAll (r.marker s)).apply w.tree w.cwd = _ :=
      (hw.below s).removeAll
    have hunlinked := hw.unlinked s
    rw [hw.arrive] at hremove
    rw [kindAt, reset]
    generalize w.tree.node? (top ++ [markerName s]) = found at hremove hunlinked ⊢
    cases hrefusal : (r.marker s).refusal? with
    | some e =>
        rw [hrefusal] at hremove
        rw [run_bind_ok (run_make (World.perform_change_error hremove))]
        cases e <;> rfl
    | none =>
        rw [hrefusal] at hremove
        rcases found with _ | mode | id | target
        · rw [run_bind_ok (run_make (World.perform_change_error hremove))]
          rfl
        · rw [run_bind_ok (run_make (World.perform_change_ok hremove))]
          rfl
        · rw [run_bind_ok (run_make (World.perform_change_error hremove))]
          rfl
        · exact absurd rfl (hunlinked target)
  vacant k := by
    rcases k with _ | _ | _ | _ <;> rcases (r.marker s).refusal? with _ | _ | _ <;> simp

/-! ### Work with a toolchain -/

/-- The work minds with every toolchain for `a`, and leaves it one for `a`. -/
structure MindsWork (o : Outside σ) (r : Root) (here top : Location) (a : Arch)
    (x : Work ε α) : Prop where
  minds : ∀ t, t.arch = a → Minds o r here top a (x.start t)
  arch : ∀ t (w : World σ), t.arch = a → ((x.start t).run o w).1.2.arch = a

namespace MindsWork

variable {x : Work ε α} {y : Attempt ε α}

theorem bind {f : α → Work ε β} (h : MindsWork o r here top a x)
    (hf : ∀ c, MindsWork o r here top a (f c)) :
    MindsWork o r here top a (x >>= f) where
  minds t ht := by
    rw [Work.start_bind]
    refine (h.minds t ht).bind_of (Q := fun res => res.2.arch = a) (fun w => h.arch t w ht) ?_
    rintro ⟨e | c, t'⟩ ht'
    · exact .pure _
    · exact (hf c).minds t' ht'
  arch t w ht := by
    rw [Work.start_bind, run_bind]
    have ht' := h.arch t w ht
    generalize (x.start t).run o w = out at ht'
    obtain ⟨⟨e | c, t'⟩, w'⟩ := out
    · exact ht'
    · exact (hf c).arch t' w' ht'

theorem adapt (h : MindsWork o r here top a x) (f : ε → ε') :
    MindsWork o r here top a (x.adapt f) where
  minds t ht := by
    rw [Work.start_adapt]
    exact (h.minds t ht).bind fun _ => .pure _
  arch t w ht := by
    rw [Work.start_adapt, run_bind]
    exact h.arch t w ht

theorem pure (c : α) : MindsWork o r here top a (pure c : Work ε α) :=
  ⟨fun _ _ => .pure _, fun _ _ ht => ht⟩

theorem throw (e : ε) : MindsWork o r here top a (throw e : Work ε α) :=
  ⟨fun _ _ => .pure _, fun _ _ ht => ht⟩

theorem lift_bind {f : α → Work ε β} (h : Minds o r here top a p)
    (hf : ∀ c, MindsWork o r here top a (f c)) :
    MindsWork o r here top a ((liftM p : Work ε α) >>= f) where
  minds t ht := by
    rw [Work.start_lift_bind]
    exact h.bind fun c => (hf c).minds t ht
  arch t w ht := by
    rw [Work.start_lift_bind, run_bind]
    exact (hf _).arch t _ ht

theorem log_bind {f : Unit → Work ε β} (level : Level) (text : String)
    (hf : ∀ c, MindsWork o r here top a (f c)) :
    MindsWork o r here top a ((make (.log level text) : Work ε Unit) >>= f) :=
  lift_bind (p := ask (.log level text)) (.log level text) hf

theorem ofAttempt_bind {f : α → Work ε β} (h : Minds o r here top a y.run)
    (hf : ∀ c, MindsWork o r here top a (f c)) :
    MindsWork o r here top a (Work.ofAttempt y >>= f) where
  minds t ht := by
    rw [Work.start_ofAttempt_bind]
    refine h.bind ?_
    rintro (e | c)
    · exact .pure _
    · exact (hf c).minds t ht
  arch t w ht := by
    rw [Work.start_ofAttempt_bind, run_bind]
    cases (y.run.run o w).1 with
    | error e => exact ht
    | ok c => exact (hf c).arch t _ ht

theorem environment {h : Host} (henv : Minds o r here top a (h.environment a).run) :
    MindsWork o r here top a (Work.environment h) where
  minds t ht := by
    rw [Work.start_environment]
    cases t.vars with
    | some vars => exact .pure _
    | none =>
        rw [ht]
        refine henv.bind ?_
        rintro (e | vars) <;> exact .pure _
  arch t w ht := by
    rw [Work.start_environment]
    cases t.vars with
    | some vars => exact ht
    | none =>
        rw [run_bind]
        cases ((h.environment t.arch).run.run o w).1 <;> exact ht

end MindsWork

/-! ### Building -/

theorem Minds.adapt {x : Attempt ε α} (h : Minds o r here top a x.run) (f : ε → ε') :
    Minds o r here top a (x.adapt f).run := by
  rw [run_adapt]
  exact h.bind fun _ => .pure _

variable {b : Build}

/-- The commands that a build does its stages with mind what is whose, and so
does the making of its environment. -/
structure MindsBuild (o : Outside σ) (r : Root) (here top : Location) (a : Arch)
    (b : Build) : Prop where
  root : b.root = r
  record : b.record = r.record
  commands : ∀ s cmd, Does b a s cmd → Minds o r here top a (ask (.spawn .shared cmd))
  environment : Minds o r here top a (b.host.environment a).run

namespace MindsBuild

theorem isComplete (h : MindsBuild o r here top a b) (hs : s = .configure a ∨ s = .install a) :
    Minds o r here top a (b.record.isComplete s) := by
  rw [h.record]
  exact (decided_isComplete s).minds hs

theorem runStage {cmd : Command} (h : MindsBuild o r here top a b) (hdoes : Does b a s cmd)
    (hs : s = .configure a ∨ s = .install a) :
    Minds o r here top a (b.runStage s cmd).run := by
  rw [Build.Part.run_runStage, h.record]
  refine (h.commands s cmd hdoes).bind fun answer => ?_
  cases Build.failure? s cmd answer with
  | none => exact .pure _
  | some e =>
      refine (Minds.log ..).bind fun _ => ((decided_reset s).minds hs).bind fun undone => ?_
      cases undone with
      | ok u => exact .pure _
      | error e => exact (Minds.log ..).bind fun _ => .pure _

theorem configure (h : MindsBuild o r here top a b) :
    MindsWork o r here top a (b.configure a) := by
  rw [Build.configure]
  refine .lift_bind (h.isComplete (.inl rfl)) fun done => ?_
  cases done with
  | true => exact .log_bind _ _ fun _ => .pure _
  | false =>
      simp only [Bool.false_eq_true, if_false]
      cases b.host.generator a with
      | error e => exact .throw _
      | ok generator =>
          refine (MindsWork.environment h.environment).adapt _ |>.bind fun vars => ?_
          refine .log_bind _ _ fun _ => ?_
          have hmake : Minds o r here top a (makeDirs (b.root.build a)).run :=
            h.root ▸ (decided_makeDirs (.configure a)).minds (.inl rfl)
          refine .ofAttempt_bind (hmake.adapt _) fun _ => ?_
          exact .ofAttempt_bind (h.runStage (.configure generator vars) (.inl rfl))
            fun _ => .pure _

theorem install (h : MindsBuild o r here top a b) :
    MindsWork o r here top a (b.install a) := by
  rw [Build.install]
  refine .lift_bind (h.isComplete (.inr rfl)) fun done => ?_
  cases done with
  | true => exact .log_bind _ _ fun _ => .pure _
  | false =>
      simp only [Bool.false_eq_true, if_false]
      refine (MindsWork.environment h.environment).adapt _ |>.bind fun vars => ?_
      refine .log_bind _ _ fun _ => ?_
      refine .ofAttempt_bind (h.runStage (.install vars) (.inr rfl)) fun _ => ?_
      refine .lift_bind (h.isComplete (.inr rfl)) fun there => ?_
      cases there with
      | true => exact .pure _
      | false => exact .log_bind _ _ fun _ => .pure _

theorem run (h : MindsBuild o r here top a b) : MindsWork o r here top a (b.run a) := by
  rw [Build.run]
  exact h.configure.bind fun _ => h.install.bind fun _ => .pure _

end MindsBuild

/-! ### The environment of a platform -/

theorem minds_isDir {p : Path} (h : ∀ u v : World σ, Peers r here top a u v →
    u.tree.isDir u.cwd p = v.tree.isDir v.cwd p) : Minds o r here top a (isDir p) := by
  refine .of_still (fun u => by rw [run_isDir])
    (fun u => by rw [run_isDir]) fun u v hpeers => ?_
  rw [run_isDir, run_isDir]
  exact h u v hpeers

theorem minds_firstDir? {ps : List Path}
    (h : ∀ p ∈ ps, ∀ u v : World σ, Peers r here top a u v →
      u.tree.isDir u.cwd p = v.tree.isDir v.cwd p) :
    Minds o r here top a (firstDir? ps) := by
  induction ps with
  | nil => exact .pure _
  | cons p ps ih =>
      rw [firstDir?]
      refine (minds_isDir (h p (List.mem_cons_self ..))).bind fun found => ?_
      cases found with
      | true => exact .pure _
      | false => exact ih fun q hq => h q (List.mem_cons_of_mem _ hq)

theorem Minds.attempt_bind {x : Attempt ε α} {f : α → Attempt ε β}
    (h : Minds o r here top a x.run) (hf : ∀ c, Minds o r here top a (f c).run) :
    Minds o r here top a (x >>= f).run := by
  rw [ExceptT.run_bind]
  refine h.bind ?_
  rintro (e | c)
  · exact .pure _
  · exact hf c

theorem Minds.attempt_lift_bind {f : α → Attempt ε β} (h : Minds o r here top a p)
    (hf : ∀ c, Minds o r here top a (f c).run) :
    Minds o r here top a ((liftM p : Attempt ε α) >>= f).run := by
  rw [show ((liftM p : Attempt ε α) >>= f).run = p >>= fun c =>
    (f c).run from ExceptT.run_bind_lift ..]
  exact h.bind hf

/-- Making the environment minds what is whose if the installation is found alike whatever the
others have, and the script minds it. -/
theorem minds_environment (p : Platform)
    (hplaces : ∀ m, p = .msvc m → ∀ q ∈ m.places, ∀ u v : World σ, Peers r here top a u v →
      u.tree.isDir u.cwd q = v.tree.isDir v.cwd q)
    (hscript : ∀ m, p = .msvc m → ∀ install,
      Minds o r here top a (ask (.spawn .collected (Msvc.initCommand install a)))) :
    Minds o r here top a (p.environment a).run := by
  cases p with
  | unix u =>
      refine .of_still (fun _ => rfl) (fun _ => rfl) fun w w' hpeers => ?_
      change Except.ok ((Variables.ofEnviron w.environ).withOverrides u.compilers) = _
      rw [← hpeers.process.environ]
      rfl
  | msvc m =>
      have hplaces := hplaces m rfl
      -- Looking for the installation asks for directories and nothing else.
      have hfind : Minds o r here top a m.findInstall.run := by
        rw [Msvc.findInstall]
        rw [Msvc.places] at hplaces
        cases hinstall : m.install with
        | some q =>
            rw [hinstall] at hplaces
            refine Minds.attempt_lift_bind
              (minds_isDir (hplaces q (List.mem_singleton.mpr rfl))) fun found => ?_
            cases found <;> exact .pure _
        | none =>
            rw [hinstall] at hplaces
            refine Minds.attempt_lift_bind (minds_firstDir? hplaces) fun found => ?_
            cases found <;> exact .pure _
      refine hfind.attempt_bind fun install => ?_
      refine Minds.attempt_lift_bind (p := ask (.log .info "initializing MSVC environment"))
        (.log ..) fun _ => ?_
      refine Minds.attempt_lift_bind (hscript m rfl install) fun answer => ?_
      rcases answer with e | f
      · exact .pure _
      · dsimp only
        cases f.status.isSuccess with
        | false => exact .pure _
        | true => cases (Variables.ofDump (Utf8.lossy f.out)).entries.isEmpty <;> exact .pure _

end Root

end LlvmBootstrap
