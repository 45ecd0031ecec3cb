import LlvmBootstrap.Proofs.Machine.MadeAgain
import LlvmBootstrap.Proofs.Pair.Preparing

/-!
Making LLVM ready for one architecture and then for the other one comes to the same in either
order.
-/

namespace LlvmBootstrap

open LlvmBootstrap.Tree Program Sources

/-- Making LLVM ready for one architecture and then for the other one, each with a toolchain of
its own. `command` is what the lock file says of the runs. -/
def Bootstrap.inTurn (v : Bootstrap) (command : Arch → String) (a b : Arch) :
    Program (Except BootstrapError Path × Except BootstrapError Path) := do
  let first ← (v.prepare a (command a)).start (.of a)
  let second ← (v.prepare b (command b)).start (.of b)
  return (first.1, second.1)

theorem Bootstrap.run_inTurn {σ : Type} {o : Outside σ} {v : Bootstrap}
    {command : Arch → String} {a b : Arch} {w w₁ w₂ : World σ}
    {res₁ res₂ : Except BootstrapError Path} {t₁ t₂ : Toolchain}
    (h₁ : ((v.prepare a (command a)).start (.of a)).run o w = ((res₁, t₁), w₁))
    (h₂ : ((v.prepare b (command b)).start (.of b)).run o w₁ = ((res₂, t₂), w₂)) :
    (v.inTurn command a b).run o w = ((res₁, res₂), w₂) := by
  rw [inTurn, run_bind, h₁]
  dsimp only
  rw [run_bind, h₂]
  rfl

namespace Root

variable {σ : Type} {o : Outside σ} {v : Bootstrap} {here top : Location} {a b : Arch}
  {command : Arch → String} {m u u' w w' : World σ}

def built (o : Outside σ) (v : Bootstrap) (a : Arch) (w : World σ) :
    (Except BootstrapError Path × Toolchain) × World σ :=
  ((v.building a).start (.of a)).run o w

/-- What comes of two runs, one after the other, the first of which begins by
fetching the sources from `u` on: `u'` is the world with the sources, and from
`w` on the second one builds. -/
structure InTurn (o : Outside σ) (v : Bootstrap) (here top : Location)
    (command : Arch → String) (a b : Arch) (m u' w : World σ) : Prop where
  first : Fit v.root here top u'
  second : Fit v.root here top w
  process : m.SameProcess u'
  process' : m.SameProcess w
  between : SameOn (· ≠ top ++ [lockName]) (built o v a u').2.tree w.tree
  has : HasLock top (lockFile top m.tree) w.tree
  run : ∃ w', (v.inTurn command a b).run o m =
    (((built o v a u').1.1, (built o v b w).1.1), w') ∧
    w'.tree = (built o v b w).2.tree

/-- A world between two runs: the root is in order, the lock is free
again and its file is there. -/
structure Between (r : Root) (here top : Location) (m w : World σ) : Prop where
  fit : Fit r here top w
  free : RootLock.IsFree r w
  has : HasLock top (lockFile top m.tree) w.tree
  process : m.SameProcess w

theorem between_close {h : Handle} (hw : Fit v.root here top w)
    (hhas : HasLock top (lockFile top m.tree) w.tree)
    (hlock : w.locks.get? (lockFile top m.tree).1 = some h) (hprocess : m.SameProcess w) :
    Between v.root here top m (w.close h) where
  fit := { hw with }
  free := isFree_close hw hhas hlock
  has := hhas
  process := ⟨hprocess.cwd, hprocess.environ, hprocess.processId⟩

/-- The first run, once the sources are there, is building, and then the lock is given back. -/
theorem Impartial.between_of_fetched {id : FileId} {t₁ : Tree} (hm : Impartial o v here top m)
    (hopen : m.tree.openFile m.cwd v.root.lock 0o666 = .ok (id, t₁))
    (command : String) (a : Arch) :
    ∃ u, Locked top m.tree u.tree ∧ m.SameProcess u ∧
      ∀ x u', fetched o v.settings.archive v.root u = (.ok x, u') → Sourced v.root top u u' →
        Fit v.root here top u' ∧ m.SameProcess u' ∧ ∃ w, Between v.root here top m w ∧
          ((v.prepare a command).start (.of a)).run o m = ((built o v a u').1, w) ∧
          w.tree = (built o v a u').2.tree := by
  obtain ⟨u, h, hheld, hrun⟩ := exists_held (o := o) a command (.of a) hm.fit
    hm.usable hm.free hopen
  refine ⟨u, hheld.locked, hheld.process, fun x u' hfetch hsourced => ?_⟩
  obtain ⟨hprocess, hlocks⟩ := fetched_keeps hfetch
  have hfit' := (hheld.locked.fit hm.fit hheld.process.cwd).sourced hsourced hprocess.cwd
  have hminds := (mindsWork_building (hm.builds a)).minds (.of a) rfl
  rw [Bootstrap.run_steps_of_fetched hfetch] at hrun
  have hprocess' : m.SameProcess (built o v a u').2 :=
    (hheld.process.trans hprocess).trans (sameProcess_run o ((v.building a).start (.of a)) u')
  have hhas : HasLock top (lockFile top m.tree) (built o v a u').2.tree :=
    (hheld.locked.has.sourced hsourced).onlyOwn (hminds.keeps u' hfit')
  have hlock : (built o v a u').2.locks.get? (lockFile top m.tree).1 = some h := by
    rw [built, hminds.locks u' hfit', hlocks]
    exact hheld.lock
  have hbuilt : Fit v.root here top (built o v a u').2 := hminds.fit hfit'
  exact ⟨hfit', hheld.process.trans hprocess, _,
    between_close hbuilt hhas hlock hprocess', hrun, rfl⟩

/-- The second run finds the sources there, and builds. -/
theorem Impartial.run_prepare_of_there {id : FileId} {t₁ : Tree}
    (hm : Impartial o v here top m)
    (hopen : m.tree.openFile m.cwd v.root.lock 0o666 = .ok (id, t₁))
    (hw : Between v.root here top m w) (hthere : isFetched v.root w = true)
    (command : String) (b : Arch) :
    ∃ u, Fit v.root here top u ∧ m.SameProcess u ∧
      SameOn (· ≠ top ++ [lockName]) w.tree u.tree ∧
      HasLock top (lockFile top m.tree) u.tree ∧
      ∃ w', ((v.prepare b command).start (.of b)).run o w = ((built o v b u).1, w') ∧
        w'.tree = (built o v b u).2.tree := by
  obtain ⟨id', t₁', hopen'⟩ := hw.has.exists_openFile hw.fit hm.fit hopen
  obtain ⟨u, h, hheld, hrun⟩ := exists_held (o := o) b command (.of b) hw.fit
    hm.usable hw.free hopen'
  have hfit := hheld.locked.fit hw.fit hheld.process.cwd
  have hthere' : isFetched v.root u = true := by
    rw [isFetched_congr hw.fit hfit, hthere]
    exact hheld.locked.nodes _ fun heq =>
      lockName_ne_sourceName (List.cons.inj (List.append_cancel_left heq)).1.symm
  rw [Bootstrap.run_steps_of_fetched (fetched_again hthere')] at hrun
  have hprocess := hw.process.trans hheld.process
  have hend := hheld.locked.has
  rw [hw.has.eq] at hend
  exact ⟨(u.perform o (.log .info "sources already fetched")).2, { hfit with },
    ⟨hprocess.1, hprocess.2, hprocess.3⟩, hheld.locked.sameOn, hend, _, hrun, rfl⟩

theorem Impartial.exists_inTurn {id : FileId} {t₁ : Tree} (hm : Impartial o v here top m)
    (hopen : m.tree.openFile m.cwd v.root.lock 0o666 = .ok (id, t₁)) (command : Arch → String)
    (a b : Arch) :
    ∃ u, Locked top m.tree u.tree ∧ m.SameProcess u ∧
      ∀ x u', fetched o v.settings.archive v.root u = (.ok x, u') → Sourced v.root top u u' →
        ∃ w, InTurn o v here top command a b m u' w := by
  obtain ⟨u, hlocked, hprocess, hfirst⟩ := hm.between_of_fetched hopen (command a) a
  refine ⟨u, hlocked, hprocess, fun x u' hfetch hsourced => ?_⟩
  obtain ⟨hfit', hprocess', w₁, hw₁, hrun, htree⟩ := hfirst x u' hfetch hsourced
  have hown := ((mindsWork_building (hm.builds a)).minds (.of a) rfl).keeps u' hfit'
  have hthere : isFetched v.root w₁ = true := by
    rw [isFetched_congr hfit' hw₁.fit, hsourced.there]
    rw [htree]
    exact hown.nodes _ fun hmark => by simpa using (own_marker_iff (s := .fetch)).mp hmark
  obtain ⟨w, hfit, hprocess_w, hbetween, hhas, w', hrun', htree'⟩ :=
    hm.run_prepare_of_there hopen hw₁ hthere (command b) b
  exact ⟨w, hfit', hfit, hprocess', hprocess_w, htree ▸ hbetween, hhas, w',
    Bootstrap.run_inTurn hrun hrun', htree'⟩

/-! ### In either order -/

theorem Concerns.of_not_own (hne : b ≠ a) {loc : Location} (hloc : loc ≠ top ++ [lockName])
    (hown : ¬ Own top b loc) : Concerns top a loc := by
  refine ⟨hloc, fun c hc => ?_⟩
  have heq : c = b := by cases a <;> cases b <;> cases c <;> first | rfl | contradiction
  exact heq ▸ hown

theorem Concerns.of_own {loc : Location} (hown : Own top a loc) : Concerns top a loc :=
  ⟨fun heq => not_own_lock (heq ▸ hown), fun _ hne => not_own_of_ne hown hne⟩

/-- What `a` has of its own is nothing to `b`, and neither is what stands in the lock file. -/
theorem OnlyOwn.sameOn_concerns {t t' : Tree} (h : OnlyOwn top a t t') (hne : a ≠ b) :
    SameOn (Concerns top b) t t' :=
  h.sameOn.mono fun _ hloc => hloc.2 a hne

theorem sameOn_concerns {t t' : Tree} (h : SameOn (· ≠ top ++ [lockName]) t t') :
    SameOn (Concerns top a) t t' :=
  h.mono fun _ hloc => hloc.1

/-- Once the sources are there, each architecture finds the same in either order, and the trees
that come of it are the same. -/
theorem InTurn.comm {w₁ w₂ u₁ u₂ : World σ} (hm : Impartial o v here top m) (hne : a ≠ b)
    (h : InTurn o v here top command a b m u₁ w₁)
    (h' : InTurn o v here top command b a m u₂ w₂)
    (hsame : SameOn (· ≠ top ++ [lockName]) u₁.tree u₂.tree) :
    (built o v a u₁).1 = (built o v a w₂).1 ∧ (built o v b w₁).1 = (built o v b u₂).1 ∧
      SameButContent (top ++ [lockName]) (built o v b w₁).2.tree (built o v a w₂).2.tree := by
  have hminds : ∀ c, Minds o v.root here top c ((v.building c).start (.of c)) := fun c =>
    (mindsWork_building (hm.builds c)).minds (.of c) rfl
  have hkeeps_a := (hminds a).keeps u₁ h.first
  have hkeeps_b := (hminds b).keeps u₂ h'.first
  have hpeers_a : Peers v.root here top a u₁ w₂ :=
    ⟨h.first, h'.second, h.process.symm.trans h'.process',
    (sameOn_concerns hsame).trans
      ((hkeeps_b.sameOn_concerns hne.symm).trans (sameOn_concerns h'.between))⟩
  have hpeers_b : Peers v.root here top b w₁ u₂ :=
    ⟨h.second, h'.first, h.process'.symm.trans h'.process,
    (sameOn_concerns h.between.symm).trans
      ((hkeeps_a.sameOn_concerns hne).symm.trans (sameOn_concerns hsame))⟩
  obtain ⟨hres_a, hsame_a⟩ := (hminds a).same _ _ hpeers_a
  obtain ⟨hres_b, hsame_b⟩ := (hminds b).same _ _ hpeers_b
  have hkept_a := (hminds a).keeps w₂ h'.second
  have hkept_b := (hminds b).keeps w₁ h.second
  refine ⟨hres_a, hres_b, fun loc hloc => ?_, ?_⟩
  · by_cases hown : Own top b loc
    · have hshown_b := hsame_b.shown loc (.of_own hown)
      have hshown_w := h'.between.shown loc hloc
      exact hshown_b.trans (hshown_w.trans (hkept_a.sameOn.shown loc (not_own_of_ne hown hne)))
    · have hshown_a := hsame_a.shown loc (.of_not_own hne.symm hloc hown)
      have hshown_w := h.between.shown loc hloc
      exact (hkept_b.sameOn.shown loc hown).symm.trans (hshown_w.symm.trans hshown_a)
  · exact (h.has.onlyOwn hkept_b).emptied_eq (h'.has.onlyOwn hkept_a)

/-- From a root on that is there, making LLVM ready for one architecture and then for the other
one comes to the same in either order. -/
theorem Impartial.inTurn_swap (hm : Impartial o v here top m) (hne : a ≠ b)
    (command : Arch → String) :
    ∃ x y w w', (v.inTurn command a b).run o m = ((x, y), w) ∧
      (v.inTurn command b a).run o m = ((y, x), w') ∧
      SameButContent (top ++ [lockName]) w.tree w'.tree := by
  cases hopen : m.tree.openFile m.cwd v.root.lock 0o666 with
  | error e =>
      have hrun : ∀ c, ((v.prepare c (command c)).start (.of c)).run o m = _ := fun c =>
        run_prepare_of_unopened hm.fit hm.usable hopen
      exact ⟨_, _, m, m, Bootstrap.run_inTurn (hrun a) (hrun b),
        Bootstrap.run_inTurn (hrun b) (hrun a), .refl ..⟩
  | ok opened =>
      obtain ⟨id, t⟩ := opened
      obtain ⟨u₁, hlocked₁, hprocess₁, hnext₁⟩ := hm.exists_inTurn hopen command a b
      obtain ⟨u₂, hlocked₂, hprocess₂, hnext₂⟩ := hm.exists_inTurn hopen command b a
      obtain ⟨res, u₁', u₂', hfetch₁, hfetch₂, htwice⟩ :=
        hm.fetch_twice hlocked₁ hlocked₂ hprocess₁.cwd hprocess₂.cwd
      cases htwice with
      | done hsourced₁ hsourced₂ hsame =>
          obtain ⟨w₁, hturn₁⟩ := hnext₁ _ _ hfetch₁ hsourced₁
          obtain ⟨w₂, hturn₂⟩ := hnext₂ _ _ hfetch₂ hsourced₂
          obtain ⟨hres_a, hres_b, htree⟩ := hturn₁.comm hm hne hturn₂ hsame
          obtain ⟨w₁', hrun₁, htree₁⟩ := hturn₁.run
          obtain ⟨w₂', hrun₂, htree₂⟩ := hturn₂.run
          refine ⟨_, _, w₁', w₂', hrun₁, ?_, htree₁ ▸ htree₂ ▸ htree⟩
          rw [hrun₂, hres_a, hres_b]
      | @failed e =>
          -- A fetch that fails once fails again, also behind the other
          -- run: it has left what was there.
          have hfail : ∀ u, Locked top m.tree u.tree → m.SameProcess u →
              ∃ u', fetched o v.settings.archive v.root u = (.error e, u') ∧
                Kept u.tree u'.tree := by
            intro u hlocked hprocess
            obtain ⟨res, x, x', hx, hx', htwice⟩ :=
              hm.fetch_twice hlocked₁ hlocked hprocess₁.cwd hprocess.cwd
            rw [hfetch₁] at hx
            obtain ⟨rfl, rfl⟩ := Prod.mk.inj hx
            cases htwice with
            | failed _ hkept => exact ⟨x', hx', hkept⟩
          have hfirst : Again v.root here top m m :=
            ⟨hm.fit, hm.free, ⟨id, t, hopen⟩, fun _ h => h, ⟨rfl, rfl, rfl⟩⟩
          have hboth : ∀ c d, ∃ w', (v.inTurn command c d).run o m =
              ((.error (.fetch e), .error (.fetch e)), w') ∧ Locked top m.tree w'.tree := by
            intro c d
            obtain ⟨w, hrun, hagain, -⟩ :=
              hm.run_prepare_of_unfetched c (command c) (.of c) hfail hfirst
            obtain ⟨w', hrun', -, hlocked⟩ :=
              hm.run_prepare_of_unfetched d (command d) (.of d) hfail hagain
            exact ⟨w', Bootstrap.run_inTurn hrun hrun', hlocked⟩
          obtain ⟨w, hrun, hlocked⟩ := hboth a b
          obtain ⟨w', hrun', hlocked'⟩ := hboth b a
          exact ⟨_, _, w, w', hrun, hrun', hlocked.sameButContent hlocked'⟩

end Root

namespace Bootstrap

open Root

variable {σ : Type} {o : Outside σ} {v : Bootstrap} {here top : Location} {a b : Arch}
  {w m : World σ}

/-- Making the root is where a run begins; one that finds it made goes on alike. -/
theorem run_inTurn_of_made (hm : Impartial o v here top m)
    (hmade : (makeDirs v.root.path).run.run o w = (.ok (), m)) (command : Arch → String) :
    (v.inTurn command a b).run o w = (v.inTurn command a b).run o m := by
  have hfirst : ((v.prepare a (command a)).start (.of a)).run o w =
      ((v.prepare a (command a)).start (.of a)).run o m := by
    rw [hm.fit.start_prepare hm.usable, start_prepare, run_bind, hmade]
  rw [inTurn]
  simp only [run_bind, hfirst]

/-- What becomes of a run whose root cannot be made. -/
theorem run_prepare_of_unmade {e : Errno}
    (hmade : (makeDirs v.root.path).run.run o w = (.error e, m)) (a : Arch) (command : String)
    (t : Toolchain) : ((v.prepare a command).start t).run o w =
      ((.error (.lock (.failed "create" v.root.path e)), t), m) := by
  rw [start_prepare, run_bind, hmade]
  rfl

/-- Making LLVM ready for one architecture and then for the other one comes to the
same in either order, for each of them and for the files but for what the lock
file holds, whatever fails. -/
theorem inTurn_comm (hw : w.IsSound) (hne : a ≠ b)
    (hmade : ∀ m, (makeDirs v.root.path).run.run o w = (.ok (), m) → Impartial o v here top m)
    (hunmade : ∀ e m, (makeDirs v.root.path).run.run o w = (.error e, m) →
      Component.up ∉ v.root.path.components) (command : Arch → String) :
    ∃ x y w₁ w₂, (v.inTurn command a b).run o w = ((x, y), w₁) ∧
      (v.inTurn command b a).run o w = ((y, x), w₂) ∧
      SameButContent (top ++ [lockName]) w₁.tree w₂.tree := by
  cases hroot : (makeDirs v.root.path).run.run o w with
  | mk res m =>
      cases res with
      | ok u =>
          have hm := hmade m hroot
          rw [run_inTurn_of_made hm hroot, run_inTurn_of_made hm hroot]
          exact hm.inTurn_swap hne command
      | error e =>
          have hagain := run_makeDirs_again hw (hunmade e m hroot) hroot
          have hrun : ∀ c d, (v.inTurn command c d).run o w = _ := fun c d =>
            run_inTurn (run_prepare_of_unmade hroot c (command c) (.of c))
              (run_prepare_of_unmade hagain d (command d) (.of d))
          exact ⟨_, _, m, m, hrun a b, hrun b a, .refl ..⟩

/-! The tool that is there for one architecture installs LLVM for it, whichever comes first. -/

def toolOfX64 : Outside Unit where
  spawn _ _ c t s :=
    let loc := ["llvm", "x64"].map Utf8.encode
    if c.dir = some (onLinux.root.build .x64) then
      (.ok ⟨.zero, [], []⟩, if (t.node? loc).isNone then t.put loc (.dir 0o755) else t, s)
    else (.error (.system .notFound), t, s)
  send _ s := (.error (), s)
  clock s := (0, s)
  draw s := ([], s)

theorem decided_toolOfX64 {here : Location} {a : Arch} {c : Command}
    (hdir : c.dir = some (onLinux.root.build a)) :
    Decided toolOfX64 onLinux.root here [Utf8.encode "llvm"] (.install a)
      (ask (.spawn .shared c)) fun k =>
      match a with
      | .x64 => (.ok ⟨.zero, [], []⟩, if k.isNone then .made else .left)
      | .x86 => (.error (.system .notFound), .left) where
  run w _ := by
    rw [run_ask]
    cases a with
    | x86 =>
        have hother : c.dir ≠ some (onLinux.root.build .x64) := by
          rw [hdir]
          decide
        simp only [World.perform, World.spawn, toolOfX64, if_neg hother]
        rfl
    | x64 =>
        have hloc : [Utf8.encode "llvm"] ++ [markerName (.install .x64)] =
            ["llvm", "x64"].map Utf8.encode := rfl
        have hmode : umasked 0o777 = 0o755 := rfl
        simp only [World.perform, World.spawn, toolOfX64, hdir, if_true,
          List.append_nil, hloc, kindAt, Option.isNone_map]
        split <;> rfl
  vacant k := by
    cases a <;> cases k <;> simp

theorem mindsBuild_onLinux (here : Location) (a : Arch) :
    MindsBuild toolOfX64 onLinux.root here [Utf8.encode "llvm"] a onLinux.build where
  root := rfl
  record := rfl
  commands s c h := by
    have hdir : c.dir = some (onLinux.root.build a) := by cases h <;> rfl
    exact (decided_toolOfX64 hdir).minds (.inr rfl)
  environment := minds_environment (.unix ⟨.linux, .empty, none⟩) nofun nofun

def wayToLlvm : Tree := Tree.empty.put [Utf8.encode "llvm"] (.dir 0o755)

theorem eq_of_wayToLlvm {loc : Location} (h : wayToLlvm.node? loc ≠ none) :
    loc = [] ∨ loc = [Utf8.encode "llvm"] := by
  by_contra hne
  rw [not_or] at hne
  rw [wayToLlvm, node?_put_of_ne _ _ hne.2, node?_empty hne.1] at h
  exact h rfl

theorem aloof_wayToLlvm : Aloof onLinux.root [] [Utf8.encode "llvm"] halfBuilt.tree := by
  refine ⟨wayToLlvm, ⟨fun loc mode hm => ?_, fun loc target hl => ?_⟩,
    fun a loc hown => ?_, ⟨0o755, rfl⟩,
    ⟨⟨maxLinks, ?_⟩, 0o755, rfl⟩⟩
  · rcases eq_of_wayToLlvm (Option.ne_none_iff_exists'.mpr ⟨_, hm⟩) with rfl | rfl <;>
      exact ⟨0o755, rfl⟩
  · rcases eq_of_wayToLlvm (Option.ne_none_iff_exists'.mpr ⟨_, hl⟩) with rfl | rfl <;>
      exact nomatch Option.some.inj hl
  · by_contra hne
    rcases eq_of_wayToLlvm hne with rfl | rfl <;> cases a <;> revert hown <;>
      unfold Own <;> decide
  · have hmoves : onLinux.root.path.moves = [.name (Utf8.encode "llvm")] := by decide
    rw [hmoves]
    exact .dir (by decide) rfl (.done ..)

theorem fit_halfBuilt : Fit onLinux.root [] [Utf8.encode "llvm"] halfBuilt where
  cwd := rfl
  closed := isSound_halfBuilt.closed
  filled := .of_entries (by cbv)
  aloof := aloof_wayToLlvm
  lock := by
    have hnone : halfBuilt.tree.node? ([Utf8.encode "llvm"] ++ [lockName]) = none := rfl
    exact ⟨fun _ hl => absurd (hl.symm.trans hnone) (Option.some_ne_none _),
      fun _ _ hid => absurd (hid.symm.trans hnone) (Option.some_ne_none _)⟩
  unlinked s target hl := by
    have hkind : kindAt halfBuilt.tree ([Utf8.encode "llvm"] ++ [markerName s]) ≠
        some .link := by
      cases s with
      | fetch => decide
      | configure a => cases a <;> decide
      | install a => cases a <;> decide
    exact hkind (congrArg (Option.map Node.objectKind) hl)

theorem onLinux_inTurn :
    halfBuilt.IsSound ∧
    (makeDirs onLinux.root.path).run.run toolOfX64 halfBuilt = (.ok (), halfBuilt) ∧
    Impartial toolOfX64 onLinux [] [Utf8.encode "llvm"] halfBuilt ∧
    ∃ x y w₁ w₂,
    (onLinux.inTurn (fun _ => "setup") .x64 .x86).run toolOfX64 halfBuilt = ((x, y), w₁) ∧
    (onLinux.inTurn (fun _ => "setup") .x86 .x64).run toolOfX64 halfBuilt = ((y, x), w₂) ∧
    SameButContent ([Utf8.encode "llvm"] ++ [lockName]) w₁.tree w₂.tree := by
  have husable : onLinux.root.path.bytes = [] ∨ onLinux.root.path.refusal? = none := by decide
  have hmade : (makeDirs onLinux.root.path).run.run toolOfX64 halfBuilt =
      (.ok (), halfBuilt) := by
    rw [run_makeDirs_of_reaches fit_halfBuilt.reaches, if_pos husable]
  have himpartial : Impartial toolOfX64 onLinux [] [Utf8.encode "llvm"] halfBuilt := {
    fit := fit_halfBuilt
    usable := husable
    free := fun _ _ _ => rfl
    serves := fun _ _ _ => rfl
    draws := ⟨fun _ => List.not_mem_nil, fun _ => List.not_mem_nil, fun _ _ => rfl⟩
    names := fun _ => .inl (by cbv)
    builds := mindsBuild_onLinux [] }
  refine ⟨isSound_halfBuilt, hmade, himpartial, ?_⟩
  have hmade' : ∀ m, (makeDirs onLinux.root.path).run.run toolOfX64 halfBuilt = (.ok (), m) →
      Impartial toolOfX64 onLinux [] [Utf8.encode "llvm"] m := fun m hm => by
    obtain rfl : m = halfBuilt := congrArg Prod.snd (hm.symm.trans hmade)
    exact himpartial
  exact inTurn_comm isSound_halfBuilt (by decide) hmade' (fun _ _ _ => by decide) _

end Bootstrap

end LlvmBootstrap
