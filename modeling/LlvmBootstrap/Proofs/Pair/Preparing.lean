import LlvmBootstrap.Proofs.Pair.Building
import LlvmBootstrap.Proofs.Pair.Locking
import LlvmBootstrap.Proofs.Run.Calls

/-!
The steps under the lock of a root, for one architecture after the other. The sources come out
the same for both, and what is behind them minds what is whose.
-/

namespace LlvmBootstrap

open LlvmBootstrap.Tree Program Sources

/-- Calls that only concern paths, or nothing of the files at all, leave the locks alone. -/
theorem Program.Only.locks {σ α : Type} {o : Outside σ} {p : Program α}
    (h : p.Only fun c => c.IsPlain ∨ c.IsIdle) (w : World σ) :
    (p.run o w).2.locks = w.locks := by
  induction p generalizing w with
  | done a => rfl
  | call c next ih =>
      refine (ih _ (h.2 _) _).trans
        (World.Performs.sameHandles (World.Performs.done (o := o) c) ?_ ?_).locks
      · rcases h.1 with hc | hc <;> cases c <;> first | rfl | contradiction
      · rintro p rfl
        exact h.1.elim id id

namespace Root

variable {σ : Type} {o : Outside σ} {v : Bootstrap} {r : Root}
  {here top : Location} {a b : Arch} {command : String} {m u u' w w' : World σ} {t : Toolchain}
  {h : Handle} {f : FileId × Mode}

/-! ### With the sources -/

theorem lockName_ne_sourceName : lockName ≠ sourceName := by decide

theorem stagingName_ne_lockName (drawn : Name) : stagingName drawn ≠ lockName := by
  obtain ⟨rest, heq, -⟩ := stagingName_eq drawn
  rw [heq]
  intro hname
  have hnext : (0x2E :: 0x73 :: rest)[1]? = lockName[1]? := congrArg (·[1]?) hname
  revert hnext
  exact (by decide : some (0x73 : UInt8) ≠ lockName[1]?)

theorem Fit.sourced (hu : Fit r here top u) (h : Sourced r top u w) (hcwd : w.cwd = u.cwd) :
    Fit r here top w where
  cwd := hcwd.trans hu.cwd
  closed := h.closed
  filled := h.filled
  aloof := by
    obtain ⟨way, hroutes, hnone, hdir, hr⟩ := hu.aloof
    exact ⟨way, hroutes.trans h.routes, hnone, hdir, hr⟩
  lock := by
    have hlock := h.nodes (top ++ [lockName]) (isWithin_sibling lockName_ne_sourceName.symm)
    refine ⟨fun target hl => hu.lock.not_link target (hlock ▸ hl), fun id loc hid hn => ?_⟩
    rw [hlock] at hid
    cases hloc : isWithin (top ++ [sourceName]) loc with
    | false => exact hu.lock.single id loc hid ((h.nodes loc hloc).symm.trans hn)
    | true =>
        rcases h.fresh loc id hloc hn with hold | hnew
        · exact hu.lock.single id loc hid hold
        · exact absurd (lt_of_filled hu.filled hid) (Nat.not_lt.mpr hnew)
  unlinked s target hl := by
    by_cases hs : s = .fetch
    · subst hs
      rcases h.entry with heq | ⟨mode, hm⟩
      · exact hu.unlinked .fetch target (heq.symm.trans hl)
      · exact nomatch Option.some.inj (hm.symm.trans hl)
    · exact hu.unlinked s target
        ((h.nodes _ (isWithin_sibling (markerName_ne (Ne.symm hs)))).symm.trans hl)

theorem HasLock.sourced (hhas : HasLock top f u.tree) (h : Sourced r top u w) :
    HasLock top f w.tree :=
  hhas.congr (h.nodes _ (isWithin_sibling lockName_ne_sourceName.symm)) fun id body _ =>
    h.bodies id body

theorem HasLock.onlyOwn {t t' : Tree} (hhas : HasLock top f t) (h : OnlyOwn top a t t') :
    HasLock top f t' :=
  hhas.congr (h.nodes _ not_own_lock) fun id _ hn hb =>
    (h.bodies _ id not_own_lock hn).trans hb

theorem isFetched_congr (hu : Fit r here top u) (hw : Fit r here top w)
    (hn : w.tree.node? (top ++ [sourceName]) = u.tree.node? (top ++ [sourceName])) :
    isFetched r w = isFetched r u := by
  have hkind : kindAt w.tree (top ++ [markerName .fetch]) =
      kindAt u.tree (top ++ [markerName .fetch]) :=
    congrArg (Option.map Node.objectKind) hn
  exact (hw.isDir_marker .fetch).trans (hkind ▸ (hu.isDir_marker .fetch).symm)

/-! ### The steps -/

theorem fetched_keeps {archive : SourceArchive} {res : Except SourceError Fetched}
    (h : fetched o archive r u = (res, w)) : u.SameProcess w ∧ w.locks = u.locks := by
  have hsame := sameProcess_run o (fetch archive r r.record).run u
  have hlocks := (fetch_only archive r).locks (o := o) u
  rw [show (fetch archive r r.record).run.run o u = (res, w) from h] at hsame hlocks
  exact ⟨hsame, hlocks⟩

theorem mindsWork_building (h : MindsBuild o r here top a v.build) :
    MindsWork o r here top a (v.building a) := by
  rw [Bootstrap.building]
  exact (h.run.adapt _).bind fun _ => .log_bind _ _ fun _ => .pure _

/-- The root is there, at `top`, in order and free, and neither the outside nor the builds care
for which architecture comes first. -/
structure Impartial (o : Outside σ) (v : Bootstrap) (here top : Location)
    (m : World σ) : Prop where
  fit : Fit v.root here top m
  usable : v.root.path.bytes = [] ∨ v.root.path.refusal? = none
  free : RootLock.IsFree v.root m
  serves : o.Serves
  draws : o.DrawsAlike
  names : ∀ s, o.FindsFree m.tree top maxTries s
  builds : ∀ a, MindsBuild o v.root here top a v.build

namespace Impartial

/-- Whoever takes the lock, fetching the sources then comes to the same. -/
theorem fetch_twice (hm : Impartial o v here top m) (hu : Locked top m.tree u.tree)
    (hw : Locked top m.tree w.tree) (hcu : u.cwd = m.cwd) (hcw : w.cwd = m.cwd) :
    ∃ res u' w', fetched o v.settings.archive v.root u = (res, u') ∧
      fetched o v.settings.archive v.root w = (res, w') ∧
      FetchedTwice v.root top (top ++ [lockName]) u w res u' w' := by
  have hfit := hu.fit hm.fit hcu
  have hfit' := hw.fit hm.fit hcw
  refine Sources.fetch_twice v.settings.archive
    ⟨hfit.isSound, hfit'.isSound, hfit.filled, hfit'.filled,
    hcw.trans hcu.symm, hu.agrees hw, hfit.reaches⟩ hm.serves hm.draws fun s => ?_
  refine (hm.names s).congr fun s => hu.nodes _ fun heq => ?_
  exact stagingName_ne_lockName _ (List.cons.inj (List.append_cancel_left heq)).1

end Impartial

/-! ### One after the other -/

theorem Fit.kept (hu : Fit r here top u) (h : Kept u.tree w.tree) (hcwd : w.cwd = u.cwd) :
    Fit r here top w where
  cwd := hcwd.trans hu.cwd
  closed := hu.closed.congr h.nodes
  filled loc id hn := by
    rw [h.nodes] at hn
    exact (hu.filled loc id hn).imp fun b => h.bodies id b
  aloof := by
    obtain ⟨way, hroutes, hnone, hdir, hr⟩ := hu.aloof
    exact ⟨way, hroutes.trans h.routesKept, hnone, hdir, hr⟩
  lock := by
    refine ⟨fun target hl => hu.lock.not_link target ((h.nodes _).symm.trans hl),
      fun id loc hid hn => ?_⟩
    exact hu.lock.single id loc ((h.nodes _).symm.trans hid) ((h.nodes loc).symm.trans hn)
  unlinked s target hl := hu.unlinked s target ((h.nodes _).symm.trans hl)

/-- The lock file can be opened, once it is there, if it could be before. -/
theorem HasLock.exists_openFile {id : FileId} {t₁ : Tree} (h : HasLock top f w.tree)
    (hw : Fit r here top w) (hm : Fit r here top m)
    (hopen : m.tree.openFile m.cwd r.lock 0o666 = .ok (id, t₁)) :
    ∃ id t₁, w.tree.openFile w.cwd r.lock 0o666 = .ok (id, t₁) := by
  have harrive : ∃ found, m.tree.arrive top r.lock [lockName] = .ok found := by
    rw [hm.openFile_lock] at hopen
    cases ha : m.tree.arrive top r.lock [lockName] with
    | ok found => exact ⟨found, rfl⟩
    | error e =>
        rw [ha] at hopen
        contradiction
  obtain ⟨found, ha⟩ := harrive
  obtain ⟨hp, hshort, -⟩ := arrive_single_iff.mp ha
  rw [hw.openFile_lock, arrive_single_iff.mpr ⟨hp, hshort, h.node⟩]
  exact ⟨_, _, rfl⟩

/-- A world like `m`, where the lock may have been had before. -/
structure Again (r : Root) (here top : Location) (m w : World σ) : Prop where
  fit : Fit r here top w
  free : RootLock.IsFree r w
  opens : ∃ id t, w.tree.openFile w.cwd r.lock 0o666 = .ok (id, t)
  locked : ∀ t, Locked top w.tree t → Locked top m.tree t
  process : m.SameProcess w

/-- If the sources cannot be fetched, that is what making LLVM ready comes to, and nothing is
left of it but the lock file. -/
theorem Impartial.run_prepare_of_unfetched {e : SourceError} (a : Arch) (command : String)
    (t : Toolchain) (hm : Impartial o v here top m)
    (hfail : ∀ u, Locked top m.tree u.tree → m.SameProcess u →
      ∃ u', fetched o v.settings.archive v.root u = (.error e, u') ∧ Kept u.tree u'.tree)
    (hw : Again v.root here top m w) :
    ∃ w', ((v.prepare a command).start t).run o w = ((.error (.fetch e), t), w') ∧
      Again v.root here top m w' ∧ Locked top m.tree w'.tree := by
  obtain ⟨id, t₁, hopen⟩ := hw.opens
  obtain ⟨w₁, h, hheld, hrun⟩ := exists_held (o := o) a command t hw.fit hm.usable
    hw.free hopen
  have hlocked := hw.locked _ hheld.locked
  have hprocess := hw.process.trans hheld.process
  obtain ⟨w₂, hfetch, hkept⟩ := hfail w₁ hlocked hprocess
  obtain ⟨hprocess₂, hlocks⟩ := fetched_keeps hfetch
  rw [Bootstrap.run_steps_of_unfetched hfetch] at hrun
  have hfit₁ := hheld.locked.fit hw.fit hheld.process.cwd
  have hfit₂ : Fit v.root here top (w₂.close h) := { hfit₁.kept hkept hprocess₂.cwd with }
  have hlocked₂ : Locked top m.tree (w₂.close h).tree := hlocked.kept hkept hm.fit.filled
  refine ⟨w₂.close h, hrun, ⟨hfit₂, ?_, ?_, fun t' ht' => hlocked₂.trans ht', ?_⟩, hlocked₂⟩
  · refine isFree_close (hfit₁.kept hkept hprocess₂.cwd) hlocked₂.has ?_
    rw [hlocks, ← hlocked.has.eq, hheld.locked.has.eq]
    exact hheld.lock
  · exact hlocked₂.has.exists_openFile hfit₂ hw.fit hopen
  · exact hprocess.trans ⟨hprocess₂.cwd, hprocess₂.environ, hprocess₂.processId⟩

end Root

end LlvmBootstrap
