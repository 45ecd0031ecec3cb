import LlvmBootstrap.Proofs.Build.Course
import LlvmBootstrap.Proofs.Root.SharedFetch

/-!
A build by a run that holds the lock, amid others. What a failed stage has left is removed.
That is the build tree, which was made where nothing stood and so is off the way to the lock
file, or the install directory of the architecture, which was found missing.
-/

namespace LlvmBootstrap

open LlvmBootstrap.Tree Program
open Build (Part)

namespace Root

variable {σ : Type} {o : Outside σ} {r : Root} {past : List Answered}
  {w w₀ : World σ} {h : Handle} {cwd top : Location} {id : FileId} {t t' : Tree} {s : Stage}
  {a : Arch} {b : Build} {p : Part} {tc : Toolchain}

/-- What a stage has left can be removed, and the lock file stays in its place. -/
inductive Removable (r : Root) (cwd top : Location) (t : Tree) : Stage → Prop
  | off {s : Stage} (hoff : r.Off cwd t (top ++ [markerName s])) : Removable r cwd top t s
  | install {a : Arch} (hm : r.Missing cwd top (.install a) t) :
      Removable r cwd top t (.install a)

theorem LockAt.removable_next (hw : LockAt r cwd top id t) (hl : r.Leaves cwd t t')
    (hs : Removable r cwd top t s) : Removable r cwd top t' s := by
  cases hs with
  | off hoff => exact .off ((hw.off_iff hl).mpr hoff)
  | install hm => exact .install (hw.missing_next hl hm)

theorem LockAt.removeAll_marker (hw : LockAt r cwd top id t) (hs : Removable r cwd top t s)
    (hok : t.removeAll cwd (r.marker s) = .ok t') :
    r.Leaves cwd t t' ∧ t'.bodies = t.bodies := by
  cases hs with
  | off hoff => exact hw.removeAll (r.extends_marker s) hoff hok
  | install hm => exact hw.removeAll_install hm hok

namespace Since

theorem removable (hs : Since r top id h w₀ past w) (hr : Removable r w₀.cwd top w₀.tree s) :
    Removable r w.cwd top w.tree s :=
  hs.cwd ▸ hs.start.removable_next hs.leaves hr

theorem amid_reset (hs : Since r top id h w₀ past w) (ho : SparesLock o r)
    (hr : Removable r w₀.cwd top w₀.tree s) :
    (r.reset s).run.Amid o (Meanwhile o r) (Obeys r)
      (fun _ past' w' => Since r top id h w₀ past' w') past w := by
  rw [Root.reset]
  refine hs.amid_attempt_change ho ?_ ?_ ?_
  · intro w' t' hs' _ happ
    obtain ⟨hl, hbodies⟩ := hs'.lockAt.removeAll_marker (hs'.removable hr) happ
    exact ⟨hl, by rw [Tree.content, Tree.body?, hbodies]; rfl⟩
  · exact fun _ _ _ _ _ _ hs' => hs'
  · intro e w' past' _ _ hs'
    cases e with
    | notFound => exact hs'
    | _ => exact hs'

/-- The command of a stage, and the reset if it fails. -/
theorem amid_runStage {cmd : Command} (hs : Since r top id h w₀ past w) (ho : SparesLock o r)
    (hb : b.record = r.record) (hd : cmd.dir ≠ none) (hr : Removable r w₀.cwd top w₀.tree s) :
    (b.runStage s cmd).run.Amid o (Meanwhile o r) (Obeys r)
      (fun _ past' w' => Since r top id h w₀ past' w') past w := by
  rw [Part.run_runStage, hb]
  refine hs.amid_call (c := .spawn .shared cmd) ho nofun nofun
    (fun w' hs' => .stage hd hs'.holds) ?_
  intro answer _ w₁ _ _ _ hs₁
  cases Build.failure? s cmd answer with
  | none => exact hs₁
  | some e =>
      refine hs₁.amid_free (c := .log ..) ho (.idle trivial) fun _ past₂ w₂ hs₂ => ?_
      refine (hs₂.amid_reset ho hr).bind fun res past₃ w₃ hs₃ => ?_
      rcases res with e' | ⟨⟩
      · exact hs₃.amid_free (c := .log ..) ho (.idle trivial) fun _ _ _ hs' => hs'
      · exact hs₃

/-- What a stage that was found missing does before its command. -/
theorem amid_ready (hs : Since r top id h w₀ past w) (ho : SparesLock o r) (hroot : b.root = r)
    (hasks : b.host.OnlyAsks) (hm : r.Missing w₀.cwd top (p.stage a) w₀.tree) :
    ((p.ready b a).start tc).Amid o (Meanwhile o r) (Obeys r) (fun res past' w' =>
      Since r top id h w₀ past' w' ∧
        ∀ cmd, res.1 = .ok cmd → cmd.dir ≠ none ∧ Removable r w'.cwd top w'.tree (p.stage a))
      past w := by
  have henv : ((Work.environment b.host).start tc).Only (Free r) :=
    (Work.environment_onlyAsks hasks tc).mono fun _ => free_of_asks
  cases p with
  | configure =>
      rw [Part.ready]
      cases b.host.generator a with
      | error e => exact ⟨hs, by simp⟩
      | ok generator =>
          refine Amid.work_adapt_bind (hs.amid_only ho henv)
            ?_ fun _ _ _ _ hs' => ⟨hs', by simp⟩
          intro vars tc₁ past₁ w₁ hs₁
          refine Amid.work_lift_bind (hs₁.amid_only (q := ask (.log ..)) ho
            ⟨.idle trivial, fun _ => trivial⟩) fun _ past₂ w₂ hs₂ => ?_
          -- The directory is made in front of the command, so it is off the
          -- way to the lock file afterwards.
          rw [hroot]
          refine Amid.ofAttempt_bind (hs₂.amid_makeMarker ho hm) ?_
            fun _ _ _ hmade => ⟨hmade.1, by simp⟩
          rintro ⟨⟩ past₃ w₃ ⟨hs₃, hoff⟩
          refine ⟨hs₃, ?_⟩
          rintro _ ⟨⟩
          exact ⟨Option.some_ne_none _, .off (hoff rfl)⟩
  | install =>
      rw [Part.ready]
      refine Amid.work_adapt_bind (hs.amid_only ho henv) ?_ fun _ _ _ _ hs' => ⟨hs', by simp⟩
      intro vars tc₁ past₁ w₁ hs₁
      refine Amid.work_lift_bind (hs₁.amid_only (q := ask (.log ..)) ho
        ⟨.idle trivial, fun _ => trivial⟩) fun _ past₂ w₂ hs₂ => ?_
      refine ⟨hs₂, ?_⟩
      rintro _ ⟨⟩
      exact ⟨Option.some_ne_none _, hs₂.removable (.install hm)⟩

theorem amid_check (hs : Since r top id h w₀ past w) (ho : SparesLock o r)
    (hb : b.record = r.record) :
    (p.check b a).Amid o (Meanwhile o r) (Obeys r)
      (fun _ past' w' => Since r top id h w₀ past' w') past w := by
  cases p with
  | configure => exact hs
  | install =>
      rw [Part.check, hb]
      refine (hs.amid_isDir ho).bind ?_
      rintro (_ | _) past₁ w₁ ⟨hs₁, -⟩
      · exact hs₁.amid_free (c := .log ..) ho (.idle trivial) fun _ _ _ hs' => hs'
      · exact hs₁

/-- A whole stage of a build. -/
theorem amid_work (hs : Since r top id h w₀ past w) (ho : SparesLock o r) (hroot : b.root = r)
    (hb : b.record = r.record) (hasks : b.host.OnlyAsks) (p : Part) (tc : Toolchain) :
    ((p.work b a).start tc).Amid o (Meanwhile o r) (Obeys r)
      (fun _ past' w' => Since r top id h w₀ past' w') past w := by
  rw [Part.start_work, hb]
  refine (hs.amid_isDir ho).bind ?_
  rintro (_ | _) past₁ w₁ ⟨hs₁, hfound⟩
  · have hm : r.Missing w₁.cwd top (p.stage a) w₁.tree := fun _ => hfound.symm
    refine (hs₁.toWorking.since.amid_ready ho hroot hasks hm).bind ?_
    rintro ⟨e | cmd, tc₁⟩ past₂ w₂ ⟨hs₂, hr⟩
    · exact hs₁.trans hs₂
    · obtain ⟨hd, hr⟩ := hr cmd rfl
      refine (hs₂.toWorking.since.amid_runStage ho hb hd hr).bind fun res past₃ w₃ hs₃ => ?_
      have hs₃ : Since r top id h w₀ past₃ w₃ := (hs₁.trans hs₂).trans hs₃
      rcases res with e | ⟨⟩
      · exact hs₃
      · exact (hs₃.amid_check ho hb).bind fun _ _ _ hs' => hs'
  · exact hs₁.amid_free (c := .log ..) ho (.idle trivial) fun _ _ _ hs' => hs'

theorem amid_build (hs : Since r top id h w₀ past w) (ho : SparesLock o r) (hroot : b.root = r)
    (hb : b.record = r.record) (hasks : b.host.OnlyAsks) (tc : Toolchain) :
    ((b.run a).start tc).Amid o (Meanwhile o r) (Obeys r)
      (fun _ past' w' => Since r top id h w₀ past' w') past w := by
  rw [Build.run]
  refine Amid.work_bind (hs.amid_work ho hroot hb hasks .configure tc)
    ?_ fun _ _ _ _ hs' => hs'
  intro out tc₁ past₁ w₁ hs₁
  refine Amid.work_bind (hs₁.amid_work ho hroot hb hasks .install tc₁)
    ?_ fun _ _ _ _ hs' => hs'
  exact fun _ _ _ _ hs' => hs'

end Since

end Root

end LlvmBootstrap
