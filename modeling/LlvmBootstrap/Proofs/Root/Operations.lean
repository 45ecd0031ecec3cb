import Mathlib
import LlvmBootstrap.Proofs.Root.LockFile

/-!
Everything that can be asked of a root for an architecture keeps to the frame: whatever
commands, servers and archives do, completed stages and the stages of other architectures are
left as they are. The one way to touch them is to make the root, if its path leads through
their directories.
-/

namespace LlvmBootstrap

open Archive LlvmBootstrap.Tree Program

/-- What can be asked of a root for the architecture `a`. -/
inductive Bootstrap.Operates (v : Bootstrap) (a : Arch) : {α : Type} → Program α → Prop
  | fetch : Operates v a (Sources.fetch v.settings.archive v.root v.root.record).run
  | configure (t : Toolchain) : Operates v a ((v.build.configure a).start t)
  | install (t : Toolchain) : Operates v a ((v.build.install a).start t)
  | prepare (command : String) (t : Toolchain) : Operates v a ((v.prepare a command).start t)
  | run (q : Request) (hq : q.arch = a) : Operates v a (v.run q)

theorem Downstream.withToolchain_onlyAsks {d : Downstream} (hasks : d.host.OnlyAsks)
    (act : Action) (cmd : Command) (t : Toolchain) :
    ((d.withToolchain act cmd).start t).Only Call.Asks := by
  rw [withToolchain]
  split
  · rw [Work.start_bind]
    refine (Work.environment_onlyAsks hasks t).bind ?_
    rintro ⟨e | vars, t'⟩
    · exact trivial
    · exact trivial
  · exact trivial

namespace Root

variable {σ α : Type} {o : Outside σ} {v : Bootstrap} {a : Arch}
  {past : List Answered} {w : World σ} {t : Toolchain} {p : Program α}

/-! ### Parts of a run -/

theorem along_steps (hd : o.DrawsPlain) (ho : o.KeepsSound) (hasks : v.host.OnlyAsks)
    (hw : w.IsSound) (hfilled : w.tree.Filled) :
    ((v.steps a).start t).Along o (Frame o v.build a)
      (fun res past' w' => past ⊆ past' ∧ ∀ p, res.1 = .ok p → w'.IsSound) past w := by
  have hfetch := along_fetch (b := v.build) (a := a) hw hfilled hd v.settings.archive past
  rw [Bootstrap.steps]
  refine Along.ofAttempt_bind
    (P := fun res past' w' => past ⊆ past' ∧ ∀ f, res = .ok f → w'.IsSound)
    (.adapt (hfetch.post ?_)) ?_ fun _ _ _ h => ⟨h.1, by simp⟩
  · rintro (e | f) past' w' ⟨hsub, hw'⟩
    · exact ⟨hsub, by rintro _ ⟨⟩⟩
    · exact ⟨hsub, fun _ _ => hw' f rfl⟩
  · rintro f past₁ w₁ ⟨hsub₁, hw₁⟩
    have hrun := along_build (b := v.build) (a := a) ho hasks rfl (hw₁ f rfl) t past₁
    refine Along.work_bind
      (P := fun res past' w' => past ⊆ past' ∧ ∀ p, res.1 = .ok p → w'.IsSound)
      (.work_adapt (hrun.post ?_)) ?_ fun _ _ _ _ h => ⟨h.1, by simp⟩
    · rintro ⟨e | p, t'⟩ past' w' ⟨hsub, hw'⟩
      · exact ⟨List.Subset.trans hsub₁ hsub, by rintro _ ⟨⟩⟩
      · exact ⟨List.Subset.trans hsub₁ hsub, fun _ _ => hw' p rfl⟩
    · rintro p t₂ past₂ w₂ ⟨hsub₂, hw₂⟩
      refine Along.work_call_bind (.of_isStill trivial) ?_
      exact ⟨fun _ hx => List.mem_append_left _ (hsub₂ hx),
        fun _ _ => isSound_log (hw₂ p rfl) ..⟩

theorem along_prepare (hd : o.DrawsPlain) (ho : o.KeepsSound) (hasks : v.host.OnlyAsks)
    (hw : w.IsSound) (hfilled : w.tree.Filled) (hlock : HasPlainLock v.root w)
    (command : String) :
    ((v.prepare a command).start t).Along o (Frame o v.build a)
      (fun res past' w' => past ⊆ past' ∧ ∀ p, res.1 = .ok p → w'.IsSound) past w := by
  rw [Bootstrap.start_prepare]
  refine (along_of_throughout (throughout_makeRoot (b := v.build) hw hfilled hlock)).bind ?_
  rintro (e | ⟨⟩) past₁ w₁ ⟨hsub₁, hmade⟩
  · exact ⟨hsub₁, by simp⟩
  · obtain ⟨hw₁, hfilled₁, top, hr, hplain⟩ := hmade rfl
    rw [Bootstrap.prepareThere]
    refine (along_of_throughout
      (throughout_take (b := v.build) hw₁ hfilled₁ hr hplain command a)).bind ?_
    rintro (e | l) past₂ w₂ ⟨hsub₂, htaken⟩
    · exact ⟨List.Subset.trans hsub₁ hsub₂, by simp⟩
    · obtain ⟨hw₂, hfilled₂⟩ := htaken l rfl
      dsimp only
      rw [Bootstrap.start_holding]
      refine (along_steps hd ho hasks hw₂ hfilled₂).bind ?_
      rintro res past₃ w₃ ⟨hsub₃, hw₃⟩
      refine Along.call_bind_iff.mpr ⟨.of_isStill trivial, ?_⟩
      refine ⟨fun _ hx => List.mem_append_left _ (hsub₃ (hsub₂ (hsub₁ hx))), fun p hp => ?_⟩
      exact (hw₃ p hp).still (World.still_of_isStill o _ (c := .close l.handle) trivial)

theorem along_invoke {b : Build} (ho : o.KeepsSound) {d : Downstream} (hasks : d.host.OnlyAsks)
    (hw : w.IsSound) (q : Request) (install : Path) :
    ((d.invoke q install).start t).Along o (Frame o b a) (fun _ _ _ => True) past w := by
  rw [Downstream.invoke]
  cases d.command q install with
  | error e => exact trivial
  | ok cmd =>
      have henv := along_asks (a := a) (b := b) ho
        (Downstream.withToolchain_onlyAsks hasks q.action cmd t) hw past
      refine Along.work_bind (P := fun _ _ _ => True)
        (.work_adapt (henv.post fun _ _ _ _ => trivial)) ?_
        fun _ _ _ _ _ => trivial
      intro cmd' t₁ past₁ w₁ _
      refine Along.work_call_bind (.of_isStill trivial) (Along.work_call_bind (.tool ..) ?_)
      split
      · exact trivial
      · split <;> exact trivial

theorem along_run (hd : o.DrawsPlain) (ho : o.KeepsSound) (hasks : v.host.OnlyAsks)
    (hw : w.IsSound) (hfilled : w.tree.Filled) (hlock : HasPlainLock v.root w) (q : Request) :
    (v.run q).Along o (Frame o v.build q.arch) (fun _ _ _ => True) past w := by
  rw [Bootstrap.run]
  refine Along.bind (P := fun _ _ _ => True) ?_ fun _ _ _ _ => trivial
  refine Along.work_bind (along_prepare hd ho hasks hw hfilled hlock q.action.subcommand) ?_
    fun _ _ _ _ _ => trivial
  rintro install t₁ past₁ w₁ ⟨-, hw₁⟩
  exact .work_adapt
    ((along_invoke ho hasks (hw₁ install rfl) q install).post fun _ _ _ _ => trivial)

theorem along_operates (hp : v.Operates a p) (hd : o.DrawsPlain) (ho : o.KeepsSound)
    (hasks : v.host.OnlyAsks) (hw : w.IsSound) (hfilled : w.tree.Filled)
    (hlock : HasPlainLock v.root w) :
    p.Along o (Frame o v.build a) (fun _ _ _ => True) past w := by
  cases hp with
  | fetch =>
      exact (along_fetch (b := v.build) hw hfilled hd _ past).post fun _ _ _ _ => trivial
  | configure t =>
      exact (along_work (b := v.build) ho hasks rfl hw .configure t past).post
        fun _ _ _ _ => trivial
  | install t =>
      exact (along_work (b := v.build) ho hasks rfl hw .install t past).post
        fun _ _ _ _ => trivial
  | prepare command t =>
      exact (along_prepare hd ho hasks hw hfilled hlock command).post fun _ _ _ _ => trivial
  | run q hq =>
      subst hq
      exact along_run hd ho hasks hw hfilled hlock q

/-! ### Other stages -/

/-- Each call of an operation keeps to the frame. While the root is there, a stage
is touched by no call, other than a command, unless it is one of the architecture
and was found missing before. -/
theorem operates_frame (hp : v.Operates a p) (hd : o.DrawsPlain) (ho : o.KeepsSound)
    (hasks : v.host.OnlyAsks) (hw : w.IsSound) (hfilled : w.tree.Filled)
    (hlock : HasPlainLock v.root w) (n : Nat) {c : Call}
    (hc : (p.after o n w).1.next? = some c) :
    Frame o v.build a ((p.trace o w).take n) (p.after o n w).2 c ∧
      ∀ s top, Reaches (p.after o n w).2.tree (p.after o n w).2.cwd v.root.path top →
        (∀ output cmd, c ≠ .spawn output cmd) →
        ¬ (s.IsOf a ∧ FoundMissing v.root ((p.trace o w).take n) s) →
        Untouched top s (p.after o n w).2.tree ((p.after o n w).2.perform o c).2.tree := by
  have halong : p.Along o (Frame o v.build a) (fun _ _ _ => True) [] w :=
    along_operates hp hd ho hasks hw hfilled hlock
  have hframe := halong.at_step n hc
  rw [List.nil_append] at hframe
  exact ⟨hframe, fun s top hr hnot hs => hframe.untouched hnot hr hs⟩

def throughBuild : Bootstrap :=
  ⟨.default, ⟨"l/build-x86/.."⟩, Platform.unix ⟨.linux, .empty, none⟩⟩

def prepareThroughBuild : Program (Except BootstrapError Path × Toolchain) :=
  (throughBuild.prepare .x64 "build").start (.of .x64)

theorem hasPlainLock_bareWorld (r : Root) : r.HasPlainLock bareWorld := fun t top _ _ => by
  have hvacant : bareWorld.tree.node? (top ++ [lockName]) = none := node?_empty (by simp)
  exact ⟨fun target => by simp [hvacant], fun id loc => by simp [hvacant]⟩

theorem filled_bareWorld : bareWorld.tree.Filled := fun loc id hloc => by
  cases loc with
  | nil => exact absurd hloc nofun
  | cons n loc => exact absurd ((node?_empty (by simp)).symm.trans hloc) nofun

/-- The fourth call of a run makes the root there, as the frame has
it, and with it the build tree. -/
theorem operates_frame_throughBuild :
    throughBuild.Operates .x64 prepareThroughBuild ∧ bareWorld.IsSound ∧
      bareWorld.tree.Filled ∧ throughBuild.root.HasPlainLock bareWorld ∧
      let reached := prepareThroughBuild.after silent 3 bareWorld
      ∃ c, reached.1.next? = some c ∧
        Frame silent throughBuild.build .x64
          ((prepareThroughBuild.trace silent bareWorld).take 3) reached.2 c ∧
        ((throughBuild.root.isComplete (.configure .x86)).run silent reached.2).1 = false ∧
        ((throughBuild.root.isComplete (.configure .x86)).run silent
          (reached.2.perform silent c).2).1 = true := by
  have hp : throughBuild.Operates .x64 prepareThroughBuild := .prepare ..
  have hc : (prepareThroughBuild.after silent 3 bareWorld).1.next? =
      some (.change (.mkdir "l/build-x86")) := by
    cbv
  have hframe := operates_frame hp (o := silent) (fun _ => List.not_mem_nil)
    (fun w output cmd hw => hw.still ⟨by cases output <;> rfl, by cases output <;> rfl⟩)
    (Platform.unix ⟨.linux, .empty, none⟩).onlyAsks isSound_bareWorld filled_bareWorld
    (hasPlainLock_bareWorld _) 3 hc
  refine ⟨hp, isSound_bareWorld, filled_bareWorld, hasPlainLock_bareWorld _, _, hc,
    hframe.1, ?_, ?_⟩
  · cbv
  · cbv

end Root

end LlvmBootstrap
