import LlvmBootstrap.Proofs.Build.Course
import LlvmBootstrap.Proofs.Root.Changes

/-!
Configuring and installing in a tidy root. The directory of the stage is there in the end
exactly if the command of the stage has succeeded: what a failed command has left is removed.
-/

namespace LlvmBootstrap

open LlvmBootstrap.Tree Program
open Build (Does)

namespace Root

variable {σ : Type} {r : Root} {m w : World σ} {top : Location} {s : Stage}
  {o : Outside σ} {b : Build} {a : Arch} {t : Toolchain}

theorem run_marker (hb : Bare r m top) (hw : Tidy r m top w) (s : Stage) :
    Advances r m top o (fun done w' => (done = true ↔ Has top s w.tree) ∧
      SameStages top w.tree w'.tree) (r.isComplete s) w := by
  have hlook : (isDir (r.marker s)).Throughout o (fun _ c => c.IsPassive)
      (fun b w' => w' = w ∧ b = w.tree.isDir w.cwd (r.marker s)) w := throughout_isDir trivial
  refine (Advances.of_passive hw hlook).post ?_
  rintro done w' - ⟨⟨-, rfl⟩, hsame⟩
  exact ⟨hw.isDir_marker_iff hb, hsame⟩

/-! ### The environment of the compilers -/

/-- A program that only asks leaves the stages as they are. -/
theorem advances_asking {α : Type} {p : Program α} (hb : Bare r m top) (hbuild : o.Suits r b a)
    (hw : Tidy r m top w) (h : p.Only Call.Asks) :
    Advances r m top o (fun _ w' => SameStages top w.tree w'.tree) p w := by
  induction p generalizing w with
  | done x => exact .done hw fun _ => Iff.rfl
  | call c next ih =>
      have hrest : ∀ answer w', Tidy r m top w' → SameStages top w.tree w'.tree →
          Advances r m top o (fun _ w'' => SameStages top w.tree w''.tree) (next answer) w' :=
        fun answer w' hw' hsame => (ih answer hw' (h.2 answer)).post fun _ _ _ hsame' s =>
          (hsame' s).trans (hsame s)
      by_cases hc : c.IsPassive
      · exact Advances.passive_bind hw hc fun hw' hsame => hrest _ _ hw' hsame
      · obtain ⟨cmd, rfl⟩ : ∃ cmd, c = .spawn .collected cmd := by
          cases h.1 with
          | collect cmd => exact ⟨cmd, rfl⟩
          | _ => exact absurd trivial hc
        exact Advances.spawn_bind hb hbuild hw (.inl rfl) hrest

theorem advances_environment (hb : Bare r m top) (hbuild : o.Suits r b a)
    (hw : Tidy r m top w) {h : Host} (hasks : h.OnlyAsks) (t : Toolchain) :
    Advances r m top o (fun _ w' => SameStages top w.tree w'.tree)
      ((Work.environment h).start t) w := by
  rw [Work.start_environment]
  cases t.vars with
  | some vars => exact .done hw fun _ => Iff.rfl
  | none =>
      refine (advances_asking hb hbuild hw (hasks t.arch)).bind ?_
      rintro (e | vars) w' hw' hsame
      · exact .done hw' hsame
      · exact .done hw' hsame

/-! ### The command of a stage -/

theorem eq_of_serves {cmd : Command} {s' : Stage} (h : Does b a s cmd) (hroot : b.root = r)
    (hs : Serves r s' (.spawn .shared cmd)) : s' = s := by
  cases h with
  | configure generator vars => exact hs.of_configureCommand hroot
  | install vars => exact hs.of_installCommand hroot

theorem success_of_completes {cmd : Command} {answer : Except Failure Finished}
    (h : Completes r s ⟨.spawn .shared cmd, answer⟩) :
    ∃ f, answer = .ok f ∧ f.status.isSuccess = true := by
  generalize hx : (⟨.spawn .shared cmd, answer⟩ : Answered) = x at h
  cases h with
  | move staging => cases hx
  | configure hb a generator vars hf =>
      cases hx
      exact ⟨_, rfl, hf⟩
  | install hb a vars hf =>
      cases hx
      exact ⟨_, rfl, hf⟩

theorem completes_iff {cmd : Command} {answer : Except Failure Finished} (h : Does b a s cmd)
    (hroot : b.root = r) : Completes r s ⟨.spawn .shared cmd, answer⟩ ↔
      ∃ f, answer = .ok f ∧ f.status.isSuccess = true := by
  refine ⟨success_of_completes, ?_⟩
  rintro ⟨f, rfl, hf⟩
  cases h with
  | configure generator vars => exact .configure hroot a generator vars hf
  | install vars => exact .install hroot a vars hf

theorem failure?_eq_none_iff {cmd : Command} {answer : Except Failure Finished} :
    Build.failure? s cmd answer = none ↔ ∃ f, answer = .ok f ∧ f.status.isSuccess = true := by
  rcases answer with e | f
  · simp [Build.failure?]
  · simp [Build.failure?]

/-- The command of a stage while the build tree is there. The directory of the stage is there
afterwards if the command succeeds. -/
theorem tidy_does {cmd : Command} {answer : Except Failure Finished} {w' : World σ}
    (hb : Bare r m top) (hbuild : o.Suits r b a) (hw : Tidy r m top w)
    (hbuilt : Has top (.configure a) w.tree) (hdoes : Does b a s cmd)
    (hperform : w.perform o (.spawn .shared cmd) = (answer, w')) :
    Tidy r m top w' ∧ Has top (.configure a) w'.tree ∧ SameBut top s w.tree w'.tree ∧
      ((∃ f, answer = .ok f ∧ f.status.isSuccess = true) → Has top s w'.tree) := by
  obtain ⟨hanswer, htree, hcwd⟩ := perform_spawn o w .shared cmd
  rw [hperform] at hanswer htree hcwd
  have hspares := hbuild.tame ⟨w.cwd, w.environ⟩ .shared cmd w.tree w.outside top hw.closed
    (hbuild.root ▸ hw.reaches hb)
  rw [← hanswer, ← htree] at hspares
  obtain ⟨hw', hothers, hsame⟩ := tidy_spawn hw hspares hcwd fun _ => hbuilt
  refine ⟨hw', hspares.kept _ hbuilt, ?_, fun hok => ?_⟩
  · cases hdoes with
    | configure generator vars =>
        refine fun s' _ => hsame ?_ s'
        rintro ⟨-, vars', heq⟩
        exact configureCommand_ne_installCommand _ _ _ _ _ _ _ heq
    | install vars => exact hothers
  · cases hdoes with
    | configure generator vars => exact hspares.kept _ hbuilt
    | install vars => exact hspares.installed ⟨rfl, vars, rfl⟩ hok

/-- Running the command of a stage. If it fails, the directory of the stage is removed. -/
theorem traced_runStage {cmd : Command} (hb : Bare r m top) (hbuild : o.Suits r b a)
    (hw : Tidy r m top w)
    (hbuilt : Has top (.configure a) w.tree) (hdoes : Does b a s cmd)
    (hneeded : ∀ s', s'.Needs s → ¬ Has top s' w.tree) :
    (b.runStage s cmd).run.Traced o (fun res tr w' => Tidy r m top w' ∧
      SameBut top s w.tree w'.tree ∧ ∃ answer tr', tr = ⟨.spawn .shared cmd, answer⟩ :: tr' ∧
        (∀ x ∈ tr', ∀ s, ¬ Serves r s x.call) ∧
        (Has top s w'.tree ↔ ∃ f, answer = .ok f ∧ f.status.isSuccess = true) ∧
        (res = .ok () → Has top s w'.tree)) w := by
  rw [Build.runStage]
  refine Traced.attempt_call_bind_iff.mpr ?_
  cases hperform : w.perform o (.spawn .shared cmd) with
  | mk answer w₁ =>
      obtain ⟨hw₁, hbuilt₁, hothers, hdone⟩ := tidy_does hb hbuild hw hbuilt hdoes hperform
      dsimp only
      cases hfail : Build.failure? s cmd answer with
      | none =>
          have hok := failure?_eq_none_iff.mp hfail
          exact ⟨hw₁, hothers, answer, [], rfl, by simp, iff_of_true (hdone hok) hok,
            fun _ => hdone hok⟩
      | some e =>
          have hnot : ¬ ∃ f, answer = .ok f ∧ f.status.isSuccess = true := fun hok =>
            absurd (hfail.symm.trans (failure?_eq_none_iff.mpr hok)) (by simp)
          have hp : (r.marker s).refusal? = none := by
            cases hdoes with
            | configure generator vars => exact hw.refusal?_of_has hbuilt
            | install vars => exact refusal?_install (hw.refusal?_of_has hbuilt)
          -- A stage does not need itself, and the command has changed no other.
          have hneeded₁ : ∀ s', s'.Needs s → ¬ Has top s' w₁.tree := by
            intro s' hn hs'
            refine hneeded s' hn ((hothers s' ?_).mp hs')
            rintro rfl
            cases hn
          refine Traced.attempt_call_bind_iff.mpr ?_
          rw [ExceptT.run_bind_lift, hbuild.record]
          refine Traced.bind_iff.mpr ?_
          have hw₂ : Tidy r m top
              (w₁.perform o (.log .warn "stage failed, removing its output")).2 :=
            hw₁.congr (fun _ => rfl) rfl
          refine (traced_reset hb hw₂ hneeded₁ hp).post ?_
          rintro res tr w₃ ⟨hquiet, rfl, hw₃, hgone, hothers'⟩
          refine ⟨hw₃, fun s' hne => (hothers' s' hne).trans (hothers s' hne), answer,
            ⟨.log .warn "stage failed, removing its output", ()⟩ :: tr,
            congrArg (_ :: _ :: ·) (List.append_nil tr), fun x hx s => ?_,
            iff_of_false hgone hnot, by simp⟩
          rcases List.mem_cons.mp hx with rfl | hx
          · rintro ⟨⟩
          · exact hquiet x hx s

/-! ### The stages -/

/-- Making the build tree and running the command in it. -/
theorem advances_configureCommand (hb : Bare r m top) (hbuild : o.Suits r b a)
    (hw : Tidy r m top w) (hfetched : Has top .fetch w.tree)
    (hnot : ¬ Has top (.configure a) w.tree) (generator : String) (vars : Variables) :
    Advances r m top o (fun res w' => res = .ok () → Has top (.configure a) w'.tree)
      ((makeDirs (b.root.build a)).adapt .failed >>= fun _ =>
        b.runStage (.configure a) (b.configureCommand a generator vars)).run w := by
  have hneeds : ∀ s', (Stage.configure a).Needs s' → Has top s' w.tree := by
    rintro s' ⟨⟩
    exact hfetched
  have hneeded : ∀ s', s'.Needs (.configure a) → ¬ Has top s' w.tree := fun s' hn hs' =>
    hnot (hw.order _ _ hn hs')
  rw [ExceptT.run_bind, run_adapt, LawfulMonad.bind_assoc, hbuild.root]
  refine Traced.bind_iff.mpr ((traced_makeMarker hb hw hnot hneeds).post ?_)
  rintro (e | ⟨⟩) tr w₁ ⟨hquiet, hres⟩
  · obtain rfl := hres.symm
    exact ⟨hw, (Progress.of_quiet hquiet fun _ => Iff.rfl).trans (.refl ..), nofun⟩
  · obtain ⟨hw₁, hmade, hothers⟩ := hres
    -- The marker is made in front of the command, and no stage is there that needs it.
    have hneeded₁ : ∀ s', s'.Needs (.configure a) → ¬ Has top s' w₁.tree := by
      intro s' hn hs'
      refine hneeded s' hn ((hothers s' ?_).mp hs')
      rintro rfl
      nomatch hn
    refine (traced_runStage hb hbuild hw₁ hmade (.configure generator vars) hneeded₁).post ?_
    rintro res _ w₂ ⟨hw₂, hothers', answer, tr', rfl, hquiet', hdone, hres⟩
    have hdoes : Does b a (.configure a) (b.configureCommand a generator vars) :=
      .configure generator vars
    refine ⟨hw₂,
      Progress.of_single hquiet hquiet' (fun _ => eq_of_serves hdoes hbuild.root) hnot ?_ ?_,
      hres⟩
    · exact fun s' hne => (hothers' s' hne).trans (hothers s' hne)
    · exact hdone.trans (completes_iff hdoes hbuild.root).symm

theorem advances_installCommand (hb : Bare r m top) (hbuild : o.Suits r b a)
    (hw : Tidy r m top w) (hbuilt : Has top (.configure a) w.tree)
    (hnot : ¬ Has top (.install a) w.tree) (vars : Variables) :
    Advances r m top o (fun _ _ => True)
      (b.runStage (.install a) (b.installCommand a vars)).run w := by
  have hneeded : ∀ s', s'.Needs (.install a) → ¬ Has top s' w.tree := nofun
  refine (traced_runStage hb hbuild hw hbuilt (.install vars) hneeded).post ?_
  rintro res _ w' ⟨hw', hothers, answer, tr', rfl, hquiet, hdone, -⟩
  have hdoes : Does b a (.install a) (b.installCommand a vars) := .install vars
  have hnone : ∀ x ∈ ([] : List Answered), ∀ s, ¬ Serves r s x.call := by simp
  refine ⟨hw', ?_, trivial⟩
  exact Progress.of_single hnone hquiet (fun _ => eq_of_serves hdoes hbuild.root) hnot hothers
    (hdone.trans (completes_iff hdoes hbuild.root).symm)

theorem advances_configure (hb : Bare r m top) (hbuild : o.Suits r b a) (hw : Tidy r m top w)
    (hfetched : Has top .fetch w.tree) (t : Toolchain) :
    Advances r m top o (fun res w' => ∀ out, res.1 = .ok out → Has top (.configure a) w'.tree)
      ((b.configure a).start t) w := by
  rw [Build.configure, hbuild.record, Work.start_lift_bind]
  refine (run_marker hb hw _).bind ?_
  rintro done w₁ hw₁ ⟨hdone, hsame₁⟩
  cases done with
  | true =>
      simp only [if_true]
      refine Advances.work_passive_bind hw₁ trivial fun hw₂ hsame₂ => ?_
      exact .done hw₂ fun _ _ => (hsame₂ _).mpr ((hsame₁ _).mpr (hdone.mp rfl))
  | false =>
      simp only [Bool.false_eq_true, if_false]
      cases b.host.generator a with
      | error e => exact .done hw₁ fun _ => (by simp)
      | ok generator =>
          have henv := advances_environment hb hbuild hw₁ hbuild.asks t
          refine Advances.work_bind (P := fun _ w' => SameStages top w₁.tree w'.tree)
            (.work_adapt henv) ?_ ?_
          · intro vars t' w₂ hw₂ hsame₂
            refine Advances.work_passive_bind hw₂ trivial fun hw₃ hsame₃ => ?_
            rw [Work.start_ofAttempt_ofAttempt_bind]
            -- Up to here nothing has been done to any stage, so what was found
            -- of them at the start still holds.
            have hsame : SameStages top w.tree _ := fun s =>
              (hsame₃ s).trans ((hsame₂ s).trans (hsame₁ s))
            refine Advances.ofAttempt_bind (advances_configureCommand hb hbuild hw₃
              ((hsame _).mpr hfetched) (fun h => ?_) generator vars) ?_ ?_
            · exact absurd (hdone.mpr ((hsame _).mp h)) (by simp)
            · rintro ⟨⟩ w₄ hw₄ hmade
              exact .done hw₄ fun _ _ => hmade rfl
            · exact fun _ _ _ _ => (by simp)
          · exact fun _ _ _ _ _ => (by simp)

theorem advances_install (hb : Bare r m top) (hbuild : o.Suits r b a) (hw : Tidy r m top w)
    (hbuilt : Has top (.configure a) w.tree) (t : Toolchain) :
    Advances r m top o (fun _ _ => True) ((b.install a).start t) w := by
  rw [Build.install, hbuild.record, Work.start_lift_bind]
  refine (run_marker hb hw _).bind ?_
  rintro done w₁ hw₁ ⟨hdone, hsame₁⟩
  cases done with
  | true =>
      simp only [if_true]
      refine Advances.work_passive_bind hw₁ trivial fun hw₂ hsame₂ => ?_
      exact .done hw₂ trivial
  | false =>
      simp only [Bool.false_eq_true, if_false]
      have henv := advances_environment hb hbuild hw₁ hbuild.asks t
      refine Advances.work_bind (P := fun _ w' => SameStages top w₁.tree w'.tree)
        (.work_adapt henv) ?_ fun _ _ _ _ _ => trivial
      intro vars t' w₂ hw₂ hsame₂
      refine Advances.work_passive_bind hw₂ trivial fun hw₃ hsame₃ => ?_
      -- Up to here nothing has been done to any stage, so what was found
      -- of them at the start still holds.
      have hsame : SameStages top w.tree _ := fun s =>
        (hsame₃ s).trans ((hsame₂ s).trans (hsame₁ s))
      refine Advances.ofAttempt_bind
        (advances_installCommand hb hbuild hw₃ ((hsame _).mpr hbuilt)
        (fun h => ?_) vars) ?_ fun _ _ _ _ => trivial
      · exact absurd (hdone.mpr ((hsame _).mp h)) (by simp)
      · rintro ⟨⟩ w₄ hw₄ -
        rw [Work.start_lift_bind]
        refine (run_marker hb hw₄ _).bind ?_
        rintro done w₅ hw₅ -
        cases done with
        | true => exact .done hw₅ trivial
        | false =>
            refine Advances.work_passive_bind hw₅ trivial fun hw₆ _ => ?_
            exact .done hw₆ trivial

end Root

end LlvmBootstrap
