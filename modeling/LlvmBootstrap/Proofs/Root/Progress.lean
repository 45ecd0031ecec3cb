import LlvmBootstrap.Build
import LlvmBootstrap.Proofs.Machine.Traced
import LlvmBootstrap.Proofs.Root.Tidy

/-!
What the calls of a run mean for the stages of a root. A call can serve a stage and its answer
can complete it. `Progress` is what a part of a run has to do with the stages: it completes
each one at most once, serves none that is complete, and the directory of a stage is there in
the end exactly if it was there before or the stage was completed. One part after another makes
such a part again.
-/

namespace LlvmBootstrap

open LlvmBootstrap.Tree Program

namespace Root

variable {σ α β ε : Type} {r : Root} {m w w' : World σ} {top : Location} {s s' : Stage}
  {o : Outside σ} {c : Call} {x : Answered} {tr tr' : List Answered} {t t' t'' : Tree}

inductive Serves (r : Root) : Stage → Call → Prop
  | send (url : Url) : Serves r .fetch (.send url)
  | move (staging : Path) : Serves r .fetch (.change (.renameDir staging r.sources))
  | configure {b : Build} (hb : b.root = r) (a : Arch) (generator : String)
      (vars : Variables) :
      Serves r (.configure a) (.spawn .shared (b.configureCommand a generator vars))
  | install {b : Build} (hb : b.root = r) (a : Arch) (vars : Variables) :
      Serves r (.install a) (.spawn .shared (b.installCommand a vars))

/-- The calls with whose success a stage is done. -/
inductive Completes (r : Root) : Stage → Answered → Prop
  | move (staging : Path) : Completes r .fetch ⟨.change (.renameDir staging r.sources), .ok ()⟩
  | configure {b : Build} (hb : b.root = r) (a : Arch) (generator : String) (vars : Variables)
      {f : Finished} (hf : f.status.isSuccess = true) :
      Completes r (.configure a) ⟨.spawn .shared (b.configureCommand a generator vars), .ok f⟩
  | install {b : Build} (hb : b.root = r) (a : Arch) (vars : Variables) {f : Finished}
      (hf : f.status.isSuccess = true) :
      Completes r (.install a) ⟨.spawn .shared (b.installCommand a vars), .ok f⟩

theorem Completes.serves (h : Completes r s x) : Serves r s x.call := by
  cases h with
  | move staging => exact .move staging
  | configure hb a generator vars hf => exact .configure hb a generator vars
  | install hb a vars hf => exact .install hb a vars

/-! ### Which stage a command serves -/

theorem installCommand_args (b : Build) (a : Arch) (vars : Variables) :
    (b.installCommand a vars).args.head? = some (Utf8.encode "--build") := rfl

theorem configureCommand_args (b : Build) (a : Arch) (generator : String) (vars : Variables) :
    (b.configureCommand a generator vars).args.head? = some b.root.sources.bytes := rfl

theorem configureCommand_dir (b : Build) (a : Arch) (generator : String) (vars : Variables) :
    (b.configureCommand a generator vars).dir = some (b.root.marker (.configure a)) := rfl

theorem installCommand_dir (b : Build) (a : Arch) (vars : Variables) :
    (b.installCommand a vars).dir = some (b.root.marker (.configure a)) := rfl

/-- The sources are never at the path `--build`. -/
theorem configureCommand_ne_installCommand (b b' : Build) (a a' : Arch) (generator : String)
    (vars vars' : Variables) :
    b.configureCommand a generator vars ≠ b'.installCommand a' vars' := by
  intro h
  have hargs := configureCommand_args b a generator vars
  rw [h, installCommand_args] at hargs
  have hlast := b.root.last_moves_marker .fetch
  rw [show b.root.marker .fetch = ⟨Utf8.encode "--build"⟩ from
    congrArg Path.mk (Option.some.inj hargs).symm] at hlast
  revert hlast
  decide

theorem Serves.of_configureCommand {b : Build} {a : Arch} {generator : String}
    {vars : Variables} (hb : b.root = r)
    (h : Serves r s (.spawn .shared (b.configureCommand a generator vars))) :
    s = .configure a := by
  generalize hc : Call.spawn .shared (b.configureCommand a generator vars) = c at h
  cases h with
  | send url => contradiction
  | move staging => contradiction
  | @configure b' hb' a' generator' vars' =>
      have hdir := congrArg Command.dir (Call.spawn.inj hc).2
      rw [configureCommand_dir, configureCommand_dir, hb, hb'] at hdir
      exact (eq_of_marker_eq (Option.some.inj hdir)).symm
  | install hb' a' vars' =>
      exact (configureCommand_ne_installCommand _ _ _ _ _ _ _ (Call.spawn.inj hc).2).elim

theorem Serves.of_installCommand {b : Build} {a : Arch} {vars : Variables} (hb : b.root = r)
    (h : Serves r s (.spawn .shared (b.installCommand a vars))) : s = .install a := by
  generalize hc : Call.spawn .shared (b.installCommand a vars) = c at h
  cases h with
  | send url => contradiction
  | move staging => contradiction
  | configure hb' a' generator' vars' =>
      exact (configureCommand_ne_installCommand _ _ _ _ _ _ _ (Call.spawn.inj hc).2.symm).elim
  | @install b' hb' a' vars' =>
      have hdir := congrArg Command.dir (Call.spawn.inj hc).2
      rw [installCommand_dir, installCommand_dir, hb, hb'] at hdir
      have heq := eq_of_marker_eq (Option.some.inj hdir)
      rw [Stage.configure.inj heq]

/-! ### Parts of a run -/

/-- What the calls `tr`, between the trees `t` and `t'`, have to do with the stages. -/
structure Progress (r : Root) (top : Location) (t : Tree) (tr : List Answered)
    (t' : Tree) : Prop where
  idle : ∀ s, Has top s t → ∀ x ∈ tr, ¬ Serves r s x.call
  has_iff : ∀ s, Has top s t' ↔ Has top s t ∨ ∃ x ∈ tr, Completes r s x
  once : ∀ s, tr.Pairwise fun x y => Completes r s x → ¬ Serves r s y.call

namespace Progress

theorem refl (r : Root) (top : Location) (t : Tree) : Progress r top t [] t where
  idle _ _ _ hx := absurd hx List.not_mem_nil
  has_iff s := by simp
  once _ := .nil

theorem trans (h : Progress r top t tr t') (h' : Progress r top t' tr' t'') :
    Progress r top t (tr ++ tr') t'' where
  idle s hs x hx := by
    rcases List.mem_append.mp hx with hx | hx
    · exact h.idle s hs x hx
    · exact h'.idle s ((h.has_iff s).mpr (.inl hs)) x hx
  has_iff s := by
    rw [h'.has_iff, h.has_iff, or_assoc]
    refine or_congr_right ?_
    simp only [List.mem_append]
    constructor
    · rintro (⟨x, hx, hc⟩ | ⟨x, hx, hc⟩)
      · exact ⟨x, .inl hx, hc⟩
      · exact ⟨x, .inr hx, hc⟩
    · rintro ⟨x, hx | hx, hc⟩
      · exact .inl ⟨x, hx, hc⟩
      · exact .inr ⟨x, hx, hc⟩
  once s := by
    refine List.pairwise_append.mpr ⟨h.once s, h'.once s, fun x hx y hy hc => ?_⟩
    exact h'.idle s ((h.has_iff s).mpr (.inr ⟨x, hx, hc⟩)) y hy

/-- A part that serves no stage. -/
theorem of_quiet (htr : ∀ x ∈ tr, ∀ s, ¬ Serves r s x.call)
    (h : SameStages top t t') : Progress r top t tr t' where
  idle s _ x hx := htr x hx s
  has_iff s := by
    rw [h]
    refine ⟨.inl, Or.rec id ?_⟩
    rintro ⟨x, hx, hc⟩
    exact absurd hc.serves (htr x hx s)
  once s := List.pairwise_of_forall_mem_list fun _ _ y hy _ => htr y hy s

/-- One call. -/
theorem of_call (hidle : ∀ s, Serves r s x.call → ¬ Has top s t)
    (h : ∀ s, Has top s t' ↔ Has top s t ∨ Completes r s x) : Progress r top t [x] t' where
  idle s hs y hy hserves := by
    rw [List.mem_singleton.mp hy] at hserves
    exact hidle s hserves hs
  has_iff s := by
    rw [h]
    simp
  once _ := List.pairwise_singleton ..

/-- Call by call. -/
theorem of_throughout {C : World σ → Call → Prop} {Q : α → World σ → Prop} {p : Program α}
    (h : p.Throughout o C Q w)
    (hC : ∀ w c, C w c →
      Progress r top w.tree [⟨c, (w.perform o c).1⟩] (w.perform o c).2.tree) :
    p.Traced o (fun a tr w' => Progress r top w.tree tr w'.tree ∧ Q a w') w := by
  induction p generalizing w with
  | done a => exact ⟨.refl .., h⟩
  | call c next ih =>
      obtain ⟨hp, hQ⟩ := ih _ h.2
      exact ⟨(hC w c h.1).trans hp, hQ⟩

/-- A part in which just one call `x` serves a stage, and this only the stage `s`. -/
theorem of_single (hbefore : ∀ y ∈ tr, ∀ s, ¬ Serves r s y.call)
    (hafter : ∀ y ∈ tr', ∀ s, ¬ Serves r s y.call) (hx : ∀ s', Serves r s' x.call → s' = s)
    (hs : ¬ Has top s t) (hothers : ∀ s', s' ≠ s → (Has top s' t' ↔ Has top s' t))
    (hdone : Has top s t' ↔ Completes r s x) : Progress r top t (tr ++ x :: tr') t' := by
  -- The directory of `s` may come and go in between, so the parts are not taken one by one.
  have hserves : ∀ s' y, y ∈ tr ++ x :: tr' → Serves r s' y.call → s' = s ∧ y = x := by
    intro s' y hy hserves
    rcases List.mem_append.mp hy with hy | hy
    · exact absurd hserves (hbefore y hy s')
    · rcases List.mem_cons.mp hy with rfl | hy
      · exact ⟨hx s' hserves, rfl⟩
      · exact absurd hserves (hafter y hy s')
  refine ⟨fun s' hs' y hy hc => ?_, fun s' => ?_, fun s' => ?_⟩
  · obtain ⟨rfl, -⟩ := hserves s' y hy hc
    exact hs hs'
  · by_cases heq : s' = s
    · subst heq
      rw [hdone]
      constructor
      · exact fun hc => .inr ⟨x, by simp, hc⟩
      · rintro (hs' | ⟨y, hy, hc⟩)
        · exact absurd hs' hs
        · rwa [← (hserves s' y hy hc.serves).2]
    · rw [hothers s' heq]
      refine ⟨.inl, Or.rec id ?_⟩
      rintro ⟨y, hy, hc⟩
      exact absurd (hserves s' y hy hc.serves).1 heq
  · refine List.pairwise_append.mpr ⟨?_, List.pairwise_cons.mpr ⟨?_, ?_⟩, ?_⟩
    · exact List.pairwise_of_forall_mem_list fun y hy _ _ hc =>
        absurd hc.serves (hbefore y hy s')
    · exact fun y hy _ => hafter y hy s'
    · exact List.pairwise_of_forall_mem_list fun _ _ y hy _ => hafter y hy s'
    · exact fun y hy _ _ hc => absurd hc.serves (hbefore y hy s')

end Progress

end Root

end LlvmBootstrap
