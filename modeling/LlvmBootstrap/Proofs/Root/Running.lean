import LlvmBootstrap.Bootstrap
import LlvmBootstrap.Proofs.Root.Fetching

/-!
A whole run on a root. It begins by making the root; what is behind that advances a tidy root,
whatever becomes of the run.
-/

namespace LlvmBootstrap

open LlvmBootstrap.Tree Program

def Bootstrap.build (b : Bootstrap) : Build :=
  ⟨b.root, b.root.record, b.host, b.settings.cmake.program⟩

/-! ### What is behind making the root -/

def RootLock.take (r : Root) (command : String) (a : Arch) : Attempt LockError RootLock := do
  match ← make (.openFile r.lock) with
  | .error e => throw (.failed "open" r.lock e)
  | .ok h =>
    match ← make (.tryLock h) with
    | .ok true => keep r h ⟨← make .processId, command, a, ← make .clock⟩
    | .ok false =>
      let holder ← otherHolder r
      make (.close h)
      throw (.busy r holder (← make .clock))
    | .error e =>
      make (.close h)
      throw (.failed "lock" r.lock e)

theorem RootLock.acquire_eq (r : Root) (command : String) (a : Arch) :
    acquire r command a =
      (makeDirs r.path).adapt (.failed "create" r.path) >>= fun _ => take r command a := rfl

theorem Bootstrap.start_holding {ε α : Type} (l : RootLock) (x : Work ε α) (t : Toolchain) :
    (holding l x).start t = x.start t >>= fun res => l.release >>= fun _ => pure res := by
  change StateT.run (x.run >>= fun r => StateT.lift l.release >>= fun _ => pure r) t = _
  rw [StateT.run_bind]
  rfl

def Bootstrap.building (v : Bootstrap) (a : Arch) : Work BootstrapError Path := do
  let install ← (v.build.run a).adapt .build
  make (.log .info "LLVM ready")
  return install

section

variable {σ : Type} {o : Outside σ} {v : Bootstrap} {w w' : World σ}

theorem Bootstrap.steps_eq (v : Bootstrap) (a : Arch) : v.steps a =
    Work.ofAttempt ((Sources.fetch v.settings.archive v.root v.root.record).adapt .fetch) >>=
      fun _ => v.building a := rfl

theorem Bootstrap.run_steps_of_fetched {x : Sources.Fetched}
    (h : (Sources.fetch v.settings.archive v.root v.root.record).run.run o w = (.ok x, w'))
    (a : Arch) (t : Toolchain) :
    ((v.steps a).start t).run o w = ((v.building a).start t).run o w' := by
  rw [steps_eq, Work.start_ofAttempt_bind, run_bind, run_adapt, run_bind, h]
  rfl

theorem Bootstrap.run_steps_of_unfetched {e : SourceError}
    (h : (Sources.fetch v.settings.archive v.root v.root.record).run.run o w = (.error e, w'))
    (a : Arch) (t : Toolchain) :
    ((v.steps a).start t).run o w = ((.error (.fetch e), t), w') := by
  rw [steps_eq, Work.start_ofAttempt_bind, run_bind, run_adapt, run_bind, h]
  rfl

end

def Bootstrap.prepareThere (b : Bootstrap) (a : Arch) (command : String) (t : Toolchain) :
    Program (Except BootstrapError Path × Toolchain) :=
  (RootLock.take b.root command a).run >>= fun
    | .ok l => (holding l (b.steps a)).start t
    | .error e => pure (.error (.lock e), t)

theorem Bootstrap.start_prepare (b : Bootstrap) (a : Arch) (command : String) (t : Toolchain) :
    (b.prepare a command).start t = (makeDirs b.root.path).run >>= fun
      | .ok () => b.prepareThere a command t
      | .error e => pure (.error (.lock (.failed "create" b.root.path e)), t) := by
  rw [prepare, Work.start_ofAttempt_bind, run_adapt, RootLock.acquire_eq,
    ExceptT.run_bind, run_adapt, LawfulMonad.bind_assoc, LawfulMonad.bind_assoc,
    LawfulMonad.bind_assoc]
  congr 1
  funext res
  cases res with
  | error e => rfl
  | ok u =>
      refine congrArg ((RootLock.take b.root command a).run >>= ·) (funext fun res => ?_)
      cases res <;> rfl

namespace Root

variable {σ ε α : Type} {r : Root} {m w : World σ} {top : Location} {o : Outside σ} {b : Build}
  {a : Arch} {t : Toolchain}

/-! ### The lock -/

theorem throughout_replaceContent {C : World σ → Call → Prop} (h : Handle) (content : Bytes)
    (hC : ∀ w c, c = .truncate h ∨ c = .rewind h ∨ c = .write h content → C w c) :
    (RootLock.replaceContent h content).run.Throughout o C (fun _ _ => True) w := by
  refine Throughout.attempt_bind (P := fun _ _ => True) ⟨hC _ _ (.inl rfl), trivial⟩ ?_
    fun _ _ _ => trivial
  intro _ w₁ _
  refine Throughout.attempt_bind (P := fun _ _ => True) ⟨hC _ _ (.inr (.inl rfl)), trivial⟩ ?_
    fun _ _ _ => trivial
  intro _ w₂ _
  exact ⟨hC _ _ (.inr (.inr rfl)), trivial⟩

theorem advances_keep (hw : Tidy r m top w) (h : Handle) (record : Holder) :
    Advances r m top o (fun _ _ => True) (RootLock.keep r h record).run w := by
  have hwrite : (RootLock.replaceContent h record.toBytes).run.Throughout o
      (fun _ c => c.IsPassive) (fun _ _ => True) w := by
    refine throughout_replaceContent h record.toBytes ?_
    rintro _ c (rfl | rfl | rfl) <;> exact trivial
  rw [RootLock.keep]
  refine Advances.attempt_lift_bind (.of_passive hw hwrite) fun res w₁ hw₁ _ => ?_
  rcases res with e | ⟨⟩
  · exact Advances.attempt_passive_bind hw₁ trivial fun hw₂ _ => .done hw₂ trivial
  · exact .done hw₁ trivial

theorem advances_take (hb : Bare r m top) (hw : Tidy r m top w) (command : String) (a : Arch) :
    Advances r m top o (fun _ _ => True) (RootLock.take r command a).run w := by
  obtain ⟨hw', hsame⟩ := tidy_openLock (o := o) hb hw
  rw [RootLock.take]
  refine Advances.attempt_call_bind hsame (fun s => nofun) ?_
  rcases (w.perform o (.openFile r.lock)).1 with e | h
  · exact .done hw' trivial
  · refine Advances.attempt_passive_bind hw' trivial fun hw₁ _ => ?_
    rcases (World.perform o _ (.tryLock h)).1 with e | _ | _
    · exact Advances.attempt_passive_bind hw₁ trivial fun hw₂ _ => .done hw₂ trivial
    · have hother : ∀ w : World σ, (RootLock.otherHolder r).Throughout o
          (fun _ c => c.IsPassive) (fun _ _ => True) w := by
        intro w
        refine Throughout.call_bind_iff.mpr ⟨trivial, ?_⟩
        split <;> exact trivial
      refine Advances.attempt_lift_bind (.of_passive hw₁ (hother _)) fun holder _ hw₂ _ => ?_
      refine Advances.attempt_passive_bind hw₂ trivial fun hw₃ _ => ?_
      refine Advances.attempt_passive_bind hw₃ trivial fun hw₄ _ => ?_
      exact .done hw₄ trivial
    · refine Advances.attempt_passive_bind hw₁ trivial fun hw₂ _ => ?_
      refine Advances.attempt_passive_bind hw₂ trivial fun hw₃ _ => ?_
      exact advances_keep hw₃ ..

/-- Whatever is done while the lock is held, giving it back changes nothing. -/
theorem advances_holding {x : Work ε α} {Q : Except ε α × Toolchain → World σ → Prop}
    (h : Advances r m top o Q (x.start t) w) (l : RootLock) :
    Advances r m top o (fun _ _ => True) ((Bootstrap.holding l x).start t) w := by
  rw [Bootstrap.start_holding]
  refine h.bind fun res w' hw' _ => ?_
  refine Advances.passive_bind hw' trivial fun hw'' _ => ?_
  exact .done hw'' trivial

/-! ### The steps -/

theorem advances_run (hb : Bare r m top) (hbuild : o.Suits r b a) (hw : Tidy r m top w)
    (hfetched : Has top .fetch w.tree) (t : Toolchain) :
    Advances r m top o (fun _ _ => True) ((b.run a).start t) w := by
  rw [Build.run]
  refine Advances.work_bind (advances_configure hb hbuild hw hfetched t)
    ?_ fun _ _ _ _ _ => trivial
  intro out t₁ w₁ hw₁ hbuilt
  refine Advances.work_bind (advances_install hb hbuild hw₁ (hbuilt out rfl) t₁) ?_
    fun _ _ _ _ _ => trivial
  intro out' t₂ w₂ hw₂ _
  exact .done hw₂ trivial

variable {v : Bootstrap}

theorem advances_steps (hb : Bare r m top) (hroot : v.root = r) (hbuild : o.Suits r v.build a)
    (hd : o.DrawsPlain) (hw : Tidy r m top w) (t : Toolchain) :
    Advances r m top o (fun _ _ => True) ((v.steps a).start t) w := by
  subst hroot
  rw [Bootstrap.steps]
  have hfetch := advances_fetch hb hw hd v.settings.archive
  refine Advances.ofAttempt_bind (P := fun res w' => ∀ f, res = .ok f → Has top .fetch w'.tree)
    (.adapt (hfetch.post ?_)) ?_ fun _ _ _ _ => trivial
  · rintro (e | f) w' - hfetched
    · exact fun _ => nofun
    · exact fun _ _ => hfetched f rfl
  · intro f w₁ hw₁ hfetched
    have hrun := advances_run hb hbuild hw₁ (hfetched f rfl) t
    refine Advances.work_bind (P := fun _ _ => True) (.work_adapt hrun)
      ?_ fun _ _ _ _ _ => trivial
    intro install t₂ w₂ hw₂ _
    refine Advances.work_passive_bind hw₂ trivial fun hw₃ _ => ?_
    exact .done hw₃ trivial

theorem advances_prepareThere (hb : Bare r m top) (hroot : v.root = r)
    (hbuild : o.Suits r v.build a) (hd : o.DrawsPlain) (hw : Tidy r m top w) (command : String)
    (t : Toolchain) :
    Advances r m top o (fun _ _ => True) (v.prepareThere a command t) w := by
  rw [Bootstrap.prepareThere, hroot]
  refine (advances_take hb hw command a).bind ?_
  rintro (e | l) w₁ hw₁ -
  · exact .done hw₁ trivial
  · exact advances_holding (advances_steps hb hroot hbuild hd hw₁ t) l

/-! ### The build tool of the project -/

/-- The toolchain changes the variables of a command, not where it is run. -/
theorem advances_withToolchain (hb : Bare r m top) (hbuild : o.Suits r b a)
    (hw : Tidy r m top w) (d : Downstream) (hasks : d.host.OnlyAsks) (act : Action)
    (cmd : Command) (t : Toolchain) :
    Advances r m top o (fun res _ => ∀ cmd', res.1 = .ok cmd' → cmd'.dir = cmd.dir)
      ((d.withToolchain act cmd).start t) w := by
  rw [Downstream.withToolchain]
  split
  · have henv := advances_environment hb hbuild hw hasks t
    refine Advances.work_bind henv ?_ fun _ _ _ _ _ => nofun
    intro vars t' w' hw' _
    refine .done hw' ?_
    rintro cmd' ⟨⟩
    rfl
  · refine .done hw ?_
    rintro cmd' ⟨⟩
    rfl

theorem advances_invoke (hb : Bare r m top) (hbuild : o.Suits r b a) (hw : Tidy r m top w)
    (d : Downstream) (hasks : d.host.OnlyAsks) (q : Request) (install : Path) (t : Toolchain) :
    Advances r m top o (fun _ _ => True) ((d.invoke q install).start t) w := by
  rw [Downstream.invoke]
  cases hcmd : d.command q install with
  | error e => exact .done hw trivial
  | ok cmd =>
      have hnone : cmd.dir = none := by
        obtain ⟨args, -, rfl⟩ := Downstream.command_eq_ok_iff.mp hcmd
        rfl
      have htool := advances_withToolchain hb hbuild hw d hasks q.action cmd t
      refine Advances.work_bind (P := fun res _ => ∀ cmd', res.1 = .ok cmd' → cmd'.dir = none)
        (.work_adapt (htool.post ?_)) ?_ fun _ _ _ _ _ => trivial
      · rintro ⟨e | cmd', t'⟩ w' - hdir
        · exact fun _ => nofun
        · rintro _ ⟨⟩
          exact (hdir cmd' rfl).trans hnone
      · intro cmd' t₁ w₁ hw₁ hdir
        refine Advances.work_passive_bind hw₁ trivial fun hw₂ _ => ?_
        refine Advances.work_spawn_bind hb hbuild hw₂
          (.inr (hdir cmd' rfl)) fun answer w₃ hw₃ _ => ?_
        rcases answer with e | f
        · exact .done hw₃ trivial
        · dsimp only
          split
          · exact .done hw₃ trivial
          · exact .done hw₃ trivial

end Root

end LlvmBootstrap
