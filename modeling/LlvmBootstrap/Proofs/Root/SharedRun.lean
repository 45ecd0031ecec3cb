import LlvmBootstrap.Proofs.Root.SharedBuild

/-!
A whole run on a root that it shares with others. It takes the lock or is refused; what it
changes it changes while it has the lock, and whatever comes of it, it has given the lock back
in the end.
-/

namespace LlvmBootstrap

open LlvmBootstrap.Tree Program

namespace RootLock

def holderOf : Except Errno Bytes → Option Holder
  | .ok content => Holder.ofBytes? content
  | .error _ => none

theorem otherHolder_eq (r : Root) :
    otherHolder r = ask (.read r.lock) >>= fun answer => pure (holderOf answer) := by
  refine congrArg (ask (.read r.lock) >>= ·) (funext fun answer => ?_)
  cases answer <;> rfl

end RootLock

/-- Whatever is asked for the project, no command is run in a build tree. -/
theorem Downstream.invoke_onlyUnlocked {d : Downstream} (r : Root)
    (hasks : d.host.OnlyAsks) (q : Request) (install : Path) (t : Toolchain) :
    ((d.invoke q install).start t).Only (Root.Unlocked r) := by
  have hended : ∀ (f : Finished) (line : String) (t : Toolchain),
      ((if f.status.isSuccess then return ()
      else throw (.failed line f.status) : Work InvokeError Unit).start t).Only
          (Root.Unlocked r) := by
    intro f line t
    split <;> exact trivial
  rw [Downstream.invoke]
  cases hcmd : d.command q install with
  | error e => exact trivial
  | ok cmd =>
      obtain ⟨args, -, rfl⟩ := Downstream.command_eq_ok_iff.mp hcmd
      simp only [Downstream.withToolchain]
      rw [Work.start_bind, Work.start_adapt, LawfulMonad.bind_assoc]
      split
      · rw [Work.start_bind, LawfulMonad.bind_assoc]
        refine ((Work.environment_onlyAsks hasks t).mono fun _ hc => .free
          (Root.free_of_asks hc)).bind ?_
        rintro ⟨e | vars, t'⟩
        · exact trivial
        · refine ⟨.free (.idle trivial), fun _ => ⟨.tool rfl, ?_⟩⟩
          rintro (e | f)
          · exact trivial
          · exact hended f _ t'
      · refine ⟨.free (.idle trivial), fun _ => ⟨.tool rfl, ?_⟩⟩
        rintro (e | f)
        · exact trivial
        · exact hended f _ t

namespace Root

variable {σ α : Type} {o : Outside σ} {r : Root} {past more : List Answered}
  {w w' w₀ : World σ} {h : Handle} {top : Location} {id : FileId} {v : Bootstrap} {a : Arch}
  {t : Toolchain} {c : Call}

/-! ### What a run comes to -/

/-- The run was refused the lock, and has then read in the lock file who has it. -/
def Refused (r : Root) (past : List Answered) (holder : Option Holder) : Prop :=
  ∃ before after h answer, holder = RootLock.holderOf answer ∧
    past = before ++ ⟨.tryLock h, .ok false⟩ :: ⟨.read r.lock, answer⟩ :: after

/-- What is to be said of a run that has come to `res`. -/
structure Finished (r : Root) (res : Except BootstrapError α)
    (past : List Answered) : Prop where
  released : Released r past
  refused : ∀ r' holder now, res = .error (.lock (.busy r' holder now)) → Refused r past holder

theorem HasOpened.append (ho : HasOpened r past) (more : List Answered) :
    HasOpened r (past ++ more) := by
  obtain ⟨h, hopened⟩ := ho
  exact ⟨h, List.mem_append_left _ hopened⟩

theorem Released.append (hr : Released r past) (hmore : ∀ x ∈ more, Unlocked r x.call) :
    Released r (past ++ more) := by
  rintro h ⟨hopened, hopen⟩
  refine hr h ⟨?_, fun hmem => hopen (List.mem_append_left _ hmem)⟩
  rcases List.mem_append.mp hopened with hmem | hmem
  · exact hmem
  · exact absurd rfl ((hmore _ hmem).ne_openFile r.lock)

/-- The lock file has been opened but once and is closed. -/
theorem released_of_close (honce : ∀ h', ⟨.openFile r.lock, .ok h'⟩ ∈ past → h' = h)
    (hclose : ⟨.close h, ()⟩ ∈ more) (hno : ∀ x ∈ more, x.call ≠ .openFile r.lock) :
    Released r (past ++ more) := by
  rintro h' ⟨hopened, hopen⟩
  rcases List.mem_append.mp hopened with hmem | hmem
  · obtain rfl := honce h' hmem
    exact hopen (List.mem_append_right _ hclose)
  · exact absurd rfl (hno _ hmem)

/-! ### Taking the lock -/

structure Opened (r : Root) (top : Location) (id : FileId) (h : Handle) (past : List Answered)
    (w : World σ) : Prop where
  lockAt : LockAt r w.cwd top id w.tree
  owns : Owns r past h
  once : ∀ h', ⟨.openFile r.lock, .ok h'⟩ ∈ past → h' = h
  unwritten : Unwritten past h

namespace Opened

theorem working (hw : Opened r top id h past w) (hl : ⟨.tryLock h, .ok true⟩ ∈ past) :
    Working r top id h past w :=
  ⟨hw.lockAt, ⟨hw.owns, hl⟩, hw.once⟩

theorem meanwhile (hw : Opened r top id h past w) (hm : Meanwhile o r past w w') :
    Opened r top id h past w' :=
  ⟨hm.cwd ▸ hw.lockAt.next (hm.leaves top id hw.lockAt), hw.owns, hw.once, hw.unwritten⟩

/-- A turn of the run itself. -/
theorem turn {answer : c.Answer} (hw : Opened r top id h past w) (ho : SparesLock o r)
    (hc : Obeys r past w c) (hopen : c ≠ .openFile r.lock) (hclose : c ≠ .close h)
    (hwrite : ∀ bytes, c ≠ .write h bytes) (hp : w.Performs o c answer w') :
    Opened r top id h (past ++ [⟨c, answer⟩]) w' := by
  refine ⟨?_, hw.owns.concat hclose, fun h' hmem => ?_, hw.unwritten.concat hwrite⟩
  · rw [hp.cwd]
    exact hw.lockAt.next (hc.leaves ho hw.lockAt hp)
  · rcases List.mem_append.mp hmem with hmem | hmem
    · exact hw.once h' hmem
    · exact absurd (congrArg Answered.call (List.mem_singleton.mp hmem)).symm hopen

end Opened

/-- Calls by which the lock file is written. -/
theorem Opened.amid_replaceContent (hw : Opened r top id h past w) (ho : SparesLock o r)
    (hl : ⟨.tryLock h, .ok true⟩ ∈ past) (record : Holder) :
    (RootLock.replaceContent h record.toBytes).run.Amid o (Meanwhile o r) (Obeys r)
      (fun _ past' w' => Working r top id h past' w') past w := by
  rw [RootLock.replaceContent]
  refine Amid.attempt_bind (P := fun res past' w' => Opened r top id h past' w' ∧
    ⟨.tryLock h, .ok true⟩ ∈ past' ∧ (res = .ok () → ⟨.truncate h, .ok ()⟩ ∈ past')) ?_ ?_
    fun e past' w' hend => hend.1.working hend.2.1
  · intro w₁ hm
    have hw₁ := hw.meanwhile hm
    have hc : Obeys r past w₁ (.truncate h) := .truncate ⟨hw.owns, hl⟩ hw.unwritten
    refine ⟨hc, fun answer w₂ hp =>
      ⟨hw₁.turn ho hc nofun nofun nofun hp, List.mem_append_left _ hl, ?_⟩⟩
    rintro rfl
    exact List.mem_append_right _ (List.mem_singleton.mpr rfl)
  · rintro ⟨⟩ past₁ w₁ ⟨hw₁, hl₁, hempty⟩
    refine Amid.attempt_bind (P := fun _ past' w' => Opened r top id h past' w' ∧
      ⟨.tryLock h, .ok true⟩ ∈ past' ∧ ⟨.truncate h, .ok ()⟩ ∈ past') ?_ ?_
      fun e past' w' hend => hend.1.working hend.2.1
    · intro w₂ hm
      have hw₂ := hw₁.meanwhile hm
      have hc : Obeys r past₁ w₂ (.rewind h) := .rewind ⟨hw₁.owns, hl₁⟩ hw₁.unwritten
      exact ⟨hc, fun answer w₃ hp => ⟨hw₂.turn ho hc nofun nofun nofun hp,
        List.mem_append_left _ hl₁, List.mem_append_left _ (hempty rfl)⟩⟩
    · rintro ⟨⟩ past₂ w₂ ⟨hw₂, hl₂, hempty₂⟩ w₃ hm
      have hw₃ := hw₂.meanwhile hm
      have hc : Obeys r past₂ w₃ (.write h record.toBytes) :=
        .write record ⟨hw₂.owns, hl₂⟩ hw₂.unwritten hempty₂
      refine ⟨hc, fun answer w₄ hp => ?_⟩
      exact ((hw₃.working hl₂).since.turn ho hc nofun nofun hp).toWorking

def Taken (r : Root) : Except LockError RootLock → List Answered → World σ → Prop
  | .ok l, past, w => ∃ top id, Working r top id l.handle past w
  | .error e, past, _ => Released r past ∧ ∀ r' holder now, e = .busy r' holder now →
    Refused r past holder

theorem Opened.amid_keep (hw : Opened r top id h past w) (ho : SparesLock o r)
    (hl : ⟨.tryLock h, .ok true⟩ ∈ past) (record : Holder) :
    (RootLock.keep r h record).run.Amid o (Meanwhile o r) (Obeys r) (Taken r) past w := by
  rw [RootLock.keep]
  refine Amid.attempt_lift_bind (hw.amid_replaceContent ho hl record) ?_
  rintro (e | ⟨⟩) past₁ w₁ hw₁
  · refine Amid.attempt_call_bind not_false fun w₂ hm => ⟨.close hw₁.holds.toOwns, ?_, by simp⟩
    exact released_of_close hw₁.once (List.mem_singleton.mpr rfl) (by simp)
  · exact ⟨top, id, hw₁⟩

/-- Whatever the lock file was before, it is there once it is open. -/
theorem Sound.lockAt {mode : Mode} {t' : Tree} (hw : r.Sound w)
    (hok : w.tree.openFile w.cwd r.lock mode = .ok (id, t')) :
    ∃ top, LockAt r w.cwd top id t' := by
  rcases hw with hfresh | ⟨top, id', hl⟩
  · exact hfresh.openFile hok
  · obtain ⟨rfl, rfl⟩ := hl.openFile hok
    exact ⟨top, hl⟩

/-- The run has done no more than to make the root. -/
def Early (r : Root) (past : List Answered) : Prop :=
  ∀ x ∈ past, Making (r.path :: ancestors r.path) x.call

theorem Early.not_mem {c : Call} {answer : c.Answer} (he : Early r past)
    (hc : ¬ Making (r.path :: ancestors r.path) c) : ⟨c, answer⟩ ∉ past :=
  fun hmem => hc (he _ hmem)

theorem Early.not_hasOpened (he : Early r past) : ¬ HasOpened r past := by
  rintro ⟨h, hopened⟩
  exact he.not_mem (by nofun) hopened

theorem Early.opened (he : Early r past) (hl : LockAt r w.cwd top id w.tree) (h : Handle) :
    Opened r top id h (past ++ [⟨.openFile r.lock, .ok h⟩]) w := by
  have hlast : ∀ {c : Call} {answer : c.Answer}, ¬ Making (r.path :: ancestors r.path) c →
      ⟨c, answer⟩ ∈ past ++ [⟨.openFile r.lock, .ok h⟩] →
        (⟨c, answer⟩ : Answered) = ⟨.openFile r.lock, .ok h⟩ := by
    intro c answer hc hmem
    rcases List.mem_append.mp hmem with hmem | hmem
    · exact absurd hmem (he.not_mem hc)
    · exact List.mem_singleton.mp hmem
  refine ⟨hl, ⟨List.mem_append_right _ (List.mem_singleton.mpr rfl), fun hmem => ?_⟩,
    fun h' hmem => ?_, fun bytes answer hmem => ?_⟩
  · exact nomatch congrArg Answered.call (hlast (by nofun) hmem)
  · cases hlast (by nofun) hmem
    rfl
  · exact nomatch congrArg Answered.call (hlast (by nofun) hmem)

theorem Early.released {answer : c.Answer} (he : Early r past)
    (hx : ∀ h, (⟨c, answer⟩ : Answered) ≠ ⟨.openFile r.lock, .ok h⟩) :
    Released r (past ++ [⟨c, answer⟩]) := by
  rintro h ⟨hopened, -⟩
  rcases List.mem_append.mp hopened with hmem | hmem
  · exact he.not_mem (by nofun) hmem
  · exact hx h (List.mem_singleton.mp hmem).symm

theorem Opened.idle (hw : Opened r top id h past w) (ho : SparesLock o r) (hc : c.IsIdle)
    (hm : Meanwhile o r past w w') :
    Opened r top id h (past ++ [⟨c, (w'.perform o c).1⟩]) (w'.perform o c).2 := by
  have hobeys : Obeys r past w' c := .idle hc
  refine (hw.meanwhile hm).turn ho hobeys ?_ ?_ ?_ (.done _)
  · rintro rfl
    exact hc
  · rintro rfl
    exact hc
  · rintro bytes rfl
    exact hc

/-- What is behind opening the lock file. -/
theorem Opened.amid_tryLock (hw : Opened r top id h past w) (ho : SparesLock o r)
    (command : String) (a : Arch) :
    (do
      match ← make (.tryLock h) with
      | .ok true => RootLock.keep r h ⟨← make .processId, command, a, ← make .clock⟩
      | .ok false =>
        let holder ← RootLock.otherHolder r
        make (.close h)
        throw (.busy r holder (← make .clock))
      | .error e =>
        make (.close h)
        throw (.failed "lock" r.lock e) : Attempt LockError RootLock).run.Amid o
          (Meanwhile o r)
      (Obeys r) (Taken r) past w := by
  intro w₁ hm
  have hw₁ := hw.meanwhile hm
  have hc : Obeys r past w₁ (.tryLock h) := .tryLock hw.owns
  refine ⟨hc, fun answer w₂ hp => ?_⟩
  have hw₂ := hw₁.turn ho hc nofun nofun nofun hp
  -- Failed, refused, granted. Refused, the record of the other is
  -- read before the handle is closed.
  rcases answer with e | _ | _
  · refine Amid.attempt_call_bind not_false fun w₃ hm₃ => ⟨.close hw₂.owns, ?_, nofun⟩
    exact released_of_close hw₂.once (List.mem_singleton.mpr rfl) (by simp)
  · rw [RootLock.otherHolder_eq]
    refine Amid.attempt_lift_bind (P := fun holder past' w' => Opened r top id h past' w' ∧
      ∃ answer, holder = RootLock.holderOf answer ∧
        past' = past ++ ⟨.tryLock h, .ok false⟩ :: [⟨.read r.lock, answer⟩]) ?_ ?_
    · refine Amid.call_bind (c := .read r.lock) not_false fun w₃ hm₃ => ⟨.idle trivial, ?_⟩
      exact ⟨hw₂.idle ho trivial hm₃, _, rfl, List.append_assoc ..⟩
    · rintro holder past₃ w₃ ⟨hw₃, answer, rfl, rfl⟩
      refine Amid.attempt_call_bind not_false fun w₄ hm₄ => ⟨.close hw₃.owns, ?_⟩
      refine Amid.attempt_call_bind not_false fun w₅ hm₅ => ⟨.idle trivial, ?_, ?_⟩
      · rw [List.append_assoc]
        exact released_of_close hw₃.once (List.mem_cons_self ..) (by simp)
      · rintro _ _ _ ⟨⟩
        exact ⟨past, _, h, answer, rfl, (List.append_assoc ..).trans (List.append_assoc ..)⟩
  · refine Amid.attempt_call_bind not_false fun w₃ hm₃ => ⟨.idle trivial, ?_⟩
    have hw₃ := hw₂.idle (c := .processId) ho trivial hm₃
    refine Amid.attempt_call_bind not_false fun w₄ hm₄ => ⟨.idle trivial, ?_⟩
    have hw₄ := hw₃.idle (c := .clock) ho trivial hm₄
    exact hw₄.amid_keep ho (by simp) _

theorem Early.amid_take (he : Early r past) (ho : SparesLock o r)
    (command : String) (a : Arch) :
    (RootLock.take r command a).run.Amid o (Meanwhile o r) (Obeys r) (Taken r) past w := by
  rw [RootLock.take]
  refine Amid.attempt_call_bind not_false fun w₁ hm => ⟨.openFile he.not_hasOpened, ?_⟩
  rw [World.perform, World.openFile]
  cases hopen : w₁.tree.openFile w₁.cwd r.lock 0o666 with
  | error e => exact ⟨he.released (by rintro _ ⟨⟩), by simp⟩
  | ok opened =>
      obtain ⟨id, tree⟩ := opened
      obtain ⟨top, hl⟩ := hm.sound.lockAt hopen
      exact (he.opened hl w₁.nextHandle).amid_tryLock ho command a

theorem Early.amid_makeRoot (r : Root) (w : World σ) :
    (makeDirs r.path).run.Amid o (Meanwhile o r) (Obeys r)
      (fun _ past' _ => Early r past') [] w := by
  refine ((makeDirs_only r.path).amid fun more w' c _ hc => ?_).post ?_
  · cases hc with
    | look p => exact .idle trivial
    | mkdir hq => exact .way (isOnWay_of_mem hq)
  · rintro _ _ _ ⟨more, rfl, hmore⟩
    exact hmore

/-! ### While the lock is held -/

def IsOfSteps : Except BootstrapError α → Prop
  | .error (.lock _) => False
  | _ => True

theorem Since.amid_steps (hs : Since r top id h w₀ past w) (ho : SparesLock o r)
    (hd : o.DrawsPlain) (hroot : v.root = r) (hasks : v.host.OnlyAsks) (a : Arch)
    (t : Toolchain) :
    ((v.steps a).start t).Amid o (Meanwhile o r) (Obeys r)
      (fun res past' w' => Since r top id h w₀ past' w' ∧ IsOfSteps res.1) past w := by
  subst hroot
  rw [Bootstrap.steps]
  refine Amid.ofAttempt_bind (hs.amid_fetch ho hd v.settings.archive) ?_
    fun _ _ _ hs' => ⟨hs', trivial⟩
  intro _ past₁ w₁ hs₁
  refine Amid.work_adapt_bind (hs₁.amid_build ho rfl rfl hasks t)
    ?_ fun _ _ _ _ hs' => ⟨hs', trivial⟩
  intro install t₂ past₂ w₂ hs₂
  exact hs₂.amid_free (c := .log ..) ho (.idle trivial) fun _ _ _ hs' => ⟨hs', trivial⟩

/-- The run has come to an end, and has opened the lock file if it has succeeded. -/
def Ended (r : Root) (res : Except BootstrapError α) (past : List Answered) : Prop :=
  Finished r res past ∧ ((∃ a, res = .ok a) → HasOpened r past)

theorem Working.amid_holding (hw : Working r top id h past w) (ho : SparesLock o r)
    (hd : o.DrawsPlain) (hroot : v.root = r) (hasks : v.host.OnlyAsks) (a : Arch)
    (t : Toolchain) (p : Path) :
    ((Bootstrap.holding ⟨h, p⟩ (v.steps a)).start t).Amid o (Meanwhile o r) (Obeys r)
      (fun res past' _ => Ended r res.1 past') past w := by
  rw [Bootstrap.start_holding]
  refine (hw.since.amid_steps ho hd hroot hasks a t).bind ?_
  rintro ⟨res, t'⟩ past₁ w₁ ⟨hs₁, hres⟩
  refine Amid.call_bind (c := .close h) not_false fun w₂ hm =>
    ⟨.close hs₁.holds.toOwns, ⟨?_, ?_⟩, ?_⟩
  · exact released_of_close hs₁.once (List.mem_singleton.mpr rfl) (by simp)
  · rintro _ _ _ rfl
    exact hres.elim
  · exact fun _ => ⟨h, List.mem_append_left _ hs₁.holds.opened⟩

theorem amid_prepare (ho : SparesLock o r) (hd : o.DrawsPlain) (hroot : v.root = r)
    (hasks : v.host.OnlyAsks) (a : Arch) (command : String) (t : Toolchain) (w : World σ) :
    ((v.prepare a command).start t).Amid o (Meanwhile o r) (Obeys r)
      (fun res past' _ => Ended r res.1 past') [] w := by
  rw [Bootstrap.start_prepare, hroot]
  refine (Early.amid_makeRoot r w).bind ?_
  rintro (e | ⟨⟩) past₁ w₁ he
  · exact ⟨⟨fun h hh => he.not_mem (by rintro ⟨⟩) hh.opened, by simp⟩, by simp⟩
  · rw [Bootstrap.prepareThere, hroot]
    refine (he.amid_take ho command a).bind ?_
    rintro (e | l) past₂ w₂ htaken
    · refine ⟨⟨htaken.1, ?_⟩, by simp⟩
      rintro r' holder now ⟨⟩
      exact htaken.2 r' holder now rfl
    · obtain ⟨top, id, hw⟩ := htaken
      exact hw.amid_holding ho hd hroot hasks a t l.path

theorem amid_run (ho : SparesLock o r) (hd : o.DrawsPlain) (hroot : v.root = r)
    (hasks : v.host.OnlyAsks) (q : Request) (w : World σ) :
    (v.run q).Amid o (Meanwhile o r) (Obeys r)
      (fun res past' _ => Ended r res past') [] w := by
  rw [Bootstrap.run]
  refine Amid.bind (P := fun (res : Except BootstrapError Unit × Toolchain) past' _ =>
    Ended r res.1 past') ?_ fun _ _ _ hend => hend
  refine Amid.work_bind (amid_prepare ho hd hroot hasks q.arch q.action.subcommand _ w) ?_ ?_
  · intro install t₁ past₁ w₁ hend
    have hopen := hend.2 ⟨install, rfl⟩
    have hunlocked :=
      (v.downstream.invoke_onlyUnlocked r hasks q install t₁).amid (o := o) (w := w₁)
      (R := Meanwhile o r) (C := Obeys r) fun more w' c hmore hc =>
        .of_unlocked hc (hopen.append more) (hend.1.released.append hmore)
    rw [Work.start_adapt]
    refine hunlocked.bind ?_
    rintro ⟨res, t₂⟩ _ w₂ ⟨more, rfl, hmore⟩
    refine ⟨⟨hend.1.released.append hmore, ?_⟩, fun _ => ?_⟩
    · rintro r' holder now hres
      cases res <;> exact nomatch hres
    · exact hopen.append more
  · intro e t₁ past₁ w₁ hend
    refine ⟨⟨hend.1.released, ?_⟩, nofun⟩
    rintro r' holder now hres
    exact hend.1.refused r' holder now (by rw [Except.error.inj hres])

end Root

end LlvmBootstrap
