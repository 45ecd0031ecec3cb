import LlvmBootstrap.Build
import LlvmBootstrap.Proofs.Machine.Traced

/-!
The course of a part of a build. Both parts go the same way: a look at the record, what is to
be done before the command, the command, and after it the reset if the command has failed.
-/

namespace LlvmBootstrap

open Program

namespace Program

variable {σ α β : Type} {o : Outside σ} {p : Program α} {f : α → Program β}
  {w w' w'' : World σ} {a a' : α} {b : β} {tr tr' : List Answered}

def Goes (o : Outside σ) (p : Program α) (w : World σ) (a : α) (tr : List Answered)
    (w' : World σ) :
    Prop :=
  p.run o w = (a, w') ∧ p.trace o w = tr

namespace Goes

theorem run (o : Outside σ) (p : Program α) (w : World σ) :
    p.Goes o w (p.run o w).1 (p.trace o w) (p.run o w).2 :=
  ⟨rfl, rfl⟩

theorem at_end {C : World σ → Call → Prop} {Q : α → World σ → Prop} (h : p.Goes o w a tr w')
    (hp : p.Throughout o C Q w) : Q a w' := by
  have hend := hp.at_end
  rwa [h.1] at hend

theorem of_bind (h : (p >>= f).Goes o w b tr w'') :
    ∃ a w' tr₁ tr₂, p.Goes o w a tr₁ w' ∧ (f a).Goes o w' b tr₂ w'' ∧ tr = tr₁ ++ tr₂ := by
  obtain ⟨hrun, htrace⟩ := h
  rw [run_bind] at hrun
  rw [trace_bind] at htrace
  exact ⟨_, _, _, _, Goes.run o p w, ⟨hrun, rfl⟩, htrace.symm⟩

theorem of_pure (h : (pure a : Program α).Goes o w a' tr w') : a' = a ∧ tr = [] ∧ w' = w := by
  obtain ⟨rfl, rfl⟩ := Prod.mk.inj h.1
  exact ⟨rfl, h.2.symm, rfl⟩

theorem of_ask {c : Call} {answer : c.Answer} (h : (ask c).Goes o w answer tr w') :
    w.perform o c = (answer, w') ∧ tr = [⟨c, answer⟩] := by
  obtain ⟨hrun, htrace⟩ := h
  rw [run_ask] at hrun
  refine ⟨hrun, ?_⟩
  rw [← htrace, show answer = (w.perform o c).1 from (congrArg Prod.fst hrun).symm]
  rfl

end Goes

end Program

theorem Work.bind_eq {ε α β γ : Type} {x : Work ε α} {f : α → Work ε γ} {g : α → Work ε β}
    {h : β → Work ε γ} (hf : ∀ a, f a = g a >>= h) : x >>= f = (x >>= g) >>= h := by
  rw [LawfulMonad.bind_assoc]
  exact congrArg (x >>= ·) (funext hf)

namespace Build

inductive Part where
  | configure
  | install
  deriving DecidableEq

namespace Part

def stage (a : Arch) : Part → Stage
  | .configure => .configure a
  | .install => .install a

def work (b : Build) (a : Arch) : Part → Work BuildError StageOutcome
  | .configure => b.configure a
  | .install => b.install a

def already : Part → String
  | .configure => "already configured"
  | .install => "already installed"

/-- What is done before the command of a part; gives the command. -/
def ready (b : Build) (a : Arch) : Part → Work BuildError Command
  | .configure =>
    match b.host.generator a with
    | .error e => throw (.platform e)
    | .ok generator => do
      let vars ← (Work.environment b.host).adapt .platform
      make (.log .info "configuring LLVM")
      Work.ofAttempt ((makeDirs (b.root.build a)).adapt .failed)
      return b.configureCommand a generator vars
  | .install => do
    let vars ← (Work.environment b.host).adapt .platform
    make (.log .info "building and installing LLVM")
    return b.installCommand a vars

def check (b : Build) (a : Arch) : Part → Program Unit
  | .configure => return ()
  | .install => do
    match ← b.record.isComplete (.install a) with
    | true => return ()
    | false => make (.log .warn "install step succeeded but left no install directory")

variable {b : Build} {a : Arch} {p : Part}

theorem work_eq (b : Build) (a : Arch) (p : Part) : p.work b a = (do
    if ← b.record.isComplete (p.stage a) then
      make (.log .info p.already)
      return .skipped
    let cmd ← p.ready b a
    Work.ofAttempt (b.runStage (p.stage a) cmd)
    let _ ← (liftM (p.check b a) : Work BuildError Unit)
    return .ran) := by
  cases p with
  | configure =>
      rw [work, Build.configure]
      congr 1
      funext done
      cases done with
      | true => rfl
      | false =>
          simp only [ready, Bool.false_eq_true, if_false]
          cases b.host.generator a with
          | error e => rfl
          | ok generator =>
              exact Work.bind_eq fun vars => Work.bind_eq fun _ => Work.bind_eq fun _ => rfl
  | install =>
      rw [work, Build.install]
      congr 1
      funext done
      cases done with
      | true => rfl
      | false =>
          simp only [ready, Bool.false_eq_true, if_false]
          -- An install step has a check behind its command, a configure step has none.
          refine Work.bind_eq fun vars => Work.bind_eq fun _ => ?_
          rw [pure_bind]
          congr 1
          funext _
          rw [check, liftM_bind, LawfulMonad.bind_assoc]
          congr 1
          funext done
          cases done <;> rfl

def regret : Except Failure Unit → Program Unit
  | .ok () => return ()
  | .error _ =>
    make (.log .warn "could not remove the failed stage's output, delete it before retrying")

end Part

/-- The commands with which the build `b` does the stages of the architecture `a`. -/
inductive Does (b : Build) (a : Arch) : Stage → Command → Prop
  | configure (generator : String) (vars : Variables) :
      Does b a (.configure a) (b.configureCommand a generator vars)
  | install (vars : Variables) : Does b a (.install a) (b.installCommand a vars)

/-- What a command came to that was not started, was killed or ended
with another code than 0. -/
def Fails (answer : Except Failure Finished) : Prop :=
  ∀ f, answer = .ok f → f.status.code ≠ some 0

inductive IsFault (s : Stage) (cmd : Command) : Except Failure Finished → BuildError → Prop
  | ended (f : Finished) : IsFault s cmd (.ok f) (.stageFailed s cmd.line f.status)
  | spawn (cause : Failure) : IsFault s cmd (.error cause) (.spawn cmd.line cause)

theorem fails_of_failure? {s : Stage} {cmd : Command} {answer : Except Failure Finished}
    {e : BuildError} (h : failure? s cmd answer = some e) :
    Fails answer ∧ IsFault s cmd answer e := by
  cases answer with
  | error cause => exact ⟨nofun, Option.some.inj h ▸ .spawn cause⟩
  | ok f =>
      by_cases hf : f.status.isSuccess = true
      · simp [failure?, hf] at h
      · simp only [failure?, if_neg hf] at h
        obtain rfl := Option.some.inj h
        refine ⟨?_, .ended f⟩
        rintro _ ⟨⟩ hcode
        exact hf (decide_eq_true hcode)

theorem not_fails_of_failure? {s : Stage} {cmd : Command} {answer : Except Failure Finished}
    (h : failure? s cmd answer = none) : ¬ Fails answer := by
  cases answer with
  | error cause => contradiction
  | ok f =>
      by_cases hf : f.status.isSuccess = true
      · exact fun hfails => hfails f rfl (of_decide_eq_true hf)
      · simp [failure?, hf] at h

/-- The courses of a part from the world `w` on, each with what its command came to if it was
tried, what each of its resets came to, its result, its calls and the world in the end. -/
inductive Course {σ : Type} (o : Outside σ) (b : Build) (a : Arch) (p : Part) (t : Toolchain)
    (w : World σ) : Option (Command × Except Failure Finished) → List (Except Failure Unit) →
      Except BuildError StageOutcome → List Answered → World σ → Prop
  | skipped {look said : List Answered} {w₁ w₂ : World σ}
      (hlook : (b.record.isComplete (p.stage a)).Goes o w true look w₁)
      (hsaid : (ask (.log .info p.already)).Goes o w₁ () said w₂) :
      Course o b a p t w none [] (.ok .skipped) (look ++ said) w₂
  | stopped {look before : List Answered} {w₁ w₂ : World σ} {e : BuildError} {t' : Toolchain}
      (hlook : (b.record.isComplete (p.stage a)).Goes o w false look w₁)
      (hready : ((p.ready b a).start t).Goes o w₁ (.error e, t') before w₂) :
      Course o b a p t w none [] (.error e) (look ++ before) w₂
  | ran {look before rest : List Answered} {w₁ w₂ w₃ w₄ : World σ} {cmd : Command}
      {t' : Toolchain} {answer : Except Failure Finished}
      (hlook : (b.record.isComplete (p.stage a)).Goes o w false look w₁)
      (hready : ((p.ready b a).start t).Goes o w₁ (.ok cmd, t') before w₂)
      (hcommand : w₂.perform o (.spawn .shared cmd) = (answer, w₃)) (hdone : ¬ Fails answer)
      (hcheck : (p.check b a).Goes o w₃ () rest w₄) :
      Course o b a p t w (some (cmd, answer)) [] (.ok .ran)
        (look ++ (before ++ ⟨.spawn .shared cmd, answer⟩ :: rest)) w₄
  | reset {look before said undo rest : List Answered} {w₁ w₂ w₃ w₄ w₅ w₆ : World σ}
      {cmd : Command}
      {t' : Toolchain} {answer : Except Failure Finished} {e : BuildError}
      {r : Except Failure Unit}
      (hlook : (b.record.isComplete (p.stage a)).Goes o w false look w₁)
      (hready : ((p.ready b a).start t).Goes o w₁ (.ok cmd, t') before w₂)
      (hcommand : w₂.perform o (.spawn .shared cmd) = (answer, w₃)) (hfails : Fails answer)
      (hfault : IsFault (p.stage a) cmd answer e)
      (hsaid : (ask (.log .warn "stage failed, removing its output")).Goes o w₃ () said w₄)
      (hundo : (b.record.reset (p.stage a)).run.Goes o w₄ r undo w₅)
      (hregret : (Part.regret r).Goes o w₅ () rest w₆) :
      Course o b a p t w (some (cmd, answer)) [r] (.error e)
        (look ++ (before ++ ⟨.spawn .shared cmd, answer⟩ :: (said ++ (undo ++ rest)))) w₆

namespace Part

variable {σ : Type} {o : Outside σ} {b : Build} {a : Arch} {p : Part} {t : Toolchain}

theorem start_work (b : Build) (a : Arch) (p : Part) (t : Toolchain) : (p.work b a).start t =
    b.record.isComplete (p.stage a) >>= fun
      | true => ask (.log .info p.already) >>= fun _ => pure (.ok .skipped, t)
      | false => (p.ready b a).start t >>= fun
        | (.error e, t') => pure (.error e, t')
        | (.ok cmd, t') => (b.runStage (p.stage a) cmd).run >>= fun
          | .error e => pure (.error e, t')
          | .ok () => p.check b a >>= fun _ => pure (.ok .ran, t') := by
  rw [work_eq, Work.start_lift_bind]
  congr 1
  funext done
  cases done with
  | true => rfl
  | false =>
      simp only [Bool.false_eq_true, if_false]
      rw [Work.start_bind]
      congr 1
      funext ⟨res, t'⟩
      cases res with
      | error e => rfl
      | ok cmd =>
          dsimp only
          rw [Work.start_ofAttempt_bind]
          congr 1
          funext res
          cases res with
          | error e => rfl
          | ok u => exact Work.start_lift_bind ..

theorem run_runStage (b : Build) (s : Stage) (cmd : Command) : (b.runStage s cmd).run =
    ask (.spawn .shared cmd) >>= fun answer => match failure? s cmd answer with
      | none => pure (.ok ())
      | some e => ask (.log .warn "stage failed, removing its output") >>= fun _ =>
          (b.record.reset s).run >>= fun r => regret r >>= fun _ => pure (.error e) := by
  rw [runStage]
  refine congrArg (ask (.spawn .shared cmd) >>= ·) (funext fun answer => ?_)
  dsimp only [ExceptT.bindCont]
  cases failure? s cmd answer with
  | none => rfl
  | some e =>
      refine congrArg (ask (.log .warn "stage failed, removing its output") >>= ·)
        (funext fun _ => ?_)
      refine (ExceptT.run_bind_lift ..).trans
        (congrArg ((b.record.reset s).run >>= ·) (funext fun r => ?_))
      cases r <;> rfl

/-- A configure step whose command succeeds. -/
theorem run_configure {generator : String} {vars : Variables} {f : Finished} {t' : Toolchain}
    {w w₁ w₂ w₃ : World σ}
    (hlook : (b.record.isComplete (.configure a)).run o w = (false, w))
    (hgenerator : b.host.generator a = .ok generator)
    (henv : ((Work.environment b.host).start t).run o w = ((.ok vars, t'), w₁))
    (hmake : (makeDirs (b.root.build a)).run.run o
      (w₁.perform o (.log .info "configuring LLVM")).2 = (.ok (), w₂))
    (hspawn : w₂.perform o (.spawn .shared (b.configureCommand a generator vars)) =
      (.ok f, w₃))
    (hf : f.status.isSuccess = true) :
    ((b.configure a).start t).run o w = ((.ok .ran, t'), w₃) := by
  have hready : ((ready b a .configure).start t).run o w =
      ((.ok (b.configureCommand a generator vars), t'), w₂) := by
    simp only [ready, hgenerator]
    rw [Work.start_bind, run_bind, Work.start_adapt, run_bind, henv]
    refine (congrArg (Program.run o · w₁)
      (Work.start_lift_bind (ask (.log .info "configuring LLVM")) _)).trans ?_
    rw [run_bind, run_ask, Work.start_ofAttempt_bind, run_bind, run_adapt, run_bind, hmake]
    rfl
  have hlook' : (b.record.isComplete (stage a .configure)).run o w = (false, w) := hlook
  change ((work b a .configure).start t).run o w = _
  rw [start_work, run_bind, hlook']
  dsimp only
  rw [run_bind, hready]
  dsimp only
  rw [run_runStage, run_bind, run_bind, run_ask, hspawn]
  simp only [failure?, hf, if_true]
  rfl

/-- Each run of a part is one of its courses. -/
theorem course_of_goes {res : Except BuildError StageOutcome} {t' : Toolchain}
    {tr : List Answered} {w w' : World σ}
    (h : ((p.work b a).start t).Goes o w (res, t') tr w') :
    ∃ tried resets, Course o b a p t w tried resets res tr w' := by
  rw [start_work] at h
  obtain ⟨done, w₁, look, tr₁, hlook, h₁, rfl⟩ := h.of_bind
  cases done with
  | true =>
      obtain ⟨_, w₂, said, tr₂, hsaid, h₂, rfl⟩ := h₁.of_bind
      obtain ⟨heq, rfl, rfl⟩ := h₂.of_pure
      obtain ⟨rfl, -⟩ := Prod.mk.inj heq
      rw [List.append_nil]
      exact ⟨none, [], .skipped hlook hsaid⟩
  | false =>
      obtain ⟨⟨ready, t₁⟩, w₂, before, tr₂, hready, h₂, rfl⟩ := h₁.of_bind
      cases ready with
      | error e =>
          obtain ⟨heq, rfl, rfl⟩ := h₂.of_pure
          obtain ⟨rfl, -⟩ := Prod.mk.inj heq
          rw [List.append_nil]
          exact ⟨none, [], .stopped hlook hready⟩
      | ok cmd =>
          dsimp only at h₂
          rw [run_runStage, LawfulMonad.bind_assoc] at h₂
          obtain ⟨answer, w₃, call, tr₃, hcall, h₃, rfl⟩ := h₂.of_bind
          obtain ⟨hcommand, rfl⟩ := hcall.of_ask
          -- Whether the command has failed decides if the marker stays or is taken back.
          cases hfailure : failure? (p.stage a) cmd answer with
          | none =>
              simp only [hfailure, pure_bind] at h₃
              obtain ⟨_, w₄, rest, tr₄, hcheck, h₄, rfl⟩ := h₃.of_bind
              obtain ⟨heq, rfl, rfl⟩ := h₄.of_pure
              obtain ⟨rfl, -⟩ := Prod.mk.inj heq
              rw [List.append_nil, List.singleton_append]
              exact ⟨_, [], .ran hlook hready hcommand (not_fails_of_failure? hfailure) hcheck⟩
          | some e =>
              simp only [hfailure, LawfulMonad.bind_assoc, pure_bind] at h₃
              obtain ⟨_, w₄, said, tr₄, hsaid, h₄, rfl⟩ := h₃.of_bind
              obtain ⟨r, w₅, undo, tr₅, hundo, h₅, rfl⟩ := h₄.of_bind
              obtain ⟨_, w₆, rest, tr₆, hregret, h₆, rfl⟩ := h₅.of_bind
              obtain ⟨heq, rfl, rfl⟩ := h₆.of_pure
              obtain ⟨rfl, -⟩ := Prod.mk.inj heq
              obtain ⟨hfails, hfault⟩ := fails_of_failure? hfailure
              rw [List.append_nil, List.singleton_append]
              exact ⟨_, [r], .reset hlook hready hcommand hfails hfault hsaid hundo hregret⟩

end Part

end Build

end LlvmBootstrap
