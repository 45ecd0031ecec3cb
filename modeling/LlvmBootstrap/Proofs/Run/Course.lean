import LlvmBootstrap.Proofs.Root.Operations
import LlvmBootstrap.Proofs.Run.Calls

/-!
The courses of a whole run. The steps come one after another, each with the toolchain that the
one before has left, and the first that fails ends the run with its error; the lock is given
back before the build tool of the project is run, or when the run ends. The commands of a run
are those of its steps.
-/

namespace LlvmBootstrap

open Program

namespace Program.Goes

variable {σ ε ε' α β : Type} {o : Outside σ} {t t' : Toolchain} {w w' w'' : World σ}
  {tr tr' : List Answered}

theorem bind {p : Program α} {f : α → Program β} {a : α} {b : β} (h : p.Goes o w a tr w')
    (hf : (f a).Goes o w' b tr' w'') : (p >>= f).Goes o w b (tr ++ tr') w'' := by
  obtain ⟨hrun, rfl⟩ := h
  obtain ⟨hrun', rfl⟩ := hf
  refine ⟨?_, ?_⟩
  · rw [run_bind, hrun, hrun']
  · rw [trace_bind, hrun]

/-! ### Attempts and programs with a toolchain -/

theorem attempt_bind {x : Attempt ε α} {f : α → Attempt ε β} {a : α} {res : Except ε β}
    (h : x.run.Goes o w (.ok a) tr w') (hf : (f a).run.Goes o w' res tr' w'') :
    (x >>= f).run.Goes o w res (tr ++ tr') w'' := by
  rw [ExceptT.run_bind]
  exact h.bind hf

theorem attempt_bind_error {x : Attempt ε α} {e : ε} (h : x.run.Goes o w (.error e) tr w')
    (f : α → Attempt ε β) : (x >>= f).run.Goes o w (.error e) tr w' := by
  rw [ExceptT.run_bind, ← List.append_nil tr]
  exact h.bind ⟨rfl, rfl⟩

/-- An attempt in two parts ends with the first if that fails, and else with the second. -/
theorem of_attempt_bind {x : Attempt ε α} {f : α → Attempt ε β} {res : Except ε β}
    (h : (x >>= f).run.Goes o w res tr w') :
    (∃ e, res = .error e ∧ x.run.Goes o w (.error e) tr w') ∨
      ∃ a w₁ tr₁ tr₂, x.run.Goes o w (.ok a) tr₁ w₁ ∧ (f a).run.Goes o w₁ res tr₂ w' ∧
        tr = tr₁ ++ tr₂ := by
  rw [ExceptT.run_bind] at h
  obtain ⟨e | a, w₁, tr₁, tr₂, hx, h₁, rfl⟩ := h.of_bind
  · obtain ⟨rfl, rfl, rfl⟩ := h₁.of_pure
    rw [List.append_nil]
    exact .inl ⟨e, rfl, hx⟩
  · exact .inr ⟨a, w₁, tr₁, tr₂, hx, h₁, rfl⟩

theorem of_attempt_lift_bind {p : Program α} {f : α → Attempt ε β} {res : Except ε β}
    (h : ((liftM p : Attempt ε α) >>= f).run.Goes o w res tr w') :
    ∃ a w₁ tr₁ tr₂, p.Goes o w a tr₁ w₁ ∧ (f a).run.Goes o w₁ res tr₂ w' ∧
      tr = tr₁ ++ tr₂ := by
  rw [show ((liftM p : Attempt ε α) >>= f).run = p >>= fun a => (f a).run from
    ExceptT.run_bind_lift ..] at h
  exact h.of_bind

/-- Work in two parts ends with the first if that fails, and else with the second. -/
theorem of_work_bind {x : Work ε α} {f : α → Work ε β} {res : Except ε β}
    (h : ((x >>= f).start t).Goes o w (res, t') tr w') :
    (∃ e, res = .error e ∧ (x.start t).Goes o w (.error e, t') tr w') ∨
      ∃ a t₁ w₁ tr₁ tr₂, (x.start t).Goes o w (.ok a, t₁) tr₁ w₁ ∧
        ((f a).start t₁).Goes o w₁ (res, t') tr₂ w' ∧ tr = tr₁ ++ tr₂ := by
  rw [Work.start_bind] at h
  obtain ⟨⟨e | a, t₁⟩, w₁, tr₁, tr₂, hx, h₁, rfl⟩ := h.of_bind
  · obtain ⟨heq, rfl, rfl⟩ := h₁.of_pure
    obtain ⟨rfl, rfl⟩ := Prod.mk.inj heq
    rw [List.append_nil]
    exact .inl ⟨e, rfl, hx⟩
  · exact .inr ⟨a, t₁, w₁, tr₁, tr₂, hx, h₁, rfl⟩

/-- Work that ends well does so in both of its parts. -/
theorem of_work_bind_ok {x : Work ε α} {f : α → Work ε β} {b : β}
    (h : ((x >>= f).start t).Goes o w (.ok b, t') tr w') :
    ∃ a t₁ w₁ tr₁ tr₂, (x.start t).Goes o w (.ok a, t₁) tr₁ w₁ ∧
      ((f a).start t₁).Goes o w₁ (.ok b, t') tr₂ w' ∧ tr = tr₁ ++ tr₂ := by
  rcases h.of_work_bind with ⟨e, he, -⟩ | hparts
  · exact absurd he nofun
  · exact hparts

theorem of_work_adapt_bind {x : Work ε α} {f : ε → ε'} {g : α → Work ε' β} {res : Except ε' β}
    (h : ((x.adapt f >>= g).start t).Goes o w (res, t') tr w') :
    (∃ e, res = .error (f e) ∧ (x.start t).Goes o w (.error e, t') tr w') ∨
      ∃ a t₁ w₁ tr₁ tr₂, (x.start t).Goes o w (.ok a, t₁) tr₁ w₁ ∧
        ((g a).start t₁).Goes o w₁ (res, t') tr₂ w' ∧ tr = tr₁ ++ tr₂ := by
  rw [Work.start_bind, Work.start_adapt, LawfulMonad.bind_assoc] at h
  obtain ⟨⟨e | a, t₁⟩, w₁, tr₁, tr₂, hx, h₁, rfl⟩ := h.of_bind
  · obtain ⟨heq, rfl, rfl⟩ := h₁.of_pure
    obtain ⟨rfl, rfl⟩ := Prod.mk.inj heq
    rw [List.append_nil]
    exact .inl ⟨e, rfl, hx⟩
  · exact .inr ⟨a, t₁, w₁, tr₁, tr₂, hx, h₁, rfl⟩

theorem of_ofAttempt_bind {x : Attempt ε α} {f : ε → ε'} {g : α → Work ε' β}
    {res : Except ε' β}
    (h : ((Work.ofAttempt (x.adapt f) >>= g).start t).Goes o w (res, t') tr w') :
    (∃ e, res = .error (f e) ∧ t' = t ∧ x.run.Goes o w (.error e) tr w') ∨
      ∃ a w₁ tr₁ tr₂, x.run.Goes o w (.ok a) tr₁ w₁ ∧
        ((g a).start t).Goes o w₁ (res, t') tr₂ w' ∧ tr = tr₁ ++ tr₂ := by
  rw [Work.start_ofAttempt_bind, run_adapt, LawfulMonad.bind_assoc] at h
  obtain ⟨e | a, w₁, tr₁, tr₂, hx, h₁, rfl⟩ := h.of_bind
  · obtain ⟨heq, rfl, rfl⟩ := h₁.of_pure
    obtain ⟨rfl, rfl⟩ := Prod.mk.inj heq
    rw [List.append_nil]
    exact .inl ⟨e, rfl, rfl, hx⟩
  · exact .inr ⟨a, w₁, tr₁, tr₂, hx, h₁, rfl⟩

theorem of_work_lift_bind {p : Program α} {f : α → Work ε β} {res : Except ε β}
    (h : (((liftM p : Work ε α) >>= f).start t).Goes o w (res, t') tr w') :
    ∃ a w₁ tr₁ tr₂, p.Goes o w a tr₁ w₁ ∧ ((f a).start t).Goes o w₁ (res, t') tr₂ w' ∧
      tr = tr₁ ++ tr₂ := by
  rw [Work.start_lift_bind] at h
  exact h.of_bind

theorem of_work_pure {a : α} {res : Except ε α}
    (h : ((pure a : Work ε α).start t).Goes o w (res, t') tr w') :
    res = .ok a ∧ t' = t ∧ tr = [] ∧ w' = w := by
  obtain ⟨heq, htr, hw⟩ := h.of_pure
  obtain ⟨hres, ht⟩ := Prod.mk.inj heq
  exact ⟨hres, ht, htr, hw⟩

end Program.Goes

/-! ### Commands -/

abbrev Tried := Command × Except Failure Finished

def Answered.command? : Answered → Option Tried
  | ⟨.spawn .shared cmd, answer⟩ => some (cmd, answer)
  | _ => none

/-- The commands among some calls, those aside whose output is only collected. -/
def commands (tr : List Answered) : List Tried := tr.filterMap Answered.command?

@[simp] theorem commands_append (tr tr' : List Answered) :
    commands (tr ++ tr') = commands tr ++ commands tr' := List.filterMap_append ..

@[simp] theorem commands_spawn (cmd : Command) (answer : Except Failure Finished)
    (tr : List Answered) :
    commands (⟨.spawn .shared cmd, answer⟩ :: tr) = (cmd, answer) :: commands tr := rfl

theorem command?_eq_none {x : Answered} (h : x.call.IsTame) : x.command? = none := by
  obtain ⟨c, answer⟩ := x
  cases c with
  | spawn output cmd =>
      cases output with
      | shared => exact h.elim
      | collected => rfl
  | _ => rfl

theorem commands_eq_nil {tr : List Answered} (h : ∀ x ∈ tr, x.call.IsTame) :
    commands tr = [] :=
  List.filterMap_eq_nil_iff.mpr fun x hx => command?_eq_none (h x hx)

theorem commands_of_goes {σ α : Type} {p : Program α} {o : Outside σ} {w w' : World σ} {a : α}
    {tr : List Answered} (hp : p.Only Call.IsTame) (h : p.Goes o w a tr w') :
    commands tr = [] :=
  commands_eq_nil (hp.goes h)

theorem commands_of_own {σ α : Type} {p : Program α} {o : Outside σ} {w w' : World σ} {a : α}
    {tr : List Answered} (hp : p.Only Call.IsOwn) (h : p.Goes o w a tr w') :
    commands tr = [] :=
  commands_of_goes (hp.mono fun _ => Call.IsOwn.isTame) h

theorem commands_of_said {σ : Type} {o : Outside σ} {w w' : World σ} {level : Level}
    {text : String} {tr : List Answered} (h : (ask (.log level text)).Goes o w () tr w') :
    commands tr = [] := by
  rw [h.of_ask.2]
  rfl

/-! ### Parts of a build -/

namespace Build

variable {σ : Type} {o : Outside σ} {b : Build} {a : Arch} {p : Part} {t t' : Toolchain}
  {w w' : World σ} {tr : List Answered} {res : Except BuildError StageOutcome}

theorem environment_onlyTame {α : Type} {f : Variables → Work BuildError α}
    (hasks : b.host.OnlyAsks) (hf : ∀ vars t, ((f vars).start t).Only Call.IsTame) :
    (((Work.environment b.host).adapt .platform >>= f).start t).Only Call.IsTame := by
  refine .work_bind (.work_adapt _ ?_) hf
  exact (Work.environment_onlyAsks hasks t).mono fun _ => Call.Asks.isTame

theorem Part.ready_onlyTame (hasks : b.host.OnlyAsks) (p : Part) :
    ((p.ready b a).start t).Only Call.IsTame := by
  cases p with
  | configure =>
      rw [Part.ready]
      split
      · exact trivial
      · refine environment_onlyTame hasks fun vars t => ⟨trivial, fun _ => ?_⟩
        refine .ofAttempt_bind (.adapt _ ?_) fun _ => trivial
        exact (makeDirs_onlyOwn _).mono fun _ => Call.IsOwn.isTame
  | install => exact environment_onlyTame hasks fun vars t => ⟨trivial, fun _ => trivial⟩

theorem Part.check_onlyOwn (hr : b.record = b.root.record) (p : Part) :
    (p.check b a).Only Call.IsOwn := by
  cases p with
  | configure => exact trivial
  | install =>
      rw [Part.check, hr]
      refine (isDir_onlyOwn _).bind fun done => ?_
      cases done with
      | true => exact trivial
      | false => exact .ask trivial

theorem reset_onlyOwn (r : Root) (s : Stage) : (r.reset s).run.Only Call.IsOwn := by
  refine Only.attempt_call_bind trivial fun removed => ?_
  rcases removed with e | u
  · cases e <;> exact trivial
  · exact trivial

theorem regret_onlyOwn (undone : Except Failure Unit) :
    (Part.regret undone).Only Call.IsOwn := by
  cases undone with
  | error e => exact .ask trivial
  | ok u => exact trivial

/-- A part tries one command at most. -/
theorem Course.commands_eq {tried : Option Tried} {resets : List (Except Failure Unit)}
    (hasks : b.host.OnlyAsks) (hr : b.record = b.root.record)
    (h : Course o b a p t w tried resets res tr w') : commands tr = tried.toList := by
  have hlook : ∀ {done w₁ look}, (b.record.isComplete (p.stage a)).Goes o w done look w₁ →
      commands look = [] := by
    intro done w₁ look hgoes
    rw [hr] at hgoes
    exact commands_of_own (isDir_onlyOwn _) hgoes
  cases h with
  | skipped hl hsaid =>
      rw [commands_append, hlook hl, commands_of_said hsaid]
      rfl
  | stopped hl hready =>
      rw [commands_append, hlook hl, commands_of_goes (p.ready_onlyTame hasks) hready]
      rfl
  | ran hl hready hcommand hdone hcheck =>
      rw [commands_append, commands_append, commands_spawn, hlook hl,
        commands_of_goes (p.ready_onlyTame hasks) hready,
        commands_of_own (p.check_onlyOwn hr) hcheck]
      rfl
  | reset hl hready hcommand hfails hfault hsaid hundo hregret =>
      rw [hr] at hundo
      rw [commands_append, commands_append, commands_spawn, commands_append,
        commands_append, hlook hl, commands_of_goes (p.ready_onlyTame hasks) hready,
        commands_of_said hsaid, commands_of_own (reset_onlyOwn ..) hundo,
        commands_of_own (regret_onlyOwn _) hregret]
      rfl

theorem generator_of_ready {cmd : Command}
    (h : ((Part.configure.ready b a).start t).Goes o w (.ok cmd, t') tr w') :
    ∃ generator vars, b.host.generator a = .ok generator ∧
      cmd = b.configureCommand a generator vars := by
  rw [Part.ready] at h
  cases hgenerator : b.host.generator a with
  | error e =>
      rw [hgenerator] at h
      exact absurd (congrArg Prod.fst h.of_pure.1) (by simp)
  | ok generator =>
      rw [hgenerator] at h
      obtain ⟨vars, t₁, w₁, _, _, -, h₁, -⟩ := h.of_work_bind_ok
      obtain ⟨_, t₂, w₂, _, _, -, h₂, -⟩ := h₁.of_work_bind_ok
      obtain ⟨_, t₃, w₃, _, _, -, h₃, -⟩ := h₂.of_work_bind_ok
      exact ⟨generator, vars, rfl, Except.ok.inj h₃.of_work_pure.1⟩

/-- What a part has made ready is the command of its stage. -/
theorem Part.does_of_ready {cmd : Command}
    (h : ((p.ready b a).start t).Goes o w (.ok cmd, t') tr w') :
    Does b a (p.stage a) cmd := by
  cases p with
  | configure =>
      obtain ⟨generator, vars, -, rfl⟩ := generator_of_ready h
      exact .configure generator vars
  | install =>
      obtain ⟨vars, t₁, w₁, _, _, -, h₁, -⟩ := h.of_work_bind_ok
      obtain ⟨_, t₂, w₂, _, _, -, h₂, -⟩ := h₁.of_work_bind_ok
      obtain rfl := Except.ok.inj (congrArg Prod.fst h₂.of_pure.1)
      exact .install vars

structure Part.Went (o : Outside σ) (b : Build) (a : Arch) (p : Part)
    (t : Toolchain) (w : World σ)
    (tried : Option Tried) (res : Except BuildError StageOutcome) (t' : Toolchain)
    (tr : List Answered) (w' : World σ) : Prop where
  goes : ((p.work b a).start t).Goes o w (res, t') tr w'
  course : ∃ resets, Course o b a p t w tried resets res tr w'

theorem Part.Went.commands_eq {tried : Option Tried} (hasks : b.host.OnlyAsks)
    (hr : b.record = b.root.record) (h : p.Went o b a t w tried res t' tr w') :
    commands tr = tried.toList := by
  obtain ⟨resets, hcourse⟩ := h.course
  exact hcourse.commands_eq hasks hr

/-- The command that a part tries is that of its stage. -/
theorem Part.Went.does {tried : Option Tried} (h : p.Went o b a t w tried res t' tr w') :
    ∀ x ∈ tried, Does b a (p.stage a) x.1 := by
  obtain ⟨resets, hcourse⟩ := h.course
  cases hcourse with
  | skipped | stopped => exact nofun
  | ran hlook hready | reset hlook hready =>
      rintro _ ⟨⟩
      exact Part.does_of_ready hready

/-- A part has failed if its command has, with the error for what the command came to. -/
theorem Part.Went.verdict {tried : Option Tried} (h : p.Went o b a t w tried res t' tr w') :
    ∀ x ∈ tried, match res with
      | .ok out => out = .ran ∧ ¬ Fails x.2
      | .error e => Fails x.2 ∧ IsFault (p.stage a) x.1 x.2 e := by
  obtain ⟨resets, hcourse⟩ := h.course
  cases hcourse with
  | skipped | stopped => exact nofun
  | ran hlook hready hcommand hdone =>
      rintro _ ⟨⟩
      exact ⟨rfl, hdone⟩
  | reset hlook hready hcommand hfails hfault =>
      rintro _ ⟨⟩
      exact ⟨hfails, hfault⟩

theorem Part.went_of_goes (h : ((p.work b a).start t).Goes o w (res, t') tr w') :
    ∃ tried, p.Went o b a t w tried res t' tr w' := by
  obtain ⟨tried, resets, hcourse⟩ := Part.course_of_goes h
  exact ⟨tried, h, resets, hcourse⟩

end Build

/-! ### The build tool of the project -/

namespace Downstream

def verdict (cmd : Command) : Except Failure Finished → Except InvokeError Unit
  | .error e => .error (.spawn cmd.line e)
  | .ok f => if f.status.isSuccess then .ok () else .error (.failed cmd.line f.status)

/-- The courses of running the build tool from the world `w` on, each with its command if it
was tried, its result, its calls and the world in the end. -/
inductive Course {σ : Type} (o : Outside σ) (d : Downstream) (q : Request) (install : Path)
    (t : Toolchain) (w : World σ) :
    Option Tried → Except InvokeError Unit → List Answered → World σ → Prop
  | unsupported {e : PlatformError} (hcommand : d.command q install = .error e) :
      Course o d q install t w none (.error (.platform e)) [] w
  | stopped {cmd : Command} {e : PlatformError} {t' : Toolchain} {before : List Answered}
      {w' : World σ} (hcommand : d.command q install = .ok cmd)
      (henv : ((d.withToolchain q.action cmd).start t).Goes o w (.error e, t') before w') :
      Course o d q install t w none (.error (.platform e)) before w'
  | ran {cmd cmd' : Command} {t' : Toolchain} {before said : List Answered}
      {w₁ w₂ w₃ : World σ}
      {answer : Except Failure Finished} (hcommand : d.command q install = .ok cmd)
      (henv : ((d.withToolchain q.action cmd).start t).Goes o w (.ok cmd', t') before w₁)
      (hsaid : (ask (.log .info ("running " ++ d.program))).Goes o w₁ () said w₂)
      (hspawn : w₂.perform o (.spawn .shared cmd') = (answer, w₃)) :
      Course o d q install t w (some (cmd', answer)) (verdict cmd' answer)
        (before ++ (said ++ [⟨.spawn .shared cmd', answer⟩])) w₃

variable {σ : Type} {o : Outside σ} {d : Downstream} {q : Request} {install : Path}
  {t t' : Toolchain} {w w' : World σ} {tr : List Answered} {res : Except InvokeError Unit}

theorem start_invoke (d : Downstream) (q : Request) (install : Path) (t : Toolchain) :
    (d.invoke q install).start t = match d.command q install with
      | .error e => pure (.error (.platform e), t)
      | .ok cmd => (d.withToolchain q.action cmd).start t >>= fun
        | (.error e, t') => pure (.error (.platform e), t')
        | (.ok cmd', t') => ask (.log .info ("running " ++ d.program)) >>= fun _ =>
            ask (.spawn .shared cmd') >>= fun answer => pure (verdict cmd' answer, t') := by
  rw [invoke]
  cases d.command q install with
  | error e => rfl
  | ok cmd =>
      dsimp only
      rw [Work.start_bind, Work.start_adapt, LawfulMonad.bind_assoc]
      congr 1
      funext out
      obtain ⟨made, t'⟩ := out
      cases made with
      | error e => rfl
      | ok cmd' =>
          refine congrArg (ask _ >>= ·)
            (funext fun _ => congrArg (ask _ >>= ·) (funext fun answer => ?_))
          rcases answer with e | f
          · rfl
          · change (Work.start (if f.status.isSuccess then _ else _) t') = _
            rw [verdict]
            split <;> rfl

structure Went (o : Outside σ) (d : Downstream) (q : Request) (install : Path) (t : Toolchain)
    (w : World σ) (tried : Option Tried) (res : Except InvokeError Unit) (t' : Toolchain)
    (tr : List Answered) (w' : World σ) : Prop where
  goes : ((d.invoke q install).start t).Goes o w (res, t') tr w'
  course : Course o d q install t w tried res tr w'

/-- Each run of the build tool is one of its courses. -/
theorem course_of_goes (h : ((d.invoke q install).start t).Goes o w (res, t') tr w') :
    ∃ tried, Course o d q install t w tried res tr w' := by
  rw [start_invoke] at h
  cases hcommand : d.command q install with
  | error e =>
      rw [hcommand] at h
      obtain ⟨heq, rfl, rfl⟩ := h.of_pure
      obtain ⟨rfl, -⟩ := Prod.mk.inj heq
      exact ⟨none, .unsupported hcommand⟩
  | ok cmd =>
      rw [hcommand] at h
      obtain ⟨⟨made, t₁⟩, w₁, before, tr₁, henv, h₁, rfl⟩ := h.of_bind
      cases made with
      | error e =>
          obtain ⟨heq, rfl, rfl⟩ := h₁.of_pure
          obtain ⟨rfl, -⟩ := Prod.mk.inj heq
          rw [List.append_nil]
          exact ⟨none, .stopped hcommand henv⟩
      | ok cmd' =>
          obtain ⟨_, w₂, said, tr₂, hsaid, h₂, rfl⟩ := h₁.of_bind
          obtain ⟨answer, w₃, call, tr₃, hcall, h₃, rfl⟩ := h₂.of_bind
          obtain ⟨hspawn, rfl⟩ := hcall.of_ask
          obtain ⟨heq, rfl, rfl⟩ := h₃.of_pure
          obtain ⟨rfl, -⟩ := Prod.mk.inj heq
          exact ⟨_, .ran hcommand henv hsaid hspawn⟩

inductive Does (d : Downstream) (q : Request) (install : Path) : Command → Prop
  | plain {cmd : Command} (hcommand : d.command q install = .ok cmd)
      (hq : q.action.compiles = false) :
      Does d q install cmd
  | equipped {cmd : Command} (vars : Variables) (hcommand : d.command q install = .ok cmd)
      (hq : q.action.compiles = true) : Does d q install (cmd.withVars vars)

theorem does_of_withToolchain {cmd cmd' : Command} (hcommand : d.command q install = .ok cmd)
    (h : ((d.withToolchain q.action cmd).start t).Goes o w (.ok cmd', t') tr w') :
    Does d q install cmd' := by
  rw [withToolchain] at h
  split at h
  · obtain ⟨vars, _, _, _, _, -, h₁, -⟩ := h.of_work_bind_ok
    obtain rfl := Except.ok.inj h₁.of_work_pure.1
    exact .equipped vars hcommand ‹_›
  · obtain rfl := Except.ok.inj h.of_work_pure.1
    exact .plain hcommand (Bool.not_eq_true _ ▸ ‹_›)

theorem Course.does {tried : Option Tried} (h : Course o d q install t w tried res tr w') :
    ∀ x ∈ tried, Does d q install x.1 := by
  cases h with
  | unsupported | stopped => exact nofun
  | ran hcommand henv =>
      rintro _ ⟨⟩
      exact does_of_withToolchain hcommand henv

theorem Course.commands_eq {tried : Option Tried} (hasks : d.host.OnlyAsks)
    (h : Course o d q install t w tried res tr w') : commands tr = tried.toList := by
  have henv : ∀ {cmd res₁ before w₁},
      ((d.withToolchain q.action cmd).start t).Goes o w res₁ before w₁ →
      commands before = [] := fun hgoes =>
    commands_of_goes
      ((withToolchain_onlyAsks hasks _ _ t).mono fun _ => Call.Asks.isTame) hgoes
  cases h with
  | unsupported hcommand => rfl
  | stopped hcommand hmade => exact henv hmade
  | ran hcommand hmade hsaid hspawn =>
      rw [commands_append, commands_append, henv hmade,
        commands_of_said hsaid]
      rfl

end Downstream

/-! ### The whole run -/

namespace Bootstrap

open Build (Part)

/-- The courses of the steps under the lock from the world `w` on, each with the
commands of its configure step and of its install step, if they were tried, its result,
its calls and the world in the end. -/
inductive StepsCourse {σ : Type} (o : Outside σ) (v : Bootstrap) (a : Arch) (t : Toolchain)
    (w : World σ) :
    Option Tried → Option Tried → Except BootstrapError Path → Toolchain → List Answered →
    World σ → Prop
  | unfetched {e : SourceError} {fetching : List Answered} {w₁ : World σ}
      (hfetch : (Sources.fetch v.settings.archive v.root v.root.record).run.Goes o w (.error e)
        fetching w₁) :
      StepsCourse o v a t w none none (.error (.fetch e)) t fetching w₁
  | unconfigured {f : Sources.Fetched} {e : BuildError} {c : Option Tried} {t₁ : Toolchain}
      {fetching configuring : List Answered} {w₁ w₂ : World σ}
      (hfetch : (Sources.fetch v.settings.archive v.root v.root.record).run.Goes o w (.ok f)
        fetching w₁)
      (hconfigure : Part.configure.Went o v.build a t w₁ c (.error e) t₁ configuring w₂) :
      StepsCourse o v a t w c none (.error (.build e)) t₁ (fetching ++ configuring) w₂
  | uninstalled {f : Sources.Fetched} {configured : StageOutcome} {e : BuildError}
      {c i : Option Tried}
      {t₁ t₂ : Toolchain} {fetching configuring installing : List Answered}
      {w₁ w₂ w₃ : World σ}
      (hfetch : (Sources.fetch v.settings.archive v.root v.root.record).run.Goes o w (.ok f)
        fetching w₁)
      (hconfigure : Part.configure.Went o v.build a t w₁ c (.ok configured) t₁ configuring w₂)
      (hinstall : Part.install.Went o v.build a t₁ w₂ i (.error e) t₂ installing w₃) :
      StepsCourse o v a t w c i (.error (.build e)) t₂
        (fetching ++ (configuring ++ installing)) w₃
  | done {f : Sources.Fetched} {configured installed : StageOutcome} {c i : Option Tried}
      {t₁ t₂ : Toolchain} {fetching configuring installing said : List Answered}
      {w₁ w₂ w₃ w₄ : World σ}
      (hfetch : (Sources.fetch v.settings.archive v.root v.root.record).run.Goes o w (.ok f)
        fetching w₁)
      (hconfigure : Part.configure.Went o v.build a t w₁ c (.ok configured) t₁ configuring w₂)
      (hinstall : Part.install.Went o v.build a t₁ w₂ i (.ok installed) t₂ installing w₃)
      (hsaid : (ask (.log .info "LLVM ready")).Goes o w₃ () said w₄) :
      StepsCourse o v a t w c i (.ok (v.root.install a)) t₂
        (fetching ++ (configuring ++ (installing ++ said))) w₄

/-- The courses of making LLVM ready: the root is refused, or the steps
are taken and it is given back. -/
inductive PrepareCourse {σ : Type} (o : Outside σ) (v : Bootstrap) (a : Arch)
    (command : String) (t : Toolchain) (w : World σ) :
    Option Tried → Option Tried → Except BootstrapError Path → Toolchain → List Answered →
    World σ → Prop
  | refused {e : LockError} {taking : List Answered} {w₁ : World σ}
      (hlock : (RootLock.acquire v.root command a).run.Goes o w (.error e) taking w₁) :
      PrepareCourse o v a command t w none none (.error (.lock e)) t taking w₁
  | held {l : RootLock} {c i : Option Tried} {res : Except BootstrapError Path}
      {t₁ : Toolchain} {taking making freeing : List Answered} {w₁ w₂ w₃ : World σ}
      (hlock : (RootLock.acquire v.root command a).run.Goes o w (.ok l) taking w₁)
      (hsteps : StepsCourse o v a t w₁ c i res t₁ making w₂)
      (hfree : l.release.Goes o w₂ () freeing w₃) :
      PrepareCourse o v a command t w c i res t₁ (taking ++ (making ++ freeing)) w₃

/-- The courses of a whole run. The build tool of the project is last. -/
inductive Course {σ : Type} (o : Outside σ) (v : Bootstrap) (q : Request) (w : World σ) :
    Option Tried → Option Tried → Option Tried → Except BootstrapError Unit → List Answered →
      World σ → Prop
  | unprepared {c i : Option Tried} {e : BootstrapError} {t : Toolchain} {tr : List Answered}
      {w₁ : World σ}
      (hprepare : PrepareCourse o v q.arch q.action.subcommand (.of q.arch) w c i
        (.error e) t tr w₁) :
      Course o v q w c i none (.error e) tr w₁
  | prepared {c i d : Option Tried} {install : Path} {t t' : Toolchain}
      {res : Except InvokeError Unit} {preparing invoking : List Answered} {w₁ w₂ : World σ}
      (hprepare : PrepareCourse o v q.arch q.action.subcommand (.of q.arch) w c i
        (.ok install) t preparing w₁)
      (hinvoke : v.downstream.Went o q install t w₁ d res t' invoking w₂) :
      Course o v q w c i d (res.mapError .invoke) (preparing ++ invoking) w₂

variable {σ : Type} {o : Outside σ} {v : Bootstrap} {a : Arch} {command : String} {q : Request}
  {t t' : Toolchain} {w w' : World σ} {c i d : Option Tried} {tr : List Answered}

theorem stepsCourse_of_goes {res : Except BootstrapError Path}
    (h : ((v.steps a).start t).Goes o w (res, t') tr w') :
    ∃ c i, StepsCourse o v a t w c i res t' tr w' := by
  rw [steps] at h
  rcases h.of_ofAttempt_bind with ⟨e, rfl, rfl, hfetch⟩ | ⟨f, w₁, fetching, tr₁,
    hfetch, h₁, rfl⟩
  · exact ⟨none, none, .unfetched hfetch⟩
  -- The building fails at one of its two stages, or both are passed.
  rcases h₁.of_work_adapt_bind with ⟨e, rfl, hrun⟩ | ⟨p, t₁, w₂, building, tr₂, hrun, h₂, rfl⟩
  · rcases hrun.of_work_bind with ⟨_, ⟨⟩, hconf⟩ | ⟨configured, t₁, w₂, configuring, tr₂,
      hconf, h₂, rfl⟩
    · obtain ⟨c, hconfigure⟩ := Part.went_of_goes (p := .configure) hconf
      exact ⟨c, none, .unconfigured hfetch hconfigure⟩
    obtain ⟨c, hconfigure⟩ := Part.went_of_goes (p := .configure) hconf
    rcases h₂.of_work_bind with ⟨_, ⟨⟩, hinst⟩ | ⟨installed, t₂, w₃, installing, tr₃,
      hinst, h₃, rfl⟩
    · obtain ⟨i, hinstall⟩ := Part.went_of_goes (p := .install) hinst
      exact ⟨c, i, .uninstalled hfetch hconfigure hinstall⟩
    · exact absurd h₃.of_work_pure.1 (by simp)
  · obtain ⟨configured, t₂, w₃, configuring, tr₃, hconf, h₃, rfl⟩ := hrun.of_work_bind_ok
    obtain ⟨c, hconfigure⟩ := Part.went_of_goes (p := .configure) hconf
    obtain ⟨installed, t₃, w₄, installing, tr₄, hinst, h₄, rfl⟩ := h₃.of_work_bind_ok
    obtain ⟨i, hinstall⟩ := Part.went_of_goes (p := .install) hinst
    obtain ⟨hp, rfl, rfl, rfl⟩ := h₄.of_work_pure
    obtain rfl := Except.ok.inj hp
    obtain ⟨_, w₅, said, tr₅, hsaid, h₅, rfl⟩ := h₂.of_work_lift_bind
    obtain ⟨rfl, rfl, rfl, rfl⟩ := h₅.of_work_pure
    have hdone : StepsCourse o v a t w c i _ _ _ _ := .done hfetch hconfigure hinstall hsaid
    refine ⟨c, i, ?_⟩
    simpa only [List.append_nil, List.append_assoc] using hdone

theorem prepareCourse_of_goes {res : Except BootstrapError Path}
    (h : ((v.prepare a command).start t).Goes o w (res, t') tr w') :
    ∃ c i, PrepareCourse o v a command t w c i res t' tr w' := by
  rw [prepare] at h
  rcases h.of_ofAttempt_bind with ⟨e, rfl, rfl, hlock⟩ | ⟨l, w₁, taking, tr₁, hlock, h₁, rfl⟩
  · exact ⟨none, none, .refused hlock⟩
  rw [start_holding] at h₁
  obtain ⟨⟨res', t₁⟩, w₂, making, tr₂, hmade, h₂, rfl⟩ := h₁.of_bind
  obtain ⟨_, w₃, freeing, tr₃, hfree, h₃, rfl⟩ := h₂.of_bind
  obtain ⟨heq, rfl, rfl⟩ := h₃.of_pure
  obtain ⟨rfl, rfl⟩ := Prod.mk.inj heq
  obtain ⟨c, i, hsteps⟩ := stepsCourse_of_goes hmade
  rw [List.append_nil]
  exact ⟨c, i, .held hlock hsteps hfree⟩

/-- Each run is one of its courses. -/
theorem course_of_goes {res : Except BootstrapError Unit} (h : (v.run q).Goes o w res tr w') :
    ∃ c i d, Course o v q w c i d res tr w' := by
  rw [run] at h
  obtain ⟨⟨res', t₁⟩, w₁, tr₁, tr₂, hwork, h₁, rfl⟩ := h.of_bind
  obtain ⟨rfl, rfl, rfl⟩ := h₁.of_pure
  rw [List.append_nil]
  rcases hwork.of_work_bind with ⟨e, rfl, hprep⟩ | ⟨install, t₂, w₂, preparing, tr₃,
    hprep, h₂, rfl⟩
  · obtain ⟨c, i, hprepare⟩ := prepareCourse_of_goes hprep
    exact ⟨c, i, none, .unprepared hprepare⟩
  obtain ⟨c, i, hprepare⟩ := prepareCourse_of_goes hprep
  rw [Work.start_adapt] at h₂
  obtain ⟨⟨ended, t₃⟩, w₃, invoking, tr₄, hinv, h₃, rfl⟩ := h₂.of_bind
  obtain ⟨heq, rfl, rfl⟩ := h₃.of_pure
  obtain ⟨rfl, rfl⟩ := Prod.mk.inj heq
  obtain ⟨d, hinvoke⟩ := Downstream.course_of_goes hinv
  rw [List.append_nil]
  exact ⟨c, i, d, .prepared hprepare ⟨hinv, hinvoke⟩⟩

/-! ### The commands of a run -/

theorem StepsCourse.commands_eq {res : Except BootstrapError Path} (hasks : v.host.OnlyAsks)
    (h : StepsCourse o v a t w c i res t' tr w') : commands tr = c.toList ++ i.toList := by
  have hquiet {res fetching w₁}
      (h : (Sources.fetch v.settings.archive v.root v.root.record).run.Goes
        o w res fetching w₁) :
      commands fetching = [] :=
    commands_of_goes
      ((Sources.fetch_spawnsNothing ..).mono fun _ => Call.SpawnsNothing.isTame) h
  cases h with
  | unfetched hfetch => rw [hquiet hfetch]; rfl
  | unconfigured hfetch hconfigure =>
      rw [commands_append, hquiet hfetch, hconfigure.commands_eq hasks rfl]
      exact (List.append_nil _).symm
  | uninstalled hfetch hconfigure hinstall =>
      rw [commands_append, commands_append, hquiet hfetch, hconfigure.commands_eq hasks rfl,
        hinstall.commands_eq hasks rfl]
      rfl
  | done hfetch hconfigure hinstall hsaid =>
      rw [commands_append, commands_append, commands_append, hquiet hfetch,
        hconfigure.commands_eq hasks rfl, hinstall.commands_eq hasks rfl,
        commands_of_said hsaid,
        List.append_nil]
      rfl

theorem PrepareCourse.commands_eq {res : Except BootstrapError Path} (hasks : v.host.OnlyAsks)
    (h : PrepareCourse o v a command t w c i res t' tr w') :
    commands tr = c.toList ++ i.toList := by
  have hown {res taking w₁}
    (h : (RootLock.acquire v.root command a).run.Goes o w res taking w₁) :
      commands taking = [] :=
    commands_of_own (RootLock.acquire_onlyOwn ..) h
  cases h with
  | refused hlock => rw [hown hlock]; rfl
  | held hlock hsteps hfree =>
      rw [commands_append, commands_append, hown hlock, hsteps.commands_eq hasks,
        hfree.of_ask.2]
      exact List.append_nil _

/-- A run tries one command of each kind at most, in the order of its steps. -/
theorem Course.commands_eq {res : Except BootstrapError Unit} (hasks : v.host.OnlyAsks)
    (h : Course o v q w c i d res tr w') :
    commands tr = c.toList ++ (i.toList ++ d.toList) := by
  cases h with
  | unprepared hprepare =>
      rw [hprepare.commands_eq hasks]
      exact congrArg _ (List.append_nil _).symm
  | prepared hprepare hinvoke =>
      rw [commands_append, hprepare.commands_eq hasks, hinvoke.course.commands_eq hasks,
        List.append_assoc]

end Bootstrap

end LlvmBootstrap
