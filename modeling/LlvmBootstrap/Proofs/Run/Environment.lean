import LlvmBootstrap.Proofs.Build.Rollback
import LlvmBootstrap.Proofs.Run.Course

/-!
Operations that share a toolchain. Each first finds out whether it needs the toolchain's
environment; if it does not, or the environment has been made before, the platform is not asked
for it. So once it has been made, every operation that follows works with it.
-/

namespace LlvmBootstrap

open Program

/-! ### Parts of a build -/

namespace Build

/-- What is left to be done before the command of a part once the environment is there. -/
def Part.equip (b : Build) (a : Arch) :
    Part → Except PlatformError (Variables → Program (Except BuildError Command))
  | .configure => (b.host.generator a).map fun generator vars =>
    ask (.log .info "configuring LLVM") >>= fun _ => (makeDirs (b.root.build a)).run >>= fun
      | .ok () => pure (.ok (b.configureCommand a generator vars))
      | .error e => pure (.error (.failed e))
  | .install => .ok fun vars =>
    ask (.log .info "building and installing LLVM") >>= fun _ =>
  pure (.ok (b.installCommand a vars))

theorem Part.start_ready (b : Build) (a : Arch) (p : Part) (t : Toolchain) :
    (p.ready b a).start t = match p.equip b a with
      | .error e => pure (.error (.platform e), t)
      | .ok equip => (Work.environment b.host).start t >>= fun
        | (.ok vars, t') => equip vars >>= fun res => pure (res, t')
        | (.error e, t') => pure (.error (.platform e), t') := by
  -- An environment is taken first by both parts; what differs is what is done with it.
  have hstart (f : Variables → Work BuildError Command)
      (equip : Variables → Program (Except BuildError Command))
      (hf : ∀ vars t', (f vars).start t' = equip vars >>= fun res => pure (res, t')) :
      ((Work.environment b.host).adapt .platform >>= f).start t =
        (Work.environment b.host).start t >>= fun
          | (.ok vars, t') => equip vars >>= fun res => pure (res, t')
          | (.error e, t') => pure (.error (.platform e), t') := by
    rw [Work.start_bind, Work.start_adapt, LawfulMonad.bind_assoc]
    congr 1
    funext ⟨made, t'⟩
    cases made with
    | error e => rfl
    | ok vars => exact hf vars t'
  cases p with
  | configure =>
      rw [Part.ready, Part.equip]
      cases b.host.generator a with
      | error e => rfl
      | ok generator =>
          refine hstart _ _ fun vars t' => ?_
          refine congrArg (ask _ >>= ·)
            (funext fun _ => (Work.start_ofAttempt_bind ..).trans ?_)
          rw [run_adapt, LawfulMonad.bind_assoc]
          refine Eq.trans ?_ (LawfulMonad.bind_assoc (makeDirs (b.root.build a)).run ..).symm
          refine congrArg ((makeDirs (b.root.build a)).run >>= ·) (funext fun res => ?_)
          cases res <;> rfl
  | install => exact hstart _ _ fun vars t' => rfl

end Build

/-! ### Operations -/

inductive Operation where
  | stage (p : Build.Part) (a : Arch)
  | invoke (q : Request) (install : Path)
  /-- Only has the environment made. -/
  | get
  deriving DecidableEq

inductive OperationError where
  | build (e : BuildError)
  | invoke (e : InvokeError)
  | platform (e : PlatformError)
  deriving DecidableEq

/-- How an operation goes on once it knows whether it needs the environment. -/
inductive Next where
  | done (res : Except OperationError Unit)
  | needs (rest : Variables → Program (Except OperationError Unit))

namespace Operation

open Build (Part)

def work (v : Bootstrap) : Operation → Work OperationError Unit
  | .stage p a => (p.work v.build a).adapt .build >>= fun _ => pure ()
  | .invoke q install => (v.downstream.invoke q install).adapt .invoke
  | .get => (Work.environment v.host).adapt .platform >>= fun _ => pure ()

def unmade (e : PlatformError) : Operation → OperationError
  | .stage _ _ => .build (.platform e)
  | .invoke _ _ => .invoke (.platform e)
  | .get => .platform e

def carryOut (v : Bootstrap) (p : Part) (a : Arch) (cmd : Command) :
    Program (Except OperationError Unit) :=
  (v.build.runStage (p.stage a) cmd).run >>= fun
    | .error e => pure (.error (.build e))
    | .ok () => p.check v.build a >>= fun _ => pure (.ok ())

def runTool (v : Bootstrap) (cmd : Command) : Program (Except OperationError Unit) :=
  ask (.log .info ("running " ++ v.downstream.program)) >>= fun _ =>
    ask (.spawn .shared cmd) >>= fun answer =>
      pure ((Downstream.verdict cmd answer).mapError .invoke)

def opening (v : Bootstrap) : Operation → Program Next
  | .stage p a => v.build.record.isComplete (p.stage a) >>= fun
    | true => ask (.log .info p.already) >>= fun _ => pure (.done (.ok ()))
    | false => match p.equip v.build a with
      | .error e => pure (.done (.error (.build (.platform e))))
      | .ok equip => pure (.needs fun vars => equip vars >>= fun
        | .error e => pure (.error (.build e))
        | .ok cmd => carryOut v p a cmd)
  | .invoke q install => match v.downstream.command q install with
    | .error e => pure (.done (.error (.invoke (.platform e))))
    | .ok cmd => match q.action.compiles with
      | true => pure (.needs fun vars => runTool v (cmd.withVars vars))
      | false => runTool v cmd >>= fun res => pure (.done res)
  | .get => pure (.needs fun _ => pure (.ok ()))

def resume (v : Bootstrap) (t : Toolchain) (op : Operation) :
    Next → Program (Except OperationError Unit × Toolchain)
  | .done res => pure (res, t)
  | .needs rest => (Work.environment v.host).start t >>= fun
    | (.ok vars, t') => rest vars >>= fun res => pure (res, t')
    | (.error e, t') => pure (.error (op.unmade e), t')

variable {v : Bootstrap} {t t' : Toolchain} {op : Operation}

theorem resume_of_some {vars : Variables} (hvars : t.vars = some vars) (v : Bootstrap)
    (op : Operation) (rest : Variables → Program (Except OperationError Unit)) :
    op.resume v t (.needs rest) = rest vars >>= fun res => pure (res, t) := by
  rw [resume, Work.start_environment, hvars]
  rfl

theorem resume_of_none (hvars : t.vars = none) (v : Bootstrap) (op : Operation)
    (rest : Variables → Program (Except OperationError Unit)) :
    op.resume v t (.needs rest) = (v.host.environment t.arch).run >>= fun
      | .ok vars => rest vars >>= fun res => pure (res, ⟨t.arch, some vars⟩)
      | .error e => pure (.error (op.unmade e), t) := by
  rw [resume, Work.start_environment, hvars]
  dsimp only
  rw [LawfulMonad.bind_assoc]
  congr 1
  funext made
  cases made <;> rfl

theorem start_stage (v : Bootstrap) (p : Part) (a : Arch) (t : Toolchain) :
    ((Operation.stage p a).work v).start t =
      (Operation.stage p a).opening v >>= (Operation.stage p a).resume v t := by
  rw [work, Work.start_bind, Work.start_adapt, Part.start_work, opening,
    LawfulMonad.bind_assoc, LawfulMonad.bind_assoc, LawfulMonad.bind_assoc]
  -- The two programs make the same calls in the same order, and are compared answer by answer.
  congr 1
  funext done
  cases done with
  | true => rfl
  | false =>
      dsimp only
      rw [Part.start_ready]
      cases p.equip v.build a with
      | error e => rfl
      | ok equip =>
          dsimp only
          rw [LawfulMonad.bind_assoc, LawfulMonad.bind_assoc, pure_bind, resume]
          congr 1
          funext ⟨made, t'⟩
          cases made with
          | error e => rfl
          | ok vars =>
              dsimp only
              rw [LawfulMonad.bind_assoc, LawfulMonad.bind_assoc]
              congr 1
              funext res
              cases res with
              | error e => rfl
              | ok cmd =>
                  rw [pure_bind]
                  dsimp only
                  rw [carryOut, LawfulMonad.bind_assoc, LawfulMonad.bind_assoc]
                  congr 1
                  funext res
                  cases res with
                  | error e => rfl
                  | ok u =>
                      dsimp only
                      rw [LawfulMonad.bind_assoc, LawfulMonad.bind_assoc]
                      rfl

theorem start_work (v : Bootstrap) (op : Operation) (t : Toolchain) :
    (op.work v).start t = op.opening v >>= op.resume v t := by
  cases op with
  | stage p a => exact start_stage v p a t
  | invoke q install =>
      rw [work, Work.start_adapt, Downstream.start_invoke, opening]
      cases v.downstream.command q install with
      | error e => rfl
      | ok cmd =>
          dsimp only
          rw [Downstream.withToolchain]
          cases q.action.compiles with
          | false => rfl
          | true =>
              rw [if_pos rfl, Work.start_bind, LawfulMonad.bind_assoc, LawfulMonad.bind_assoc]
              dsimp only
              rw [pure_bind, resume]
              congr 1
              funext out
              obtain ⟨made, t'⟩ := out
              cases made <;> rfl
  | get =>
      rw [work, Work.start_bind, Work.start_adapt, LawfulMonad.bind_assoc, opening,
        pure_bind, resume]
      congr 1
      funext out
      obtain ⟨made, t'⟩ := out
      cases made <;> rfl

end Operation

/-- A bootstrap on a platform that makes its environments in another way. -/
def Bootstrap.withEnvironment (v : Bootstrap) (f : Arch → Attempt PlatformError Variables) :
    Bootstrap :=
  { v with host := { v.host with environment := f } }

theorem Operation.opening_withEnvironment (v : Bootstrap)
    (f : Arch → Attempt PlatformError Variables) (op : Operation) :
    op.opening (v.withEnvironment f) = op.opening v := by
  cases op <;> rfl

/-! ### Commands whose output is collected -/

def Answered.capture? : Answered → Option Command
  | ⟨.spawn .collected cmd, _⟩ => some cmd
  | _ => none

def captures (tr : List Answered) : List Command := tr.filterMap Answered.capture?

@[simp] theorem captures_append (tr tr' : List Answered) :
    captures (tr ++ tr') = captures tr ++ captures tr' := List.filterMap_append ..

def Call.CapturesNothing : Call → Prop
  | .spawn .collected _ => False
  | _ => True

theorem Call.SpawnsNothing.capturesNothing {c : Call} (h : c.SpawnsNothing) :
    c.CapturesNothing := by
  cases c with
  | spawn => exact h.elim
  | _ => trivial

theorem Call.IsOwn.capturesNothing {c : Call} (h : c.IsOwn) : c.CapturesNothing :=
  h.spawnsNothing.capturesNothing

theorem captures_of_goes {σ α : Type} {p : Program α} {o : Outside σ} {w w' : World σ} {a : α}
    {tr : List Answered} (hp : p.Only Call.CapturesNothing) (h : p.Goes o w a tr w') :
    captures tr = [] := by
  refine List.filterMap_eq_nil_iff.mpr fun x hx => ?_
  have hcall := hp.goes h x hx
  obtain ⟨c, answer⟩ := x
  cases c with
  | spawn output cmd =>
      cases output with
      | shared => rfl
      | collected => exact hcall.elim
  | _ => rfl

theorem captures_of_own {σ α : Type} {p : Program α} {o : Outside σ} {w w' : World σ} {a : α}
    {tr : List Answered} (hp : p.Only Call.IsOwn) (h : p.Goes o w a tr w') :
    captures tr = [] :=
  captures_of_goes (hp.mono fun _ => Call.IsOwn.capturesNothing) h

/-! ### Calls that others answer -/

def Answered.outward? : Answered → Option Answered
  | ⟨.spawn output cmd, answer⟩ => some ⟨.spawn output cmd, answer⟩
  | ⟨.send url, answer⟩ => some ⟨.send url, answer⟩
  | _ => none

def outward (tr : List Answered) : List Answered := tr.filterMap Answered.outward?

@[simp] theorem outward_append (tr tr' : List Answered) :
    outward (tr ++ tr') = outward tr ++ outward tr' := List.filterMap_append ..

theorem outward_eq_nil {tr : List Answered} (h : ∀ x ∈ tr, x.call.IsOwn) :
    outward tr = [] := by
  refine List.filterMap_eq_nil_iff.mpr fun x hx => ?_
  have hown := h x hx
  obtain ⟨c, answer⟩ := x
  cases c with
  | spawn | send => exact hown.elim
  | _ => rfl

theorem outward_of_own {σ α : Type} {p : Program α} {o : Outside σ} {w w' : World σ} {a : α}
    {tr : List Answered} (hp : p.Only Call.IsOwn) (h : p.Goes o w a tr w') : outward tr = [] :=
  outward_eq_nil (hp.goes h)

theorem captures_outward (tr : List Answered) : captures (outward tr) = captures tr := by
  rw [captures, outward, List.filterMap_filterMap]
  congr 1
  funext ⟨c, answer⟩
  cases c <;> rfl

/-! ### The environments of commands -/

/-- A call that runs no command to do as it likes but one of `P`. -/
def Call.RunsOnly (P : Command → Prop) (c : Call) : Prop :=
  ∀ cmd, c = .spawn .shared cmd → P cmd

theorem Call.IsTame.runsOnly {P : Command → Prop} {c : Call} (h : c.IsTame) :
    c.RunsOnly P := by
  rintro cmd rfl
  exact h.elim

theorem Call.IsOwn.runsOnly {P : Command → Prop} {c : Call} (h : c.IsOwn) : c.RunsOnly P :=
  h.isTame.runsOnly

theorem Program.Only.commands {σ α : Type} {P : Command → Prop} {p : Program α} {o : Outside σ}
    {w w' : World σ} {a : α} {tr : List Answered} (hp : p.Only (Call.RunsOnly P))
    (h : p.Goes o w a tr w') : ∀ y ∈ commands tr, P y.1 := by
  intro y hy
  obtain ⟨⟨c, answer⟩, hx, hxy⟩ := List.mem_filterMap.mp hy
  have hcall := hp.goes h _ hx
  cases c with
  | spawn output cmd =>
      cases output with
      | shared =>
          obtain rfl := Option.some.inj hxy
          exact hcall cmd rfl
      | collected => exact absurd hxy nofun
  | _ => exact absurd hxy nofun

/-- Each command that the program runs to do as it likes is given the environment `vars`. -/
def Program.Gives {α : Type} (vars : Variables) (p : Program α) : Prop :=
  ∀ ⦃σ : Type⦄ (o : Outside σ) (w w' : World σ) (a : α) (tr : List Answered),
    p.Goes o w a tr w' →
    ∀ y ∈ commands tr, y.1.vars = some vars

/-- What an operation has done when it goes on like this, and what it will do. -/
inductive Next.Follows (tr : List Answered) : Next → Prop
  | done {res : Except OperationError Unit} (hcaptures : captures tr = [])
      (hbare : ∀ y ∈ commands tr, y.1.vars = none) : Follows tr (.done res)
  | needs {rest : Variables → Program (Except OperationError Unit)}
      (hcaptures : captures tr = [])
      (hasks : ∀ x ∈ tr, x.call.Asks) (hgives : ∀ vars, (rest vars).Gives vars)
      (hrest : ∀ vars, (rest vars).Only Call.CapturesNothing) : Follows tr (.needs rest)

namespace Operation

open Build (Part)

variable {σ : Type} {o : Outside σ} {v : Bootstrap} {w w' : World σ} {tr : List Answered}

def Skips (v : Bootstrap) (w : World σ) : Operation → Prop
  | .stage p a => w.tree.isDir w.cwd (v.root.marker (p.stage a)) = true
  | .invoke q _ => q.action.compiles = false
  | .get => False

theorem carryOut_runsOnly (v : Bootstrap) (p : Part) (a : Arch) (cmd : Command) :
    (carryOut v p a cmd).Only (Call.RunsOnly (· = cmd)) := by
  refine Only.bind ?_ ?_
  · rw [Part.run_runStage]
    refine Only.bind (.ask ?_) fun answer => ?_
    · rintro _ ⟨⟩
      rfl
    · split
      · exact trivial
      · refine Only.bind (.ask nofun) fun _ => ?_
        refine Only.bind ((Build.reset_onlyOwn v.root _).mono fun _ => Call.IsOwn.runsOnly)
          fun undone => ?_
        refine Only.bind
          ((Build.regret_onlyOwn undone).mono fun _ => Call.IsOwn.runsOnly) fun _ => ?_
        exact trivial
  · rintro (e | ⟨⟩)
    · exact trivial
    · exact ((p.check_onlyOwn rfl).mono fun _ => Call.IsOwn.runsOnly).bind fun _ => trivial

theorem runTool_runsOnly (v : Bootstrap) (cmd : Command) :
    (runTool v cmd).Only (Call.RunsOnly (· = cmd)) := by
  refine Only.bind (.ask nofun) fun _ => Only.bind (.ask ?_) fun answer => trivial
  rintro _ ⟨⟩
  rfl

/-- What is made ready for a part has the environment that was there for it. -/
theorem equip_of_goes {b : Build} {a : Arch} {p : Part}
    {equip : Variables → Program (Except BuildError Command)} {vars : Variables}
    {res : Except BuildError Command} (hequip : p.equip b a = .ok equip)
    (h : (equip vars).Goes o w res tr w') :
    commands tr = [] ∧ ∀ cmd, res = .ok cmd → cmd.vars = some vars := by
  cases p with
  | configure =>
      rw [Part.equip] at hequip
      cases hgenerator : b.host.generator a with
      | error e =>
          rw [hgenerator] at hequip
          exact absurd hequip nofun
      | ok generator =>
          rw [hgenerator] at hequip
          obtain rfl := Except.ok.inj hequip
          obtain ⟨_, w₁, _, _, hsaid, h₁, rfl⟩ := h.of_bind
          obtain ⟨made, w₂, _, _, hmade, h₂, rfl⟩ := h₁.of_bind
          rw [commands_append, commands_append, commands_of_said hsaid,
            commands_of_own (makeDirs_onlyOwn _) hmade]
          rcases made with e | ⟨⟩
          · obtain ⟨rfl, rfl, rfl⟩ := h₂.of_pure
            exact ⟨rfl, nofun⟩
          · obtain ⟨rfl, rfl, rfl⟩ := h₂.of_pure
            refine ⟨rfl, ?_⟩
            rintro _ ⟨⟩
            rfl
  | install =>
      obtain rfl := Except.ok.inj hequip
      obtain ⟨_, w₁, _, _, hsaid, h₁, rfl⟩ := h.of_bind
      obtain ⟨rfl, rfl, rfl⟩ := h₁.of_pure
      rw [List.append_nil]
      refine ⟨commands_of_said hsaid, ?_⟩
      rintro _ ⟨⟩
      rfl

theorem runTool_gives (v : Bootstrap) (cmd : Command) (vars : Variables) :
    (runTool v (cmd.withVars vars)).Gives vars := by
  intro σ o w w' res tr h y hy
  rw [(runTool_runsOnly v _).commands h y hy]
  rfl

theorem equip_gives {p : Part} {a : Arch}
    {equip : Variables → Program (Except BuildError Command)}
    (hequip : p.equip v.build a = .ok equip) (vars : Variables) :
    (equip vars >>= fun
      | .error e => pure (.error (.build e))
      | .ok cmd => carryOut v p a cmd : Program (Except OperationError Unit)).Gives vars := by
  intro σ o w w' res tr h y hy
  obtain ⟨made, w₁, _, _, hmade, h₁, rfl⟩ := h.of_bind
  obtain ⟨hquiet, hvars⟩ := equip_of_goes hequip hmade
  rw [commands_append, hquiet, List.nil_append] at hy
  rcases made with e | cmd
  · rw [h₁.of_pure.2.1] at hy
    exact absurd hy List.not_mem_nil
  · rw [(carryOut_runsOnly v p a cmd).commands h₁ y hy]
    exact hvars cmd rfl

theorem carryOut_capturesNothing (v : Bootstrap) (p : Part) (a : Arch) (cmd : Command) :
    (carryOut v p a cmd).Only Call.CapturesNothing := by
  refine Only.bind ?_ ?_
  · rw [Part.run_runStage]
    refine Only.bind (.ask trivial) fun answer => ?_
    split
    · exact trivial
    · refine Only.bind (.ask trivial) fun _ => ?_
      refine Only.bind
        ((Build.reset_onlyOwn v.root _).mono fun _ => Call.IsOwn.capturesNothing) ?_
      exact fun undone =>
        Only.bind ((Build.regret_onlyOwn undone).mono fun _ => Call.IsOwn.capturesNothing)
        fun _ => trivial
  · rintro (e | ⟨⟩)
    · exact trivial
    · exact ((p.check_onlyOwn rfl).mono fun _ => Call.IsOwn.capturesNothing).bind
        fun _ => trivial

theorem runTool_capturesNothing (v : Bootstrap) (cmd : Command) :
    (runTool v cmd).Only Call.CapturesNothing :=
  .bind (.ask trivial) fun _ => .bind (.ask trivial) fun _ => trivial

theorem equip_capturesNothing {b : Build} {a : Arch} {p : Part}
    {equip : Variables → Program (Except BuildError Command)}
    (hequip : p.equip b a = .ok equip) (vars : Variables) :
    (equip vars).Only Call.CapturesNothing := by
  cases p with
  | configure =>
      rw [Part.equip] at hequip
      cases hgenerator : b.host.generator a with
      | error e =>
          rw [hgenerator] at hequip
          exact absurd hequip nofun
      | ok generator =>
          rw [hgenerator] at hequip
          obtain rfl := Except.ok.inj hequip
          refine Only.bind (.ask trivial) fun _ => ?_
          refine Only.bind ((makeDirs_onlyOwn _).mono fun _ => Call.IsOwn.capturesNothing) ?_
          rintro (e | ⟨⟩) <;> exact trivial
  | install =>
      obtain rfl := Except.ok.inj hequip
      exact Only.bind (.ask trivial) fun _ => trivial

theorem follows_stage {p : Part} {a : Arch} {next : Next}
    (h : ((Operation.stage p a).opening v).Goes o w next tr w') : next.Follows tr := by
  obtain ⟨done, w₁, look, tr₁, hlook, h₁, rfl⟩ := h.of_bind
  have hown := isDir_onlyOwn (v.root.marker (p.stage a))
  have hquiet : commands look = [] := commands_of_own hown hlook
  have hnone : captures look = [] := captures_of_own hown hlook
  cases done with
  | true =>
      obtain ⟨_, w₂, _, _, hsaid, h₂, rfl⟩ := h₁.of_bind
      obtain ⟨rfl, rfl, -⟩ := h₂.of_pure
      refine .done ?_ ?_
      · rw [captures_append, hnone, List.append_nil, hsaid.of_ask.2]
        rfl
      · rw [commands_append, commands_append, hquiet, commands_of_said hsaid]
        exact nofun
  | false =>
      dsimp only at h₁
      cases hequip : p.equip v.build a with
      | error e =>
          rw [hequip] at h₁
          obtain ⟨rfl, rfl, -⟩ := h₁.of_pure
          rw [List.append_nil]
          refine .done hnone ?_
          rw [hquiet]
          exact nofun
      | ok equip =>
          rw [hequip] at h₁
          obtain ⟨rfl, rfl, -⟩ := h₁.of_pure
          rw [List.append_nil]
          refine .needs hnone ((isDir_onlyAsks (v.root.marker (p.stage a))).goes hlook)
            (equip_gives hequip) fun vars => (equip_capturesNothing hequip vars).bind ?_
          rintro (e | cmd)
          · exact trivial
          · exact carryOut_capturesNothing v p a cmd

/-- An operation that needs the environment has only asked until then and gives it to its
command; the command of one that does not need it is not given one. -/
theorem follows_opening {op : Operation} {next : Next}
    (h : (op.opening v).Goes o w next tr w') :
    next.Follows tr := by
  cases op with
  | stage p a => exact follows_stage h
  | invoke q install =>
      rw [opening] at h
      split at h
      · obtain ⟨rfl, rfl, -⟩ := h.of_pure
        exact .done rfl nofun
      rename_i cmd hcmd
      split at h
      · obtain ⟨rfl, rfl, -⟩ := h.of_pure
        exact .needs rfl nofun (runTool_gives v cmd) fun vars => runTool_capturesNothing v _
      · obtain ⟨res, w₁, _, _, htool, h₁, rfl⟩ := h.of_bind
        obtain ⟨rfl, rfl, -⟩ := h₁.of_pure
        rw [List.append_nil]
        refine .done (captures_of_goes (runTool_capturesNothing v cmd) htool) fun y hy => ?_
        rw [(runTool_runsOnly v cmd).commands htool y hy]
        obtain ⟨args, -, rfl⟩ := Downstream.command_eq_ok_iff.mp hcmd
        rfl
  | get =>
      obtain ⟨rfl, rfl, -⟩ := h.of_pure
      refine .needs rfl nofun (fun vars σ o w w' res tr hrest => ?_) fun _ => trivial
      rw [hrest.of_pure.2.1]
      exact nofun

/-- An operation that finds its stage complete, or compiles nothing,
is done without the environment. -/
theorem done_of_skips {op : Operation} {next : Next} (hskips : op.Skips v w)
    (h : (op.opening v).Goes o w next tr w') : ∃ res, next = .done res := by
  cases op with
  | stage p a =>
      obtain ⟨done, w₁, _, _, hlook, h₁, rfl⟩ := h.of_bind
      obtain rfl : done = true := (Root.goes_isComplete hlook).2.trans hskips
      obtain ⟨_, w₂, _, _, -, h₂, rfl⟩ := h₁.of_bind
      exact ⟨_, h₂.of_pure.1⟩
  | invoke q install =>
      rw [opening] at h
      split at h
      · exact ⟨_, h.of_pure.1⟩
      · rw [show q.action.compiles = false from hskips] at h
        obtain ⟨res, w₁, _, _, -, h₁, rfl⟩ := h.of_bind
        exact ⟨_, h₁.of_pure.1⟩
  | get => exact hskips.elim

end Operation

/-- A run that has only asked has left the files as they are, if what it collected does. -/
theorem Program.Goes.tree_of_asks {σ α : Type} {p : Program α} {o : Outside σ}
    {w w' : World σ} {a : α} {tr : List Answered} (h : p.Goes o w a tr w')
    (hasks : ∀ x ∈ tr, x.call.Asks) (ho : o.CollectsOnly) : w'.tree = w.tree := by
  induction p generalizing w tr with
  | done b => rw [h.of_pure.2.2]
  | call c next ih =>
      obtain ⟨answer, w₁, asked, rest, hcall, hrest, rfl⟩ :=
        Goes.of_bind (p := ask c) (f := next) h
      obtain ⟨hperform, rfl⟩ := hcall.of_ask
      have htree := (World.perform_asks ho (hasks ⟨c, answer⟩ List.mem_cons_self) w).1
      rw [hperform] at htree
      rw [ih answer hrest fun x hx => hasks x (List.mem_cons_of_mem _ hx), htree]

/-! ### Turns -/

/-- One operation among others that share its toolchain, as it was done: from some world,
whatever has become of that since the operation before. -/
structure Turn : Type 1 where
  op : Operation
  {σ : Type}
  outside : Outside σ
  start : World σ
  stop : World σ
  before : Toolchain
  after : Toolchain
  res : Except OperationError Unit
  calls : List Answered

namespace Turn

variable {v : Bootstrap} {x : Turn} {vars : Variables}

def Happens (v : Bootstrap) (x : Turn) : Prop :=
  ((x.op.work v).start x.before).Goes x.outside x.start (x.res, x.after) x.calls x.stop

def doing (v : Bootstrap) (op : Operation) (t : Toolchain) {σ : Type} (o : Outside σ)
    (w : World σ) :
    Turn :=
  let p := (op.work v).start t
  ⟨op, o, w, (p.run o w).2, t, (p.run o w).1.2, (p.run o w).1.1, p.trace o w⟩

theorem happens_doing {σ : Type} (v : Bootstrap) (op : Operation) (t : Toolchain)
    (o : Outside σ) (w : World σ) : (doing v op t o w).Happens v :=
  ⟨rfl, rfl⟩

/-- The toolchain is left as it is, and the turn would happen just so if the platform made its
environments in any other way: it is not asked for one. -/
structure AsksForNone (v : Bootstrap) (x : Turn) : Prop where
  after : x.after = x.before
  captures : captures x.calls = []
  happens : ∀ f, x.Happens (v.withEnvironment f)

def Gives (vars : Option Variables) (x : Turn) : Prop :=
  ∀ y ∈ commands x.calls, y.1.vars = none ∨ y.1.vars = vars

inductive Settles (v : Bootstrap) (x : Turn) : Prop
  /-- It does not need one. -/
  | unneeded (hnone : x.AsksForNone v) (hbare : x.Gives none)
  /-- None could be made: that ends the turn, which has only asked until then. -/
  | failed {e : PlatformError} {looks asking : List Answered} {w : World x.σ}
      (hcalls : x.calls = looks ++ asking)
      (hasking : (v.host.environment x.before.arch).run.Goes x.outside w
        (.error e) asking x.stop)
      (honly : ∀ f, (f x.before.arch).run.Goes x.outside w (.error e) asking x.stop →
        x.Happens (v.withEnvironment f))
      (hafter : x.after = x.before) (hres : x.res = .error (x.op.unmade e))
      (hcaptures : captures x.calls = captures asking) (hasks : ∀ y ∈ x.calls, y.call.Asks)
      (hcommands : commands x.calls = [])
      (htree : x.outside.CollectsOnly → x.stop.tree = x.start.tree)
  /-- It was made, once, for the architecture of the toolchain. -/
  | made {vars : Variables} {looks asking rest : List Answered} {w w' : World x.σ}
      (hcalls : x.calls = looks ++ (asking ++ rest)) (hlooks : ∀ y ∈ looks, y.call.Asks)
      (hasking : (v.host.environment x.before.arch).run.Goes x.outside w (.ok vars) asking w')
      (honly : ∀ f, (f x.before.arch).run.Goes x.outside w (.ok vars) asking w' →
        x.Happens (v.withEnvironment f))
      (hafter : x.after = ⟨x.before.arch, some vars⟩)
      (hcaptures : captures x.calls = captures asking) (hgives : x.Gives (some vars))

theorem happens_iff : x.Happens v ↔
    (x.op.opening v >>= x.op.resume v x.before).Goes x.outside x.start
      (x.res, x.after) x.calls x.stop := by
  rw [Happens, Operation.start_work]

theorem asksForNone_of_done {res : Except OperationError Unit} {tr tr' : List Answered}
    {w : World x.σ} (hopen : (x.op.opening v).Goes x.outside x.start (.done res) tr w)
    (hrest : (x.op.resume v x.before (.done res)).Goes x.outside w (x.res, x.after) tr' x.stop)
    (hcalls : x.calls = tr ++ tr') : x.AsksForNone v ∧ x.Gives none := by
  obtain ⟨hcaptures, hbare⟩ := Operation.follows_opening hopen
  obtain ⟨hres, rfl, -⟩ := hrest.of_pure
  rw [List.append_nil] at hcalls
  refine ⟨⟨(Prod.mk.inj hres).2, hcalls ▸ hcaptures, fun f => happens_iff.mpr ?_⟩,
    fun y hy => ?_⟩
  · rw [hcalls, Operation.opening_withEnvironment, ← List.append_nil tr]
    exact hopen.bind hrest
  · exact .inl (hbare y (hcalls ▸ hy))

/-- With an environment there is no need to ask for one, and it is the
one that commands are given. -/
theorem asksForNone_of_some (h : x.Happens v) (hvars : x.before.vars = some vars) :
    x.AsksForNone v ∧ x.Gives (some vars) := by
  obtain ⟨next, w, tr, tr', hopen, hrest, hcalls⟩ := (happens_iff.mp h).of_bind
  cases next with
  | done res =>
      obtain ⟨hnone, hbare⟩ := asksForNone_of_done hopen hrest hcalls
      exact ⟨hnone, fun y hy => .inl ((hbare y hy).elim id id)⟩
  | needs rest =>
      obtain _ | ⟨hcaptures, hasks, hgives, hnothing⟩ := Operation.follows_opening hopen
      rw [Operation.resume_of_some hvars] at hrest
      obtain ⟨res, w₁, tr₁, _, hdone, hend, rfl⟩ := hrest.of_bind
      obtain ⟨hres, rfl, hstop⟩ := hend.of_pure
      rw [List.append_nil] at hcalls
      refine ⟨⟨(Prod.mk.inj hres).2, ?_, fun f => happens_iff.mpr ?_⟩, fun y hy => .inr ?_⟩
      · rw [hcalls, captures_append, hcaptures, captures_of_goes (hnothing vars) hdone]
        rfl
      · rw [hcalls, Operation.opening_withEnvironment]
        refine hopen.bind ?_
        rw [Operation.resume_of_some hvars, hres, hstop, ← List.append_nil tr₁]
        exact hdone.bind ⟨rfl, rfl⟩
      · have hquiet : commands tr = [] := commands_eq_nil fun z hz => (hasks z hz).isTame
        rw [hcalls, commands_append, hquiet] at hy
        exact hgives vars _ _ _ _ _ hdone y hy

/-- An operation that skips its stage or compiles nothing asks for no environment. -/
theorem asksForNone_of_skips (h : x.Happens v) (hskips : x.op.Skips v x.start) :
    x.AsksForNone v := by
  obtain ⟨next, w, tr, tr', hopen, hrest, hcalls⟩ := (happens_iff.mp h).of_bind
  obtain ⟨res, rfl⟩ := Operation.done_of_skips hskips hopen
  exact (asksForNone_of_done hopen hrest hcalls).1

theorem settles_of_none (hasks : v.host.OnlyAsks) (h : x.Happens v)
    (hnone : x.before.vars = none) :
    x.Settles v := by
  obtain ⟨next, w, looks, tr', hopen, hrest, hcalls⟩ := (happens_iff.mp h).of_bind
  cases next with
  | done res =>
      obtain ⟨hnone, hbare⟩ := asksForNone_of_done hopen hrest hcalls
      exact .unneeded hnone hbare
  | needs rest =>
      obtain _ | ⟨hcaptures, hlooks, hgives, hnothing⟩ := Operation.follows_opening hopen
      rw [Operation.resume_of_none hnone] at hrest
      obtain ⟨made, w₁, asking, tr₁, hasking, hdone, rfl⟩ := hrest.of_bind
      have hquiet : ∀ y ∈ asking, y.call.Asks := (hasks _).goes hasking
      -- A host that asks this way for every architecture comes to the same here.
      have hhappens (f : Arch → Attempt PlatformError Variables)
          (hf : (f x.before.arch).run.Goes x.outside w made asking w₁) :
          x.Happens (v.withEnvironment f) := by
        rw [happens_iff, hcalls, Operation.opening_withEnvironment]
        refine hopen.bind ?_
        rw [Operation.resume_of_none hnone]
        exact hf.bind hdone
      rcases made with e | vars
      · obtain ⟨hres, rfl, hstop⟩ := hdone.of_pure
        obtain ⟨hres, hafter⟩ := Prod.mk.inj hres
        rw [List.append_nil] at hcalls
        subst hstop
        have hall : ∀ y ∈ x.calls, y.call.Asks := fun y hy =>
          (List.mem_append.mp (hcalls ▸ hy)).elim (hlooks y) (hquiet y)
        have hcap : captures x.calls = captures asking := by
          rw [hcalls, captures_append, hcaptures, List.nil_append]
        exact .failed hcalls hasking hhappens hafter hres hcap hall
          (commands_eq_nil fun y hy => (hall y hy).isTame) (h.tree_of_asks hall)
      · obtain ⟨res, w₂, tr₂, _, hcarry, hend, rfl⟩ := hdone.of_bind
        obtain ⟨hres, rfl, -⟩ := hend.of_pure
        have hcap : captures x.calls = captures asking := by
          rw [hcalls, List.append_nil, captures_append, captures_append, hcaptures,
            captures_of_goes (hnothing vars) hcarry, List.nil_append, List.append_nil]
        refine .made hcalls hlooks hasking hhappens
          (Prod.mk.inj hres).2 hcap fun y hy => .inr ?_
        rw [hcalls, List.append_nil, commands_append, commands_append,
          commands_eq_nil fun y hy => (hlooks y hy).isTame,
          commands_eq_nil fun y hy => (hquiet y hy).isTame] at hy
        exact hgives vars _ _ _ _ _ hcarry y hy

theorem arch_after (hasks : v.host.OnlyAsks) (h : x.Happens v) :
    x.after.arch = x.before.arch := by
  cases hvars : x.before.vars with
  | some vars => rw [(asksForNone_of_some h hvars).1.after]
  | none =>
      cases settles_of_none hasks h hvars with
      | unneeded hnone => rw [hnone.after]
      | failed _ _ _ hafter => rw [hafter]
      | made _ _ _ _ hafter => rw [hafter]

end Turn

/-! ### Series of turns -/

/-- Turns one after another from a toolchain on, each with the
toolchain that the one before has left. -/
inductive Series (v : Bootstrap) : Toolchain → List Turn → Prop
  | nil (t : Toolchain) : Series v t []
  | cons {x : Turn} {xs : List Turn} (h : x.Happens v) (hrest : Series v x.after xs) :
      Series v x.before (x :: xs)

namespace Series

variable {v : Bootstrap} {t : Toolchain} {turns : List Turn}

theorem happens (h : Series v t turns) : ∀ x ∈ turns, x.Happens v := by
  induction h with
  | nil => exact fun _ hx => absurd hx List.not_mem_nil
  | cons h hrest ih => exact List.forall_mem_cons.mpr ⟨h, ih⟩

theorem arch (hasks : v.host.OnlyAsks) (h : Series v t turns) :
    ∀ x ∈ turns, x.before.arch = t.arch := by
  induction h with
  | nil => exact fun _ hx => absurd hx List.not_mem_nil
  | cons h hrest ih =>
      refine List.forall_mem_cons.mpr ⟨rfl, fun x hx => ?_⟩
      rw [ih x hx, Turn.arch_after hasks h]

/-- Once the environment is there, no turn asks for one or changes it. -/
theorem of_some {vars : Variables} (h : Series v t turns) (hvars : t.vars = some vars) :
    ∀ x ∈ turns, x.before = t ∧ x.AsksForNone v ∧ x.Gives (some vars) := by
  induction h with
  | nil => exact fun _ hx => absurd hx List.not_mem_nil
  | cons h hrest ih =>
      have hx := Turn.asksForNone_of_some h hvars
      rw [hx.1.after] at ih
      exact List.forall_mem_cons.mpr ⟨⟨rfl, hx⟩, ih hvars⟩

theorem pairwise (h : Series v t turns) :
    turns.Pairwise fun x y => ∀ vars, x.after.vars = some vars →
    y.before = x.after ∧ y.AsksForNone v ∧ y.Gives (some vars) := by
  induction h with
  | nil => exact .nil
  | cons h hrest ih => exact .cons (fun y hy vars hvars => hrest.of_some hvars y hy) ih

end Series

end LlvmBootstrap
