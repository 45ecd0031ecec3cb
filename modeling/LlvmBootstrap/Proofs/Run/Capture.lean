import Mathlib
import LlvmBootstrap.Proofs.Downstream.Arguments
import LlvmBootstrap.Proofs.Run.Environment
import LlvmBootstrap.Proofs.Run.Order

/-!
The environment of a whole run. What a run does with its toolchain is a series of turns that
ends with the first that fails, so the environment is made once at most. It is that of the
architecture the run is for, and so is everything else that depends on one.
-/

namespace LlvmBootstrap

open Program

/-- What a platform collects to make an environment: nothing, or what the init script for the
architecture leaves behind. -/
def Platform.Collects (p : Platform) (a : Arch) (cmds : List Command) : Prop :=
  cmds = [] ∨ ∃ m install, p = .msvc m ∧ cmds = [Msvc.initCommand install a]

/-- To make an environment a platform asks others for nothing, or runs the init script. -/
theorem Platform.outward_environment {σ : Type} {o : Outside σ} {p : Platform} {a : Arch}
    {w w' : World σ} {res : Except PlatformError Variables} {tr : List Answered}
    (h : (p.environment a).run.Goes o w res tr w') : outward tr = [] ∨
      ∃ m install answer, p = .msvc m ∧
        outward tr = [⟨.spawn .collected (Msvc.initCommand install a), answer⟩] := by
  cases p with
  | unix u =>
      obtain ⟨environ, w₁, _, _, hask, h₁, rfl⟩ := h.of_attempt_lift_bind
      rw [h₁.of_pure.2.1, hask.of_ask.2]
      exact .inl rfl
  | msvc m =>
      rcases h.of_attempt_bind with ⟨e, -, hfind⟩ | ⟨install, w₁, _, _, hfind, h₁, rfl⟩
      · exact .inl (outward_of_own m.findInstall_onlyOwn hfind)
      obtain ⟨_, w₂, _, _, hsaid, h₂, rfl⟩ := h₁.of_attempt_lift_bind
      obtain ⟨answer, w₃, _, rest, hspawn, h₃, rfl⟩ := h₂.of_attempt_lift_bind
      have hrest : rest = [] := by
        rcases answer with e | f
        · exact h₃.of_pure.2.1
        · dsimp only at h₃
          split at h₃
          · exact h₃.of_pure.2.1
          · split at h₃ <;> exact h₃.of_pure.2.1
      rw [outward_append, outward_append, outward_append, hrest,
        outward_of_own m.findInstall_onlyOwn hfind, hsaid.of_ask.2, hspawn.of_ask.2]
      exact .inr ⟨m, install, answer, rfl, rfl⟩

theorem Platform.collects_environment {σ : Type} {o : Outside σ} {p : Platform} {a : Arch}
    {w w' : World σ} {res : Except PlatformError Variables} {tr : List Answered}
    (h : (p.environment a).run.Goes o w res tr w') : p.Collects a (captures tr) := by
  rw [← captures_outward]
  rcases p.outward_environment h with hnone | ⟨m, install, answer, hp, hone⟩
  · rw [hnone]
    exact .inl rfl
  · rw [hone]
    exact .inr ⟨m, install, hp, rfl⟩

namespace Turn

variable {v : Bootstrap} {p : Platform} {x : Turn}

/-- A turn collects something only to make the environment that its
toolchain does not have yet. -/
theorem collects_of_happens (hp : v.host = p) (h : x.Happens v) : captures x.calls = [] ∨
    x.before.vars = none ∧ (x.res = .ok () → x.after.vars.isSome = true) ∧
      p.Collects x.before.arch (captures x.calls) := by
  have hasks : v.host.OnlyAsks := hp ▸ p.onlyAsks
  cases hvars : x.before.vars with
  | some vars => exact .inl (asksForNone_of_some h hvars).1.captures
  | none =>
      cases settles_of_none hasks h hvars with
      | unneeded hnone => exact .inl hnone.captures
      | failed _ hasking _ _ hres hcaptures =>
          rw [hp] at hasking
          refine .inr ⟨rfl, fun hok => absurd (hres.symm.trans hok) nofun, ?_⟩
          exact hcaptures ▸ Platform.collects_environment hasking
      | made _ _ hasking _ hafter hcaptures =>
          rw [hp] at hasking
          refine .inr ⟨rfl, fun _ => ?_, hcaptures ▸ Platform.collects_environment hasking⟩
          rw [hafter]
          rfl

theorem vars_of_after (h : x.Happens v) (hafter : x.after.vars = none) :
    x.before.vars = none := by
  cases hvars : x.before.vars with
  | some vars =>
      rw [(asksForNone_of_some h hvars).1.after, hvars] at hafter
      exact hafter
  | none => rfl

end Turn

/-- A series that goes on only while nothing fails makes the environment once at most. -/
theorem Series.collects {v : Bootstrap} {p : Platform} {t : Toolchain} {turns : List Turn}
    (hp : v.host = p) (h : Series v t turns) (hok : ∀ x ∈ turns.dropLast, x.res = .ok ()) :
    turns.flatMap (captures ·.calls) = [] ∨
      t.vars = none ∧ p.Collects t.arch (turns.flatMap (captures ·.calls)) := by
  have hasks : v.host.OnlyAsks := hp ▸ p.onlyAsks
  induction h with
  | nil => exact .inl rfl
  | @cons x xs h hrest ih =>
      cases xs with
      | nil =>
          rw [List.flatMap_singleton]
          exact (Turn.collects_of_happens hp h).imp id fun ⟨hnone, _, hcollects⟩ =>
            ⟨hnone, hcollects⟩
      | cons y ys =>
          have hlater := ih fun z hz => hok z (List.mem_cons_of_mem _ hz)
          rw [List.flatMap_cons]
          rcases Turn.collects_of_happens hp h with hnothing | ⟨hnone, hmade, hcollects⟩
          · rw [hnothing, List.nil_append, ← Turn.arch_after hasks h]
            exact hlater.imp id (And.imp_left (Turn.vars_of_after h))
          · obtain ⟨vars, hvars⟩ :=
              Option.isSome_iff_exists.mp (hmade (hok x List.mem_cons_self))
            have hquiet : (y :: ys).flatMap (captures ·.calls) = [] :=
              List.flatMap_eq_nil_iff.mpr fun z hz => (hrest.of_some hvars z hz).2.1.captures
            rw [hquiet, List.append_nil]
            exact .inr ⟨hnone, hcollects⟩

/-! ### The turns of a run -/

namespace Bootstrap

open Build (Does Part)

variable {σ : Type} {o : Outside σ} {v : Bootstrap} {a : Arch} {q : Request} {t t' : Toolchain}
  {w w' : World σ} {c i d : Option Tried} {tr : List Answered}

def operations (v : Bootstrap) (q : Request) : List Operation :=
  [.stage .configure q.arch, .stage .install q.arch, .invoke q (v.root.install q.arch)]

/-- The run has taken these turns, and with them run all its commands. -/
structure Takes (v : Bootstrap) (q : Request) (tr : List Answered)
    (turns : List Turn) : Prop where
  series : Series v (.of q.arch) turns
  ops : turns.map (·.op) <+: v.operations q
  ok : ∀ x ∈ turns.dropLast, x.res = .ok ()
  commands : LlvmBootstrap.commands tr = turns.flatMap (LlvmBootstrap.commands ·.calls)
  captures : LlvmBootstrap.captures tr = turns.flatMap (LlvmBootstrap.captures ·.calls)

/-- A part of a build as a turn. -/
theorem exists_turn_of_part {p : Part} {tried : Option Tried}
    {res : Except BuildError StageOutcome} (h : p.Went o v.build a t w tried res t' tr w') :
    ∃ x : Turn, x.Happens v ∧ x.op = .stage p a ∧ x.before = t ∧ x.after = t' ∧ x.calls = tr ∧
      (∀ out, res = .ok out → x.res = .ok ()) := by
  refine ⟨⟨.stage p a, o, w, w', t, t', (res.mapError .build).map fun _ => (), tr⟩, ?_,
    rfl, rfl, rfl,
    rfl, ?_⟩
  · rw [Turn.Happens]
    change Goes o
      (((p.work v.build a).adapt OperationError.build >>= fun _ => pure ()).start t) _ _ _ _
    rw [Work.start_bind, Work.start_adapt, LawfulMonad.bind_assoc, ← List.append_nil tr]
    refine h.goes.bind ?_
    cases res <;> exact ⟨rfl, rfl⟩
  · rintro out rfl
    rfl

theorem exists_turn_of_invoke {res : Except InvokeError Unit} {install : Path}
    (h : v.downstream.Went o q install t w d res t' tr w') :
    ∃ x : Turn, x.Happens v ∧ x.op = .invoke q install ∧ x.before = t ∧ x.calls = tr := by
  refine ⟨⟨.invoke q install, o, w, w', t, t', res.mapError .invoke, tr⟩, ?_, rfl, rfl, rfl⟩
  rw [Turn.Happens]
  change Goes o (((v.downstream.invoke q install).adapt OperationError.invoke).start t) _ _ _ _
  rw [Work.start_adapt, ← List.append_nil tr]
  exact h.goes.bind ⟨rfl, rfl⟩

def Quiet (tr : List Answered) : Prop :=
  LlvmBootstrap.commands tr = [] ∧ LlvmBootstrap.captures tr = []

theorem quiet_of_goes {α : Type} {p : Program α} {res : α} (hp : p.Only Call.SpawnsNothing)
    (h : p.Goes o w res tr w') : Quiet tr :=
  ⟨commands_of_goes (hp.mono fun _ => Call.SpawnsNothing.isTame) h,
    captures_of_goes (hp.mono fun _ => Call.SpawnsNothing.capturesNothing) h⟩

theorem quiet_of_ask {call : Call} {answer : call.Answer}
    (h : (ask call).Goes o w answer tr w') (hcall : call.SpawnsNothing) : Quiet tr :=
  quiet_of_goes (.ask hcall) h

structure Took (v : Bootstrap) (q : Request) (t : Toolchain) (tr : List Answered)
    (turns : List Turn) :
    Prop where
  series : ∀ rest, Series v t rest → Series v (.of q.arch) (turns ++ rest)
  ok : ∀ x ∈ turns, x.res = .ok ()
  commands : LlvmBootstrap.commands tr = turns.flatMap (LlvmBootstrap.commands ·.calls)
  captures : LlvmBootstrap.captures tr = turns.flatMap (LlvmBootstrap.captures ·.calls)

namespace Took

variable {turns : List Turn} {x : Turn} {tr' : List Answered}

theorem start (h : Quiet tr) : Took v q (.of q.arch) tr [] :=
  ⟨fun _ h => h, fun _ h => absurd h List.not_mem_nil, h.1, h.2⟩

theorem quiet (h : Took v q t tr turns) (hq : Quiet tr') : Took v q t (tr ++ tr') turns where
  series := h.series
  ok := h.ok
  commands := by rw [commands_append, hq.1, List.append_nil, h.commands]
  captures := by rw [captures_append, hq.2, List.append_nil, h.captures]

theorem turn (h : Took v q x.before tr turns) (hx : x.Happens v) (hok : x.res = .ok ()) :
    Took v q x.after (tr ++ x.calls) (turns ++ [x]) where
  series rest hrest := by
    rw [List.append_assoc]
    exact h.series _ (.cons hx hrest)
  ok := List.forall_mem_append.mpr ⟨h.ok, List.forall_mem_singleton.mpr hok⟩
  commands := by rw [commands_append, List.flatMap_append, List.flatMap_singleton, h.commands]
  captures := by rw [captures_append, List.flatMap_append, List.flatMap_singleton, h.captures]

theorem takes (h : Took v q t tr turns) (hops : turns.map (·.op) <+: v.operations q) :
    Takes v q tr turns where
  series := List.append_nil turns ▸ h.series [] (.nil _)
  ops := hops
  ok x hx := h.ok x (List.dropLast_subset _ hx)
  commands := h.commands
  captures := h.captures

/-- A turn that may have failed is the last one. -/
theorem takes_last (h : Took v q x.before tr turns) (hx : x.Happens v)
    (hops : (turns ++ [x]).map (·.op) <+: v.operations q) (hq : Quiet tr') :
    Takes v q (tr ++ (x.calls ++ tr')) (turns ++ [x]) where
  series := h.series [x] (.cons hx (.nil _))
  ops := hops
  ok y hy := h.ok y (by rwa [List.dropLast_concat] at hy)
  commands := by
    rw [commands_append, commands_append, hq.1, List.append_nil, List.flatMap_append,
      List.flatMap_singleton, h.commands]
  captures := by
    rw [captures_append, captures_append, hq.2, List.append_nil, List.flatMap_append,
      List.flatMap_singleton, h.captures]

end Took

/-- What a run does besides its turns runs nothing. -/
theorem takes_of_prepare {res : Except BootstrapError Path}
    (h : PrepareCourse o v q.arch q.action.subcommand (.of q.arch) w c i res t' tr w') :
    (∀ e, res = .error e → ∃ turns, Takes v q tr turns) ∧
      ∀ p, res = .ok p → ∃ turns, Took v q t' tr turns ∧
        turns.map (·.op) = [.stage .configure q.arch, .stage .install q.arch] := by
  have hown {α : Type} {p : Program α} {res tr₁ w₁ w₂} (hp : p.Only Call.IsOwn)
      (h : p.Goes o w₁ res tr₁ w₂) : Quiet tr₁ :=
    quiet_of_goes (hp.mono fun _ => Call.IsOwn.spawnsNothing) h
  have hfetched {res fetching w₁ w₂}
      (h : (Sources.fetch v.settings.archive v.root v.root.record).run.Goes
        o w₁ res fetching w₂) :
      Quiet fetching := quiet_of_goes (Sources.fetch_spawnsNothing ..) h
  cases h with
  | refused hlock =>
      have htaken := Took.start (v := v) (q := q) (hown (RootLock.acquire_onlyOwn ..) hlock)
      exact ⟨fun _ _ => ⟨[], htaken.takes List.nil_prefix⟩, nofun⟩
  | held hlock hsteps hfree =>
      have htaken := Took.start (v := v) (q := q) (hown (RootLock.acquire_onlyOwn ..) hlock)
      have hfreed := quiet_of_ask hfree trivial
      -- However far the steps come, the environments are those of the stages
      -- that were tried, in their order.
      cases hsteps with
      | unfetched hfetch =>
          have hend := (htaken.quiet (hfetched hfetch)).quiet hfreed
          rw [List.append_assoc] at hend
          exact ⟨fun _ _ => ⟨[], hend.takes List.nil_prefix⟩, nofun⟩
      | unconfigured hfetch hconfigure =>
          obtain ⟨x, hx, hop, hbefore, -, rfl, -⟩ := exists_turn_of_part hconfigure
          have hend := (hbefore ▸ htaken.quiet (hfetched hfetch)).takes_last hx
            (by simp [operations, hop]) hfreed
          simp only [List.append_assoc] at hend ⊢
          exact ⟨fun _ _ => ⟨_, hend⟩, nofun⟩
      | uninstalled hfetch hconfigure hinstall =>
          obtain ⟨x, hx, hop, hbefore, rfl, rfl, hok⟩ := exists_turn_of_part hconfigure
          obtain ⟨y, hy, hop', hbefore', -, rfl, -⟩ := exists_turn_of_part hinstall
          have hconfigured := (hbefore ▸ htaken.quiet (hfetched hfetch)).turn hx (hok _ rfl)
          have hend :=
            (hbefore' ▸ hconfigured).takes_last hy (by simp [operations, hop, hop']) hfreed
          simp only [List.append_assoc] at hend ⊢
          exact ⟨fun _ _ => ⟨_, hend⟩, nofun⟩
      | done hfetch hconfigure hinstall hsaid =>
          obtain ⟨x, hx, hop, hbefore, rfl, rfl, hok⟩ := exists_turn_of_part hconfigure
          obtain ⟨y, hy, hop', hbefore', rfl, rfl, hok'⟩ := exists_turn_of_part hinstall
          have hconfigured := (hbefore ▸ htaken.quiet (hfetched hfetch)).turn hx (hok _ rfl)
          have hinstalled := (hbefore' ▸ hconfigured).turn hy (hok' _ rfl)
          have hend := (hinstalled.quiet (quiet_of_ask hsaid trivial)).quiet hfreed
          simp only [List.append_assoc] at hend ⊢
          exact ⟨nofun, fun _ _ => ⟨_, hend, by simp [hop, hop']⟩⟩

theorem takes_of_course {res : Except BootstrapError Unit}
    (h : Course o v q w c i d res tr w') :
    ∃ turns, Takes v q tr turns := by
  cases h with
  | unprepared hprepare => exact (takes_of_prepare hprepare).1 _ rfl
  | prepared hprepare hinvoke =>
      obtain ⟨turns, htook, hops⟩ := (takes_of_prepare hprepare).2 _ rfl
      obtain rfl := hprepare.eq_install
      obtain ⟨x, hx, hop, hbefore, rfl⟩ := exists_turn_of_invoke hinvoke
      have hquiet : Quiet [] := ⟨rfl, rfl⟩
      have hend := (hbefore ▸ htook).takes_last hx (by simp [operations, hops, hop]) hquiet
      rw [List.append_nil] at hend
      exact ⟨_, hend⟩

/-! ### The architecture of a run -/

structure IsFor (v : Bootstrap) (p : Platform) (q : Request)
    (c i d : Option Tried) : Prop where
  configure : ∀ x ∈ c, ∃ vars, x.1 = v.build.configureCommand q.arch (p.generator q.arch) vars
  install : ∀ x ∈ i, ∃ vars, x.1 = v.build.installCommand q.arch vars
  tool : ∀ x ∈ d, v.downstream.Does q (v.root.install q.arch) x.1
  target : q.action.needsTarget = true → ∀ x ∈ d, ∃ triple rest, p.triple q.arch = .ok triple ∧
    x.1.args = ([q.action.subcommand, "--target", triple] ++ rest).map Utf8.encode

theorem generator_of_went {b : Build} {tried : Option Tried}
    {res : Except BuildError StageOutcome}
    (h : Part.configure.Went o b a t w tried res t' tr w') :
    ∀ x ∈ tried, ∃ generator vars, b.host.generator a = .ok generator ∧
      x.1 = b.configureCommand a generator vars := by
  obtain ⟨resets, hcourse⟩ := h.course
  cases hcourse with
  | skipped | stopped => exact nofun
  | ran hlook hready | reset hlook hready =>
      rintro _ ⟨⟩
      exact Build.generator_of_ready hready

theorem target_of_does {d : Downstream} {install : Path} {cmd : Command}
    (h : d.Does q install cmd) (hq : q.action.needsTarget = true) :
    ∃ triple rest, d.host.triple q.arch = .ok triple ∧
      cmd.args = ([q.action.subcommand, "--target", triple] ++ rest).map Utf8.encode := by
  obtain ⟨plain, hcommand, hargs⟩ : ∃ plain, d.command q install = .ok plain ∧
      cmd.args = plain.args := by
    cases h with
    | plain hcommand => exact ⟨_, hcommand, rfl⟩
    | equipped vars hcommand => exact ⟨_, hcommand, rfl⟩
  obtain ⟨triple, htriple⟩ := Downstream.exists_triple_of_command hcommand hq
  have hwords := Downstream.args_of_command hcommand
  rw [Downstream.words, Downstream.options, if_pos hq, htriple, ← List.map_append] at hwords
  exact ⟨triple, _, htriple, hargs.trans hwords⟩

theorem configure_of_prepare {command : String} {res : Except BootstrapError Path}
    (h : PrepareCourse o v a command t w c i res t' tr w') :
    ∀ x ∈ c, ∃ generator vars, v.host.generator a = .ok generator ∧
      x.1 = v.build.configureCommand a generator vars := by
  cases h with
  | refused => exact nofun
  | held hlock hsteps =>
      cases hsteps with
      | unfetched => exact nofun
      | unconfigured hfetch hconfigure
      | uninstalled hfetch hconfigure
      | done hfetch hconfigure => exact generator_of_went hconfigure

theorem configure_of_course {res : Except BootstrapError Unit}
    (h : Course o v q w c i d res tr w') :
    ∀ x ∈ c, ∃ generator vars, v.host.generator q.arch = .ok generator ∧
      x.1 = v.build.configureCommand q.arch generator vars := by
  cases h with
  | unprepared hprepare | prepared hprepare => exact configure_of_prepare hprepare

theorem isFor_of_course {p : Platform} {res : Except BootstrapError Unit} (hp : v.host = p)
    (h : Course o v q w c i d res tr w') (hordered : Ordered v q c i d res tr) :
    IsFor v p q c i d where
  configure x hx := by
    obtain ⟨generator, vars, hgenerator, hcmd⟩ := configure_of_course h x hx
    rw [hp] at hgenerator
    obtain rfl := Except.ok.inj hgenerator
    exact ⟨vars, hcmd⟩
  install x hx := by
    obtain ⟨cmd, answer⟩ := x
    cases hordered.install _ hx with
    | install vars => exact ⟨vars, rfl⟩
  tool := hordered.tool
  target hq x hx := by
    have htarget := target_of_does (hordered.tool x hx) hq
    rwa [show v.downstream.host = p from hp] at htarget

end Bootstrap

/-! ### The environment of a run -/

/-- Operations that share a toolchain have its environment made once: until then each is
done without one, or fails for want of one, or has it made; from then on the platform is not
asked again and the commands are given that one environment. A run is a series of such
operations. It collects the output of one command at most, and all that depends on an
architecture is of the one that it is for. -/
theorem Bootstrap.environment_once (settings : Settings) (root : Root) (p : Platform) :
    let v : Bootstrap := ⟨settings, root, p⟩
    (∀ a turns, Series v (.of a) turns →
      (∀ x ∈ turns, x.before.arch = a ∧ (x.before.vars = none → x.Settles v) ∧
        (x.op.Skips v x.start → x.AsksForNone v)) ∧
      turns.Pairwise fun x y => ∀ vars, x.after.vars = some vars →
        y.before = x.after ∧ y.AsksForNone v ∧ y.Gives (some vars)) ∧
    ∀ {σ : Type} (o : Outside σ) (w : World σ) (q : Request),
      (v.run q).Traced o (fun res tr w' => ∃ turns c i d,
        v.Takes q tr turns ∧ p.Collects q.arch (captures tr) ∧
        Bootstrap.Course o v q w c i d res tr w' ∧ v.IsFor p q c i d) w := by
  refine ⟨fun a turns h => ⟨fun x hx => ?_, h.pairwise⟩, fun o w q => ?_⟩
  · have hhappens := h.happens x hx
    exact ⟨h.arch p.onlyAsks x hx, Turn.settles_of_none p.onlyAsks hhappens,
      Turn.asksForNone_of_skips hhappens⟩
  · obtain ⟨c, i, d, hcourse, hordered⟩ := Bootstrap.ordered_of_goes (v := ⟨settings, root, p⟩)
      p.onlyAsks p.isCareful (Goes.run o (Bootstrap.run ⟨settings, root, p⟩ q) w)
    obtain ⟨turns, htakes⟩ := Bootstrap.takes_of_course hcourse
    refine ⟨turns, c, i, d, htakes, ?_, hcourse,
      Bootstrap.isFor_of_course rfl hcourse hordered⟩
    rw [htakes.captures]
    rcases htakes.series.collects rfl htakes.ok with hnothing | ⟨-, hcollects⟩
    · exact .inl hnothing
    · exact hcollects

/-! An environment that was made of no variables is the one of a later build, when there are
some. -/

def onLinux : Bootstrap := ⟨.default, ⟨"llvm"⟩, Platform.unix ⟨.linux, .empty, none⟩⟩

def madeEarly : Turn := .doing onLinux .get (.of .x64) Archive.silent bareWorld

def builtLate : Turn :=
  .doing onLinux (.invoke ⟨.x64, false, .build, []⟩ "llvm/x64") madeEarly.after Archive.silent
    { bareWorld with environ := .ofList [(Utf8.encode "CC", Utf8.encode "tcc")] }

theorem Bootstrap.environment_once_builtLate :
    Series onLinux (.of .x64) [madeEarly, builtLate] ∧ madeEarly.after.vars = some .empty ∧
      (commands builtLate.calls).length = 1 ∧ builtLate.AsksForNone onLinux ∧
      builtLate.Gives (some .empty) := by
  have hseries : Series onLinux (.of .x64) [madeEarly, builtLate] :=
    .cons (Turn.happens_doing ..) (.cons (Turn.happens_doing ..) (.nil _))
  have hvars : madeEarly.after.vars = some .empty := by cbv
  obtain ⟨-, hpairwise⟩ :=
    (environment_once .default ⟨"llvm"⟩ (.unix ⟨.linux, .empty, none⟩)).1 _ _ hseries
  obtain ⟨-, hnone, hgives⟩ :=
    List.rel_of_pairwise_cons hpairwise (List.mem_singleton.mpr rfl) _ hvars
  exact ⟨hseries, hvars, by cbv, hnone, hgives⟩

end LlvmBootstrap
