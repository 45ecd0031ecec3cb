import LlvmBootstrap.Proofs.Run.Stops

/-!
The order of a run and the code that the tool exits with. A run takes its steps in order and
stops at the first that fails; the tool then exits with the code of the project's build tool if
that is what failed, and with one for any other failure.
-/

namespace LlvmBootstrap

open Program

namespace Bootstrap

open Build (Does)

/-- The commands of a run are in order: at most one that configures, at most one that
installs and at most one of the project's build tool. The run stops at the first failure, and
ends well only without one. -/
structure Ordered (v : Bootstrap) (q : Request) (c i d : Option Tried)
    (res : Except BootstrapError Unit) (tr : List Answered) : Prop where
  commands : LlvmBootstrap.commands tr = c.toList ++ (i.toList ++ d.toList)
  configure : ∀ x ∈ c, Does v.build q.arch (.configure q.arch) x.1
  install : ∀ x ∈ i, Does v.build q.arch (.install q.arch) x.1
  tool : ∀ x ∈ d, v.downstream.Does q (v.root.install q.arch) x.1
  stops : StopsAtFailure tr
  good : res = .ok () → ∀ x ∈ tr, ¬ x.Fails

variable {σ : Type} {o : Outside σ} {v : Bootstrap} {a : Arch} {command : String} {q : Request}
  {t t' : Toolchain} {w w' : World σ} {c i d : Option Tried} {tr : List Answered}

theorem PrepareCourse.does {res : Except BootstrapError Path}
    (h : PrepareCourse o v a command t w c i res t' tr w') :
    (∀ x ∈ c, Does v.build a (.configure a) x.1) ∧
    ∀ x ∈ i, Does v.build a (.install a) x.1 := by
  cases h with
  | refused => exact ⟨nofun, nofun⟩
  | held hlock hsteps =>
      cases hsteps with
      | unfetched => exact ⟨nofun, nofun⟩
      | unconfigured hfetch hconfigure => exact ⟨hconfigure.does, nofun⟩
      | uninstalled hfetch hconfigure hinstall | done hfetch hconfigure hinstall =>
          exact ⟨hconfigure.does, hinstall.does⟩

theorem PrepareCourse.eq_install {p : Path}
    (h : PrepareCourse o v a command t w c i (.ok p) t' tr w') : p = v.root.install a := by
  obtain _ | ⟨_, hsteps, _⟩ := h
  cases hsteps
  rfl

theorem ordered_of_goes (hasks : v.host.OnlyAsks) (hcareful : v.host.IsCareful)
    {res : Except BootstrapError Unit} (h : (v.run q).Goes o w res tr w') :
    ∃ c i d, Course o v q w c i d res tr w' ∧ Ordered v q c i d res tr := by
  obtain ⟨c, i, d, hcourse⟩ := course_of_goes h
  obtain ⟨hstops, hgood⟩ := run_careful hcareful q o w
  rw [h.1, h.2] at hgood
  rw [h.2] at hstops
  have hdoes : (∀ x ∈ c, Does v.build q.arch (.configure q.arch) x.1) ∧
      (∀ x ∈ i, Does v.build q.arch (.install q.arch) x.1) ∧
      ∀ x ∈ d, v.downstream.Does q (v.root.install q.arch) x.1 := by
    cases hcourse with
    | unprepared hprepare => exact ⟨hprepare.does.1, hprepare.does.2, nofun⟩
    | prepared hprepare hinvoke =>
        obtain rfl := hprepare.eq_install
        exact ⟨hprepare.does.1, hprepare.does.2, hinvoke.course.does⟩
  refine ⟨c, i, d, hcourse, hcourse.commands_eq hasks, hdoes.1, hdoes.2.1,
    hdoes.2.2, hstops, ?_⟩
  rintro rfl
  exact hgood rfl

end Bootstrap

/-! ### The code of the tool -/

namespace CommandLine

/-- The code to exit with after a run: zero if it has ended well, that of the build tool if
that has ended with one, and one if the build tool was not tried, not started or killed. -/
structure ExitsWith (d : Option Tried) (res : Except BootstrapError Unit)
    (code : Int) : Prop where
  zero_iff : code = 0 ↔ res = .ok ()
  tool : ∀ cmd f c, d = some (cmd, .ok f) → f.status.code = some c → code = c
  one : res ≠ .ok () → (∀ cmd f, d = some (cmd, .ok f) → f.status.code = none) → code = 1

def codeOf : Except BootstrapError Unit → Int
  | .ok () => 0
  | .error e => (TaskError.bootstrap e).exitCode

theorem exitCode_of_none {e : BootstrapError} (h : e.downstreamCode? = none) :
    (TaskError.bootstrap e).exitCode = 1 := by
  rw [TaskError.exitCode, h]

theorem exitCode_of_some {e : BootstrapError} {c : Int} (h : e.downstreamCode? = some c)
    (hc : c ≠ 0) :
    (TaskError.bootstrap e).exitCode = c := by
  rw [TaskError.exitCode, h]
  exact if_neg hc

variable {σ : Type} {o : Outside σ} {v : Bootstrap} {a : Arch} {command : String} {q : Request}
  {t t' : Toolchain} {w w' : World σ} {c i d : Option Tried} {tr : List Answered}

theorem downstreamCode?_of_prepare {e : BootstrapError}
    (h : Bootstrap.PrepareCourse o v a command t w c i (.error e) t' tr w') :
    e.downstreamCode? = none := by
  cases h with
  | refused => rfl
  | held hlock hsteps => cases hsteps <;> rfl

/-- An error that is not of the build tool having ended with a code. -/
theorem exitsWith_one {e : BootstrapError} (h : e.downstreamCode? = none)
    (hd : ∀ cmd f, d = some (cmd, .ok f) → f.status.code = none) :
    ExitsWith d (.error e) (codeOf (.error e)) := by
  rw [codeOf, exitCode_of_none h]
  refine ⟨⟨nofun, nofun⟩, fun cmd f c hf hcode => ?_, fun _ _ => rfl⟩
  exact absurd ((hd cmd f hf).symm.trans hcode) nofun

theorem exitsWith_codeOf {res : Except BootstrapError Unit}
    (h : Bootstrap.Course o v q w c i d res tr w') : ExitsWith d res (codeOf res) := by
  cases h with
  | unprepared hprepare => exact exitsWith_one (downstreamCode?_of_prepare hprepare) (by simp)
  | prepared hprepare hinvoke =>
      cases hinvoke.course with
      | unsupported | stopped => exact exitsWith_one rfl (by simp)
      | @ran _ cmd _ _ _ _ _ _ answer =>
          rcases answer with e | f
          · exact exitsWith_one rfl (by simp)
          by_cases hf : f.status.isSuccess = true
          · -- A tool that succeeds has ended with zero, and so does the run.
            have hzero : f.status.code = some 0 := of_decide_eq_true hf
            rw [Downstream.verdict, if_pos hf]
            refine ⟨⟨fun _ => rfl, fun _ => rfl⟩, ?_, fun h => absurd rfl h⟩
            rintro _ _ c ⟨⟩ hcode
            exact Option.some.inj (hzero.symm.trans hcode)
          have hnonzero : f.status.code ≠ some 0 := fun h => hf (decide_eq_true h)
          rw [Downstream.verdict, if_neg hf]
          cases hcode : f.status.code with
          | none =>
              refine exitsWith_one hcode ?_
              rintro _ _ ⟨⟩
              exact hcode
          | some code =>
              have hne : code ≠ 0 := fun h => hnonzero (h ▸ hcode)
              have hexit : codeOf (Except.mapError .invoke
                  (.error (.failed cmd.line f.status) : Except InvokeError Unit)) = code :=
                exitCode_of_some hcode hne
              rw [hexit]
              refine ⟨⟨fun h => absurd h hne, by rintro ⟨⟩⟩, ?_, fun _ hnone => ?_⟩
              · rintro _ _ c ⟨⟩ hc
                exact Option.some.inj (hcode.symm.trans hc)
              · exact absurd ((hnone _ _ rfl).symm.trans hcode) (by simp)

/-! ### The tool as a whole -/

/-- A session is on the platform of the tool, as its settings have it. -/
theorem host_of_openSession {opts : Options}
    (h : (openSession opts).run.Goes o w (.ok v) tr w') :
    ∃ settings root, v = ⟨settings, root, Platform.host settings⟩ := by
  rcases h.of_attempt_bind with ⟨e, he, -⟩ | ⟨settings, w₁, _, _, -, h₁, -⟩
  · exact absurd he nofun
  · obtain ⟨cwd, w₂, _, _, -, h₂, -⟩ := h₁.of_attempt_lift_bind
    obtain rfl := Except.ok.inj h₂.of_pure.1
    exact ⟨_, _, rfl⟩

theorem exitCode_of_openSession {opts : Options} {e : TaskError}
    (h : (openSession opts).run.Goes o w (.error e) tr w') : e.exitCode = 1 := by
  rcases h.of_attempt_bind with ⟨_, ⟨⟩, hload⟩ | ⟨settings, w₁, _, _, -, h₁, -⟩
  · rw [run_adapt] at hload
    obtain ⟨loaded, w₁, _, _, -, h₁, -⟩ := hload.of_bind
    rcases loaded with e' | settings
    · obtain rfl := Except.error.inj h₁.of_pure.1
      rfl
    · exact absurd h₁.of_pure.1 nofun
  · obtain ⟨cwd, w₂, _, _, -, h₂, -⟩ := h₁.of_attempt_lift_bind
    exact absurd h₂.of_pure.1 nofun

/-- What the tool does for an action: nothing if the settings cannot
be read, and else a run. -/
inductive Acts (o : Outside σ) (opts : Options) (q : Request) (w : World σ) :
    Int → List Answered → Prop
  | unset {e : TaskError} {opening said : List Answered} {w₁ : World σ}
      (hsession : (openSession opts).run.Goes o w (.error e) opening w₁)
      (hsaid : ∀ x ∈ said, x.call = .complain e.line) :
      Acts o opts q w 1 (opening ++ said)
  | ran {v : Bootstrap} {c i d : Option Tried} {res : Except BootstrapError Unit} {code : Int}
      {opening running said : List Answered} {w₁ w₂ : World σ}
      (hsession : (openSession opts).run.Goes o w (.ok v) opening w₁)
      (hcourse : Bootstrap.Course o v q w₁ c i d res running w₂)
      (hordered : Bootstrap.Ordered v q c i d res running) (hcode : ExitsWith d res code)
      (hsaid : ∀ x ∈ said, ∃ e,
        res = .error e ∧ x.call = .complain (TaskError.bootstrap e).line) :
      Acts o opts q w code (opening ++ (running ++ said))

inductive SetsUp (o : Outside σ) (opts : Options) (w : World σ) : Int → List Answered → Prop
  | unset {e : TaskError} {opening said : List Answered} {w₁ : World σ}
      (hsession : (openSession opts).run.Goes o w (.error e) opening w₁)
      (hsaid : ∀ x ∈ said, x.call = .complain e.line) :
      SetsUp o opts w 1 (opening ++ said)
  | unprepared {v : Bootstrap} {c i : Option Tried} {e : BootstrapError} {t : Toolchain}
      {opening preparing said : List Answered} {w₁ w₂ : World σ}
      (hsession : (openSession opts).run.Goes o w (.ok v) opening w₁)
      (hprepare : Bootstrap.PrepareCourse o v opts.host "setup" (.of opts.host) w₁ c i
        (.error e) t preparing w₂)
      (hsaid : ∀ x ∈ said, x.call = .complain (TaskError.bootstrap e).line) :
      SetsUp o opts w 1 (opening ++ (preparing ++ said))
  | prepared {v : Bootstrap} {c i : Option Tried} {install : Path} {t : Toolchain}
      {opening preparing said : List Answered} {w₁ w₂ : World σ}
      (hsession : (openSession opts).run.Goes o w (.ok v) opening w₁)
      (hprepare : Bootstrap.PrepareCourse o v opts.host "setup" (.of opts.host) w₁ c i
        (.ok install) t preparing w₂)
      (hsaid : ∀ x ∈ said, x.call = .print (setupReport v.settings opts.host install)) :
      SetsUp o opts w 0 (opening ++ (preparing ++ said))

def afterReading (opts : Options) (task : Task) : Program Int :=
  (perform opts task).run >>= fun
    | .ok () => pure 0
    | .error e => ask (.complain e.line) >>= fun _ => pure e.exitCode

theorem run_eq {args : List String} {opts : Options} {task : Task}
    (h : read args = .ok (opts, task)) :
    run args = afterReading opts task := by
  rw [run, h, afterReading]
  congr 1

theorem complain_of_goes {e : TaskError} {code : Int}
    (h : (ask (.complain e.line) >>= fun _ => pure e.exitCode : Program Int).Goes
      o w code tr w') :
    code = e.exitCode ∧ ∀ x ∈ tr, x.call = .complain e.line := by
  obtain ⟨_, w₁, tr₁, tr₂, hask, h₁, rfl⟩ := h.of_bind
  obtain ⟨rfl, rfl, rfl⟩ := h₁.of_pure
  rw [hask.of_ask.2]
  refine ⟨rfl, fun x hx => ?_⟩
  obtain rfl := List.mem_singleton.mp hx
  rfl

theorem acts_of_goes {opts : Options} {act : Action} {rest : List String} {code : Int}
    (h : (afterReading opts (.act act rest)).Goes o w code tr w') :
    Acts o opts ⟨opts.host, opts.release, act, rest⟩ w code tr := by
  obtain ⟨done, w₁, working, saying, hdone, hsaying, rfl⟩ := h.of_bind
  rw [perform, CommandLine.act] at hdone
  rcases hdone.of_attempt_bind with ⟨e, rfl, hsession⟩ | ⟨v, w₂, opening, tr₁,
    hsession, h₁, rfl⟩
  · obtain ⟨rfl, hsaid⟩ := complain_of_goes hsaying
    rw [exitCode_of_openSession hsession]
    exact .unset hsession hsaid
  obtain ⟨settings, root, rfl⟩ := host_of_openSession hsession
  obtain ⟨res, w₃, running, tr₂, hrun, h₂, rfl⟩ := h₁.of_attempt_lift_bind
  obtain ⟨c, i, d, hcourse, hordered⟩ := Bootstrap.ordered_of_goes
    (Platform.host settings).onlyAsks (Platform.host settings).isCareful hrun
  have hcode := exitsWith_codeOf hcourse
  rcases res with e | ⟨⟩
  · obtain ⟨rfl, rfl, rfl⟩ := h₂.of_pure
    obtain ⟨rfl, hsaid⟩ := complain_of_goes hsaying
    rw [List.append_nil, List.append_assoc]
    exact .ran hsession hcourse hordered hcode fun x hx => ⟨e, rfl, hsaid x hx⟩
  · obtain ⟨rfl, rfl, rfl⟩ := h₂.of_pure
    obtain ⟨rfl, rfl, rfl⟩ := hsaying.of_pure
    rw [List.append_nil]
    exact .ran hsession hcourse hordered hcode nofun

theorem setsUp_of_goes {opts : Options} {code : Int}
    (h : (afterReading opts .setup).Goes o w code tr w') : SetsUp o opts w code tr := by
  obtain ⟨done, w₁, working, saying, hdone, hsaying, rfl⟩ := h.of_bind
  rw [perform, setup] at hdone
  rcases hdone.of_attempt_bind with ⟨e, rfl, hsession⟩ | ⟨v, w₂, opening, tr₁,
    hsession, h₁, rfl⟩
  · obtain ⟨rfl, hsaid⟩ := complain_of_goes hsaying
    rw [exitCode_of_openSession hsession]
    exact .unset hsession hsaid
  obtain ⟨⟨res, t⟩, w₃, preparing, tr₂, hwork, h₂, rfl⟩ := h₁.of_attempt_lift_bind
  obtain ⟨c, i, hprepare⟩ := Bootstrap.prepareCourse_of_goes hwork
  rw [List.append_assoc, List.append_assoc]
  rcases res with e | install
  · obtain ⟨rfl, rfl, rfl⟩ := h₂.of_pure
    obtain ⟨rfl, hsaid⟩ := complain_of_goes hsaying
    rw [exitCode_of_none (downstreamCode?_of_prepare hprepare)]
    exact .unprepared hsession hprepare hsaid
  · obtain ⟨_, w₄, said, tr₃, hsaid, h₃, rfl⟩ := h₂.of_bind
    obtain ⟨rfl, rfl, rfl⟩ := h₃.of_pure
    obtain ⟨rfl, rfl, rfl⟩ := hsaying.of_pure
    refine .prepared hsession hprepare fun x hx => ?_
    rw [hsaid.of_ask.2] at hx
    obtain rfl := List.mem_singleton.mp hx
    rfl

/-- Every run, on any platform, takes its steps in order, stops at the first that fails and
ends with its error. The tool exits with zero if nothing has failed, with the code of the
project's build tool if that has ended with one, and with one for any other failure. -/
theorem runs_inOrder (o : Outside σ) (w : World σ) :
    (∀ (settings : Settings) (root : Root) (p : Platform) (q : Request),
      let v : Bootstrap := ⟨settings, root, p⟩
      (v.run q).Traced o (fun res tr w' => ∃ c i d,
        Bootstrap.Course o v q w c i d res tr w' ∧
        Bootstrap.Ordered v q c i d res tr) w) ∧
    ∀ args, (run args).Traced o (fun code tr _ => match read args with
      | .ok (opts, .act act rest) => Acts o opts ⟨opts.host, opts.release, act, rest⟩ w code tr
      | .ok (opts, .setup) => SetsUp o opts w code tr
      | .error _ => ∀ x ∈ tr, x.call.IsOwn) w := by
  refine ⟨fun settings root p q => ?_, fun args => ?_⟩
  · exact Bootstrap.ordered_of_goes p.onlyAsks p.isCareful (.run ..)
  · cases hread : read args with
    | ok task =>
        obtain ⟨opts, task⟩ := task
        rw [run_eq hread]
        cases task with
        | setup => exact setsUp_of_goes (.run ..)
        | act a rest => exact acts_of_goes (.run ..)
    | error stop =>
        have hown : (run args).Only Call.IsOwn := by
          rw [run, hread]
          cases stop <;> exact ⟨trivial, fun _ => trivial⟩
        exact hown.trace o w

end CommandLine

end LlvmBootstrap
