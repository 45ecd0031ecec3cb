import Mathlib
import LlvmBootstrap.Proofs.Build.Rollback
import LlvmBootstrap.Proofs.Environment.Layers
import LlvmBootstrap.Proofs.Run.Order

/-!
The install directory on all its ways. It is checked, removed, returned and exported by the
octets of its path. Only the configure command is told it as a text, and so of another one,
where the path is no text.
-/

namespace LlvmBootstrap

open Program

namespace Root

variable (r : Root) (a : Arch)

theorem bytes_install : ∃ s b rest, Utf8.encode s = b :: rest ∧ b < 0x80 ∧
    (r.install a).bytes = r.path.bytes ++ Utf8.encode s := by
  have harch : (Path.ofString a.text).isAbsolute = false := by cases a <;> decide
  rcases Path.bytes_join_of_not_isAbsolute r.path harch with ⟨hbytes, -⟩ | ⟨hbytes, -⟩
  · cases a
    · exact ⟨"x64", _, _, rfl, by decide, hbytes⟩
    · exact ⟨"x86", _, _, rfl, by decide, hbytes⟩
  · cases a
    · exact ⟨"/x64", _, _, rfl, by decide, hbytes⟩
    · exact ⟨"/x86", _, _, rfl, by decide, hbytes⟩

theorem isSome_decode?_install :
    (Utf8.decode? (r.install a).bytes).isSome = true ↔
      (Utf8.decode? r.path.bytes).isSome = true := by
  obtain ⟨s, b, rest, hs, hb, hbytes⟩ := r.bytes_install a
  rw [hbytes, Utf8.isSome_decode?_append hb hs]

theorem isAbsolute_install : (r.install a).isAbsolute = r.path.isAbsolute :=
  Path.isAbsolute_join r.path (by cases a <;> decide)

end Root

theorem Settings.isAbsolute_rootFrom (s : Settings) {dir : Path} (h : dir.isAbsolute = true) :
    (s.rootFrom dir).path.isAbsolute = true := by
  rw [rootFrom]
  generalize s.root.getD Defaults.rootDir = p
  cases hp : p.isAbsolute with
  | true => rwa [Path.join_of_isAbsolute hp]
  | false => rwa [Path.isAbsolute_join dir hp]

/-! ### Changes -/

def Answered.change? : Answered → Option Change
  | ⟨.change c, _⟩ => some c
  | _ => none

def changes (tr : List Answered) : List Change := tr.filterMap Answered.change?

@[simp] theorem changes_append (tr tr' : List Answered) :
    changes (tr ++ tr') = changes tr ++ changes tr' := List.filterMap_append ..

theorem changes_of_ask {σ : Type} {o : Outside σ} {w w' : World σ} {c : Call}
    {answer : c.Answer} {tr : List Answered} (hc : ∀ ch, c ≠ .change ch)
    (h : (ask c).Goes o w answer tr w') :
    changes tr = [] := by
  rw [h.of_ask.2]
  cases c with
  | change ch => exact absurd rfl (hc ch)
  | _ => rfl

/-- Once the command has run, all that is changed is that a path is removed. -/
def OnlyRemovesAfter (x : Tried) (p : Path) (tr : List Answered) : Prop :=
  ∃ before after, tr = before ++ ⟨.spawn .shared x.1, x.2⟩ :: after ∧
    changes after = [.removeAll p]

namespace OnlyRemovesAfter

variable {x : Tried} {p : Path} {tr : List Answered}

theorem after (h : OnlyRemovesAfter x p tr) (tr' : List Answered) :
    OnlyRemovesAfter x p (tr' ++ tr) := by
  obtain ⟨before, rest, rfl, hrest⟩ := h
  exact ⟨tr' ++ before, rest, (List.append_assoc ..).symm, hrest⟩

theorem before (h : OnlyRemovesAfter x p tr) {tr' : List Answered} (htr : changes tr' = []) :
    OnlyRemovesAfter x p (tr ++ tr') := by
  obtain ⟨first, rest, rfl, hrest⟩ := h
  refine ⟨first, rest ++ tr', List.append_assoc .., ?_⟩
  rw [changes_append, hrest, htr, List.append_nil]

end OnlyRemovesAfter

/-! ### What the configure command is told -/

/-- The octets of the path that a configure command names as the install
directory. It stands behind the sources. -/
def Command.TellsPrefix (cmd : Command) (told : Bytes) : Prop :=
  cmd.args[1]? = some (Utf8.encode "-DCMAKE_INSTALL_PREFIX=" ++ told)

namespace Build

variable {σ : Type} {o : Outside σ} {b : Build} {a : Arch} {p : Part} {t t' : Toolchain}
  {w w' : World σ} {tr : List Answered}

theorem tellsPrefix_configureCommand_iff {generator : String} {vars : Variables}
    {told : Bytes} :
    (b.configureCommand a generator vars).TellsPrefix told ↔
      told = Utf8.encode (Utf8.lossy (b.root.install a).bytes) := by
  have harg : (b.configureCommand a generator vars).args[1]? = some (Utf8.encode
      ("-DCMAKE_INSTALL_PREFIX=" ++ Utf8.lossy (b.root.install a).bytes)) := rfl
  rw [Command.TellsPrefix, harg, Utf8.encode_append, Option.some.injEq,
    List.append_cancel_left_eq, eq_comm]

/-- It is told the install directory itself if and only if the path of the root is a text. -/
theorem tellsPrefix_install_iff {generator : String} {vars : Variables} :
    (b.configureCommand a generator vars).TellsPrefix (b.root.install a).bytes ↔
      (Utf8.decode? b.root.path.bytes).isSome = true := by
  rw [tellsPrefix_configureCommand_iff, eq_comm, Utf8.encode_lossy_eq_iff,
    b.root.isSome_decode?_install]

example (record : StageRecord) (host : Host) (generator : String) (vars : Variables) :
    let b : Build := ⟨⟨⟨[0x2F, 0xFF]⟩⟩, record, host, "cmake"⟩
    (b.configureCommand .x64 generator vars).TellsPrefix (Utf8.encode "/\uFFFD/x64") :=
  tellsPrefix_configureCommand_iff.mpr (by cbv)

/-! ### What a failed install removes -/

/-- A reset removes what is at the directory of the stage and does nothing else. -/
theorem trace_reset (o : Outside σ) (r : Root) (s : Stage) (w : World σ) :
    (r.reset s).run.trace o w =
      [⟨.change (.removeAll (r.marker s)), (w.change (.removeAll (r.marker s))).1⟩] := by
  have htraced : (r.reset s).run.Traced o (fun _ tr _ => tr =
      [⟨.change (.removeAll (r.marker s)), (w.change (.removeAll (r.marker s))).1⟩]) w := by
    rw [Root.reset, Traced.attempt_call_bind_iff,
      show w.perform o (.change (.removeAll (r.marker s))) =
        w.change (.removeAll (r.marker s)) from rfl]
    rcases (w.change (.removeAll (r.marker s))).1 with e | ⟨⟩
    · cases e <;> rfl
    · rfl
  exact htraced

/-- A part whose command fails has the directory of its stage removed, and nothing else. -/
theorem Part.Went.removes {tried : Option Tried} {res : Except BuildError StageOutcome}
    (hr : b.record = b.root.record) (h : p.Went o b a t w tried res t' tr w') :
    ∀ x ∈ tried, Fails x.2 → OnlyRemovesAfter x (b.root.marker (p.stage a)) tr := by
  obtain ⟨resets, hcourse⟩ := h.course
  cases hcourse with
  | skipped | stopped => simp
  | ran hlook hready hcommand hdone =>
      rintro _ ⟨⟩ hfails
      exact absurd hfails hdone
  | @reset look before said undo rest w₁ w₂ w₃ w₄ w₅ w₆ cmd t' answer e undone hlook hready
      hcommand hfails hfault hsaid hundo hregret =>
      have hremoves : changes undo = [.removeAll (b.root.marker (p.stage a))] := by
        rw [hr] at hundo
        rw [← hundo.2, show b.root.record.reset (p.stage a) = b.root.reset (p.stage a)
          from rfl, trace_reset]
        rfl
      have hrest : changes rest = [] := by
        cases undone with
        | ok u =>
            rw [hregret.of_pure.2.1]
            rfl
        | error e => exact changes_of_ask (by simp) hregret
      rintro _ ⟨⟩ -
      refine ⟨look ++ before, said ++ (undo ++ rest), (List.append_assoc ..).symm, ?_⟩
      rw [changes_append, changes_append, changes_of_ask (by simp) hsaid, hremoves, hrest]
      rfl

/-! ### What a build returns -/

theorem eq_install_of_run {install : Path}
    (h : ((b.run a).start t).Goes o w (.ok install, t') tr w') :
    install = b.root.install a := by
  obtain ⟨_, _, _, _, _, -, h₁, -⟩ := h.of_work_bind_ok
  obtain ⟨_, _, _, _, _, -, h₂, -⟩ := h₁.of_work_bind_ok
  exact Except.ok.inj h₂.of_work_pure.1

end Build

/-! ### What the build tool of the project is told -/

namespace Downstream

variable {d : Downstream} {q : Request} {install : Path} {cmd : Command}

theorem Does.extra (h : d.Does q install cmd) :
    cmd.extra.entries = [(d.prefixVariable, install.bytes)] := by
  cases h with
  | plain hcommand | equipped _ hcommand =>
      obtain ⟨args, -, rfl⟩ := command_eq_ok_iff.mp hcommand
      rfl

/-- The build tool finds the install directory under the name of its
variable, whatever else has that name. -/
theorem Does.get?_prefixVariable (h : d.Does q install cmd) (inherited : Environ) :
    (cmd.environ inherited).get? (Utf8.encode d.prefixVariable) = some install.bytes := by
  rw [Command.get?_environ_of_one h.extra, if_pos rfl]

end Downstream

/-! ### The whole run -/

namespace Bootstrap

open Build (Does Fails Part)

/-- The ways of an install directory that go by the octets of its path: where an install is
looked for, what is removed when it has failed, and what is returned. -/
structure InstallsAt (v : Bootstrap) (a : Arch) (there : Path) : Prop where
  checked : ∀ {σ : Type} (o : Outside σ) (w : World σ),
    (v.build.record.isComplete (.install a)).run o w = (w.tree.isDir w.cwd there, w)
  removed : ∀ {σ : Type} (o : Outside σ) (w : World σ),
    (v.build.record.reset (.install a)).run.trace o w =
      [⟨.change (.removeAll there), (w.change (.removeAll there)).1⟩]
  built : ∀ {σ : Type} (o : Outside σ) (w : World σ) (t : Toolchain),
    ((v.build.run a).start t).Traced o
    (fun res _ _ => ∀ install, res.1 = .ok install → install = there) w
  prepared : ∀ {σ : Type} (o : Outside σ) (w : World σ) (t : Toolchain) (command : String),
    ((v.prepare a command).start t).Traced o
      (fun res _ _ => ∀ install, res.1 = .ok install → install = there) w

theorem installsAt_install (v : Bootstrap) (a : Arch) : v.InstallsAt a (v.root.install a) where
  checked o w := by
    obtain ⟨hw, hdone⟩ := Root.goes_isComplete (Goes.run o (v.root.isComplete (.install a)) w)
    exact Prod.ext hdone hw
  removed o w := Build.trace_reset o v.root (.install a) w
  built o w t install hres :=
    Build.eq_install_of_run (b := v.build) ⟨Prod.ext (Prod.ext hres rfl) rfl, rfl⟩
  prepared o w t command install hres := by
    obtain ⟨c, i, hcourse⟩ :=
      prepareCourse_of_goes (Goes.run o ((v.prepare a command).start t) w)
    rw [hres] at hcourse
    exact hcourse.eq_install

variable {σ : Type} {o : Outside σ} {v : Bootstrap} {a : Arch} {command : String} {q : Request}
  {t t' : Toolchain} {w w' : World σ} {c i d : Option Tried} {tr : List Answered}

theorem removes_of_prepare {res : Except BootstrapError Path}
    (h : PrepareCourse o v a command t w c i res t' tr w') :
    ∀ x ∈ i, Fails x.2 → OnlyRemovesAfter x (v.root.install a) tr := by
  cases h with
  | refused => simp
  | held hlock hsteps hfreed =>
      have hclosed := changes_of_ask (by simp) hfreed
      cases hsteps with
      | unfetched | unconfigured => simp
      | uninstalled hfetch hconfigure hinstall =>
          intro x hx hfails
          exact ((((hinstall.removes rfl x hx hfails).after _).after _).before hclosed).after _
      | done hfetch hconfigure hinstall =>
          intro x hx hfails
          exact absurd hfails (hinstall.verdict x hx).2

theorem not_fails_of_prepare {install : Path}
    (h : PrepareCourse o v a command t w c i (.ok install) t' tr w') :
    ∀ x ∈ i, ¬ Fails x.2 := by
  obtain _ | ⟨_, hsteps, _⟩ := h
  obtain _ | _ | _ | ⟨hfetch, hconfigure, hinstall, hsaid⟩ := hsteps
  exact fun x hx => (hinstall.verdict x hx).2

theorem removes_of_course {res : Except BootstrapError Unit}
    (h : Course o v q w c i d res tr w') :
    ∀ x ∈ i, Fails x.2 → OnlyRemovesAfter x (v.root.install q.arch) tr := by
  cases h with
  | unprepared hprepare => exact removes_of_prepare hprepare
  | prepared hprepare =>
      exact fun x hx hfails =>
        absurd hfails (not_fails_of_prepare hprepare x hx)

/-- How the install directory comes up in a run with these commands. The configure command is
told the text of its path, which is the path itself if that of the root is a text, a failed
install has it removed, and the build tool finds it in its environment. -/
structure UsesPrefix (v : Bootstrap) (q : Request) (there : Path) (c i d : Option Tried)
    (tr : List Answered) : Prop where
  told : ∀ x ∈ c, ∀ told, x.1.TellsPrefix told ↔ told = Utf8.encode (Utf8.lossy there.bytes)
  agrees : ∀ x ∈ c, x.1.TellsPrefix there.bytes ↔
    (Utf8.decode? v.root.path.bytes).isSome = true
  removed : ∀ x ∈ i, Fails x.2 → OnlyRemovesAfter x there tr
  exported : ∀ x ∈ d, ∀ inherited, (x.1.environ inherited).get?
    (Utf8.encode v.settings.cargo.prefixVariable) = some there.bytes

theorem usesPrefix_of_ordered {res : Except BootstrapError Unit}
    (h : Course o v q w c i d res tr w') (hordered : Ordered v q c i d res tr) :
    v.UsesPrefix q (v.root.install q.arch) c i d tr where
  told x hx told := by
    obtain ⟨cmd, answer⟩ := x
    cases hordered.configure _ hx with
    | configure generator vars => exact Build.tellsPrefix_configureCommand_iff
  agrees x hx := by
    obtain ⟨cmd, answer⟩ := x
    cases hordered.configure _ hx with
    | configure generator vars => exact Build.tellsPrefix_install_iff
  removed := removes_of_course h
  exported x hx := (hordered.tool x hx).get?_prefixVariable

/-- In every run an install is looked for, removed when it has failed, returned and exported
at one path, octet for octet, and from an absolute directory that path is absolute. The
configure command is told the same octets if and only if the path of the root is a text; else
it is told of another directory. -/
theorem installs_atOnePrefix (settings : Settings) (root : Root) (p : Platform) (q : Request) :
    let v : Bootstrap := ⟨settings, root, p⟩
    let there := root.install q.arch
    v.InstallsAt q.arch there ∧
    (∀ {σ : Type} (o : Outside σ) (w : World σ), (v.run q).Traced o (fun res tr _ =>
      ∃ c i d, v.Ordered q c i d res tr ∧ v.UsesPrefix q there c i d tr) w) ∧
    ∀ dir : Path, dir.isAbsolute = true →
      ((settings.rootFrom dir).install q.arch).isAbsolute = true := by
  refine ⟨installsAt_install _ _, fun o w => ?_, fun dir hdir => ?_⟩
  · obtain ⟨c, i, d, hcourse, hordered⟩ :=
      ordered_of_goes (v := ⟨settings, root, p⟩) p.onlyAsks p.isCareful
      (Goes.run o (Bootstrap.run ⟨settings, root, p⟩ q) w)
    exact ⟨c, i, d, hordered, usesPrefix_of_ordered hcourse hordered⟩
  · rw [Root.isAbsolute_install]
    exact settings.isAbsolute_rootFrom hdir

end Bootstrap

end LlvmBootstrap
