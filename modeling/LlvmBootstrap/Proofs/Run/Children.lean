import LlvmBootstrap.Proofs.Machine.Handles
import LlvmBootstrap.Proofs.Run.Capture
import LlvmBootstrap.Proofs.Run.Prefix

/-!
The environment of every command of a run. The commands that build LLVM, and the build tool of
the project where it compiles, are given the variables that the settings configure over those
that were found; the build tool has its own variable besides, over all others.
-/

namespace LlvmBootstrap

open Program

/-! ### Where variables come from -/

inductive System where
  | unix (kind : UnixKind)
  | msvc
  deriving DecidableEq

def Answered.dump? : Answered → Option Bytes
  | ⟨.spawn .collected _, .ok f⟩ => some f.out
  | _ => none

/-- What the calls have collected first, which is all that a run collects. -/
def dump (tr : List Answered) : Bytes := (tr.findSome? Answered.dump?).getD []

namespace System

def platform (s : System) (settings : Settings) : Platform :=
  match s with
  | .unix kind => .unix (.ofSettings kind settings)
  | .msvc => .msvc (.ofSettings settings)

/-- The value that a variable has if nothing is configured: the compilers
of MSVC still go by their names. -/
def preset (s : System) (n : String) : Option String :=
  match s with
  | .unix _ => none
  | .msvc => if n = "CC" ∨ n = "CXX" then some "cl" else none

def configured (s : System) (settings : Settings) (n : String) : Option String :=
  match settings.compilers with
  | some compilers => compilers.get? n
  | none => s.preset n

/-- The value that a variable was found to have: among those
inherited, or in what was collected. -/
def found (s : System) (inherited : Environ) (tr : List Answered) (n : String) :
    Option String :=
  match s with
  | .unix _ => inherited.text? n
  | .msvc => (Variables.ofDump (Utf8.lossy (dump tr))).get? n

/-- What is configured stands over what was found. -/
def resolved (s : System) (settings : Settings) (inherited : Environ) (tr : List Answered)
    (n : String) :
    Option String :=
  (s.configured settings n).or (s.found inherited tr n)

end System

def inOctets (value : String → Option String) (name : Bytes) : Option Bytes :=
  (Utf8.decode? name).bind fun n => (value n).map Utf8.encode

theorem Variables.get?_toEnviron_of {vars : Variables} {value : String → Option String}
    (h : ∀ n, vars.get? n = value n) : vars.toEnviron.get? = inOctets value := by
  funext name
  simp only [Variables.get?_toEnviron, inOctets, h]

theorem Variables.get?_defaultCompilers (n : String) :
    Msvc.defaultCompilers.get? n = if n = "CC" ∨ n = "CXX" then some "cl" else none := by
  rw [Msvc.defaultCompilers, SortedMap.get?_ofList (by decide)]
  simp only [SortedMap.find, SortedMap.compare_eq_iff]
  split_ifs <;> simp_all

theorem dump_of_mem {tr : List Answered} {cmd : Command} {f : Finished}
    (hone : (captures tr).length ≤ 1) (hmem : ⟨.spawn .collected cmd, .ok f⟩ ∈ tr) :
    dump tr = f.out := by
  obtain ⟨before, rest, rfl⟩ := List.append_of_mem hmem
  have hbefore : captures before = [] := by
    rw [captures_append, List.length_append] at hone
    change _ + (captures rest).length.succ ≤ 1 at hone
    exact List.length_eq_zero_iff.mp (by omega)
  have hnone : before.findSome? Answered.dump? = none := by
    refine List.findSome?_eq_none_iff.mpr fun x hx => ?_
    have hx := List.filterMap_eq_nil_iff.mp hbefore x hx
    obtain ⟨c, answer⟩ := x
    cases c with
    | spawn output cmd =>
        cases output with
        | shared => rfl
        | collected => simp [Answered.capture?] at hx
    | _ => rfl
  rw [dump, List.findSome?_append, hnone]
  rfl

/-! ### Making the environment -/

/-- The environment of a process stays as it is, whatever it does. -/
theorem Program.throughout_environ {σ α : Type} (p : Program α) (o : Outside σ)
    {w : World σ} {e : Environ} (hw : w.environ = e) :
    p.Throughout o (fun w' _ => w'.environ = e) (fun _ w' => w'.environ = e) w := by
  induction p generalizing w with
  | done a => exact hw
  | call c next ih => exact ⟨hw, ih _ ((World.process_perform o w c).1.trans hw)⟩

theorem Program.Goes.environ_eq {σ α : Type} {p : Program α} {o : Outside σ}
    {w w' : World σ} {a : α} {tr : List Answered} (h : p.Goes o w a tr w') :
    w'.environ = w.environ :=
  h.at_end (p.throughout_environ o rfl)

/-- All environments that a host makes from the inherited one with
some of the calls `all` are `P`. -/
def Host.Supplies (h : Host) (inherited : Environ) (all : List Answered)
    (P : Variables → Prop) : Prop :=
  ∀ {σ : Type} {o : Outside σ} {w w' : World σ} {a : Arch} {vars : Variables}
    {tr : List Answered},
    (h.environment a).run.Goes o w (.ok vars) tr w' → tr ⊆ all → w.environ = inherited → P vars

namespace System

variable {σ : Type} {o : Outside σ} {w w' : World σ} {a : Arch} {vars : Variables}
  {tr all : List Answered}

theorem configured_unix (kind : UnixKind) (settings : Settings) (n : String) :
    (unix kind).configured settings n = (Unix.ofSettings kind settings).compilers.get? n := by
  rw [configured, Unix.ofSettings]
  cases settings.compilers <;> rfl

theorem configured_msvc (settings : Settings) (n : String) :
    msvc.configured settings n = (Msvc.ofSettings settings).compilers.get? n := by
  rw [configured, Msvc.ofSettings]
  cases settings.compilers with
  | none => exact (Variables.get?_defaultCompilers n).symm
  | some compilers => rfl

/-- What MSVC's script has left behind is read from its output. -/
theorem dumped_of_environment {m : Msvc}
    (h : (m.environment a).run.Goes o w (.ok vars) tr w') :
    ∃ cmd f, ⟨.spawn .collected cmd, .ok f⟩ ∈ tr ∧
      vars = (Variables.ofDump (Utf8.lossy f.out)).withOverrides m.compilers := by
  rcases h.of_attempt_bind with ⟨e, he, -⟩ | ⟨install, w₁, _, _, -, h₁, rfl⟩
  · contradiction
  obtain ⟨_, w₂, _, _, -, h₂, rfl⟩ := h₁.of_attempt_lift_bind
  obtain ⟨answer, w₃, _, rest, hspawn, h₃, rfl⟩ := h₂.of_attempt_lift_bind
  rcases answer with e | f
  · exact absurd h₃.of_pure.1 (by simp)
  refine ⟨Msvc.initCommand install a, f, ?_, ?_⟩
  · rw [hspawn.of_ask.2]
    simp
  · dsimp only at h₃
    split at h₃
    · exact absurd h₃.of_pure.1 (by simp)
    · split at h₃
      · exact absurd h₃.of_pure.1 (by simp)
      · exact Except.ok.inj h₃.of_pure.1

theorem supplies (s : System) (settings : Settings) (inherited : Environ)
    (hone : (captures all).length ≤ 1) : (s.platform settings : Host).Supplies inherited all
      fun vars => ∀ n, vars.get? n = s.resolved settings inherited all n := by
  intro σ o w w' a vars tr h hall hw n
  cases s with
  | unix kind =>
      obtain ⟨environ, w₁, _, _, hask, h₁, rfl⟩ := h.of_attempt_lift_bind
      have hread : (Variables.ofEnviron environ).get? n = inherited.text? n := by
        rw [show environ = inherited from (congrArg Prod.fst hask.of_ask.1).symm.trans hw]
        exact Variables.get?_ofEnviron inherited n
      rw [Except.ok.inj h₁.of_pure.1, Variables.get?_withOverrides, resolved,
        configured_unix, found]
      exact congrArg _ hread
  | msvc =>
      obtain ⟨cmd, f, hmem, rfl⟩ := dumped_of_environment h
      rw [Variables.get?_withOverrides, resolved, configured_msvc, found,
        dump_of_mem hone (hall hmem)]

end System

/-! ### Handing the environment out -/

def Toolchain.Has (P : Variables → Prop) (t : Toolchain) : Prop :=
  ∀ vars, t.vars = some vars → P vars

structure Command.Gets (P : Variables → Prop) (cmd : Command) : Prop where
  given : ∃ vars, P vars ∧ cmd.vars = some vars
  extra : cmd.extra = .empty

variable {σ : Type} {o : Outside σ} {w w' : World σ} {inherited : Environ}
  {all tr : List Answered} {P : Variables → Prop} {t t' : Toolchain} {a : Arch}

theorem Work.has_of_environment {h : Host} {vars : Variables}
    (hsupplies : h.Supplies inherited all P) (ht : t.Has P) (hw : w.environ = inherited)
    (hgoes : ((environment h).start t).Goes o w (.ok vars, t') tr w') (hall : tr ⊆ all) :
    P vars ∧ t'.Has P := by
  rw [start_environment] at hgoes
  cases hvars : t.vars with
  | some made =>
      rw [hvars] at hgoes
      obtain ⟨hres, hafter⟩ := Prod.mk.inj hgoes.of_pure.1
      obtain rfl := Except.ok.inj hres
      exact ⟨ht _ hvars, hafter ▸ ht⟩
  | none =>
      rw [hvars] at hgoes
      obtain ⟨res, w₁, _, _, hmade, hend, rfl⟩ := hgoes.of_bind
      rcases res with e | made
      · exact absurd (Prod.mk.inj hend.of_pure.1).1 (by simp)
      · obtain ⟨hres, hafter⟩ := Prod.mk.inj hend.of_pure.1
        obtain rfl := Except.ok.inj hres
        have hmade := hsupplies hmade (fun x hx => hall (List.mem_append_left _ hx)) hw
        refine ⟨hmade, ?_⟩
        rw [hafter]
        rintro _ ⟨⟩
        exact hmade

namespace Build

variable {b : Build} {p : Part}

theorem Does.extra {s : Stage} {cmd : Command} (h : Does b a s cmd) : cmd.extra = .empty := by
  cases h <;> rfl

theorem Part.gets_of_ready {cmd : Command} (hsupplies : b.host.Supplies inherited all P)
    (ht : t.Has P) (hw : w.environ = inherited)
    (h : ((p.ready b a).start t).Goes o w (.ok cmd, t') tr w') (hall : tr ⊆ all) :
    cmd.Gets P ∧ t'.Has P := by
  have hextra := (Part.does_of_ready h).extra
  rw [Part.start_ready] at h
  cases hequip : p.equip b a with
  | error e =>
      rw [hequip] at h
      exact absurd (Prod.mk.inj h.of_pure.1).1 (by simp)
  | ok equip =>
      rw [hequip] at h
      obtain ⟨⟨made, t₁⟩, w₁, _, _, hmade, h₁, rfl⟩ := h.of_bind
      cases made with
      | error e => exact absurd (Prod.mk.inj h₁.of_pure.1).1 (by simp)
      | ok vars =>
          obtain ⟨res, w₂, _, _, hequipped, h₂, rfl⟩ := h₁.of_bind
          obtain ⟨hres, hafter⟩ := Prod.mk.inj h₂.of_pure.1
          obtain ⟨hvars, hhas⟩ := Work.has_of_environment hsupplies ht hw hmade
            fun x hx => hall (List.mem_append_left _ hx)
          have hgiven := (Operation.equip_of_goes hequip hequipped).2 cmd hres.symm
          exact ⟨⟨⟨vars, hvars, hgiven⟩, hextra⟩, hafter ▸ hhas⟩

/-- A part that ends well leaves the environment to the next one. -/
theorem Part.has_of_goes {out : StageOutcome} (hsupplies : b.host.Supplies inherited all P)
    (ht : t.Has P) (hw : w.environ = inherited)
    (h : ((p.work b a).start t).Goes o w (.ok out, t') tr w') (hall : tr ⊆ all) :
    t'.Has P := by
  rw [Part.start_work] at h
  obtain ⟨done, w₁, look, _, hlook, h₁, rfl⟩ := h.of_bind
  cases done with
  | true =>
      obtain ⟨_, _, _, _, -, h₂, -⟩ := h₁.of_bind
      rw [(Prod.mk.inj h₂.of_pure.1).2]
      exact ht
  | false =>
      obtain ⟨⟨made, t₁⟩, w₂, before, _, hready, h₂, rfl⟩ := h₁.of_bind
      cases made with
      | error e => exact absurd (Prod.mk.inj h₂.of_pure.1).1 (by simp)
      | ok cmd =>
          obtain ⟨ran, _, _, _, -, h₃, rfl⟩ := h₂.of_bind
          cases ran with
          | error e => exact absurd (Prod.mk.inj h₃.of_pure.1).1 (by simp)
          | ok u =>
              obtain ⟨_, _, _, _, -, h₄, -⟩ := h₃.of_bind
              rw [(Prod.mk.inj h₄.of_pure.1).2]
              have hbefore : before ⊆ all := fun x hx =>
                hall (List.mem_append_right _ (List.mem_append_left _ hx))
              exact (Part.gets_of_ready hsupplies ht
                (hlook.environ_eq.trans hw) hready hbefore).2

/-- The command of a part is given the environment. -/
theorem Part.Went.gets {tried : Option Tried} {res : Except BuildError StageOutcome}
    (hsupplies : b.host.Supplies inherited all P) (ht : t.Has P) (hw : w.environ = inherited)
    (h : p.Went o b a t w tried res t' tr w') (hall : tr ⊆ all) : ∀ x ∈ tried, x.1.Gets P := by
  obtain ⟨resets, hcourse⟩ := h.course
  cases hcourse with
  | skipped | stopped => simp
  | ran hlook hready | reset hlook hready =>
      rintro _ ⟨⟩
      refine (Part.gets_of_ready hsupplies ht (hlook.environ_eq.trans hw) hready ?_).1
      exact fun x hx => hall (List.mem_append_right _ (List.mem_append_left _ hx))

end Build

/-- The command of the build tool is given the environment if it compiles, and else
none. It sets its own variable. -/
structure Downstream.Gets (d : Downstream) (q : Request) (install : Path)
    (P : Variables → Prop) (cmd : Command) : Prop where
  compiles : q.action.compiles = true → ∃ vars, P vars ∧ cmd.vars = some vars
  bare : q.action.compiles = false → cmd.vars = none
  extra : cmd.extra.entries = [(d.prefixVariable, install.bytes)]

theorem Downstream.Course.gets {d : Downstream} {q : Request} {install : Path}
    {tried : Option Tried} {res : Except InvokeError Unit}
    (hsupplies : d.host.Supplies inherited all P) (ht : t.Has P) (hw : w.environ = inherited)
    (h : Downstream.Course o d q install t w tried res tr w') (hall : tr ⊆ all) :
    ∀ x ∈ tried, d.Gets q install P x.1 := by
  cases h with
  | unsupported | stopped => simp
  | @ran cmd cmd' _ before said w₁ w₂ w₃ answer hcommand henv =>
      rintro _ ⟨⟩
      have hextra := (does_of_withToolchain hcommand henv).extra
      rw [withToolchain] at henv
      cases hcompiles : q.action.compiles with
      | true =>
          rw [hcompiles, if_pos rfl] at henv
          obtain ⟨vars, t₁, w₄, making, _, hmade, h₁, rfl⟩ := henv.of_work_bind_ok
          obtain ⟨hvars, -⟩ := Work.has_of_environment hsupplies ht hw hmade fun x hx =>
            hall (List.mem_append_left _ (List.mem_append_left _ hx))
          obtain rfl := Except.ok.inj h₁.of_work_pure.1
          exact ⟨fun _ => ⟨vars, hvars, rfl⟩, by simp [hcompiles], hextra⟩
      | false =>
          rw [hcompiles, if_neg (by simp)] at henv
          obtain rfl := Except.ok.inj henv.of_work_pure.1
          obtain ⟨args, -, rfl⟩ := command_eq_ok_iff.mp hcommand
          exact ⟨by simp [hcompiles], fun _ => rfl, hextra⟩

namespace Bootstrap

open Build (Part)

variable {v : Bootstrap} {q : Request} {command : String} {c i d : Option Tried}

theorem gets_of_part {p : Part} {tried : Option Tried} {res : Except BuildError StageOutcome}
    (hsupplies : v.host.Supplies inherited all P) (ht : t.Has P) (hw : w.environ = inherited)
    (h : p.Went o v.build a t w tried res t' tr w') (hall : tr ⊆ all) :
    (∀ x ∈ tried, x.1.Gets P) ∧ w'.environ = inherited ∧ ∀ out, res = .ok out → t'.Has P := by
  refine ⟨h.gets hsupplies ht hw hall, h.goes.environ_eq.trans hw, ?_⟩
  rintro out rfl
  exact Part.has_of_goes hsupplies ht hw h.goes hall

/-- The steps under the lock give the environment to their commands,
and leave it to what comes after. -/
theorem gets_of_steps {res : Except BootstrapError Path}
    (hsupplies : v.host.Supplies inherited all P) (ht : t.Has P) (hw : w.environ = inherited)
    (h : StepsCourse o v a t w c i res t' tr w') (hall : tr ⊆ all) :
    (∀ x ∈ c, x.1.Gets P) ∧ (∀ x ∈ i, x.1.Gets P) ∧
      w'.environ = inherited ∧ ∀ install, res = .ok install → t'.Has P := by
  cases h with
  | unfetched hfetch => simp [hfetch.environ_eq.trans hw]
  | unconfigured hfetch hconfigure =>
      obtain ⟨hc, hw₂, -⟩ := gets_of_part hsupplies ht (hfetch.environ_eq.trans hw) hconfigure
        fun x hx => hall (List.mem_append_right _ hx)
      exact ⟨hc, by simp, hw₂, by simp⟩
  | uninstalled hfetch hconfigure hinstall =>
      obtain ⟨hc, hw₂, ht₁⟩ :=
        gets_of_part hsupplies ht (hfetch.environ_eq.trans hw) hconfigure
        fun x hx => hall (List.mem_append_right _ (List.mem_append_left _ hx))
      obtain ⟨hi, hw₃, -⟩ := gets_of_part hsupplies (ht₁ _ rfl) hw₂ hinstall fun x hx =>
        hall (by simp [hx])
      exact ⟨hc, hi, hw₃, by simp⟩
  | done hfetch hconfigure hinstall hsaid =>
      obtain ⟨hc, hw₂, ht₁⟩ :=
        gets_of_part hsupplies ht (hfetch.environ_eq.trans hw) hconfigure
        fun x hx => hall (List.mem_append_right _ (List.mem_append_left _ hx))
      obtain ⟨hi, hw₃, ht₂⟩ := gets_of_part hsupplies (ht₁ _ rfl) hw₂ hinstall fun x hx =>
        hall (by simp [hx])
      exact ⟨hc, hi, hsaid.environ_eq.trans hw₃, fun _ _ => ht₂ _ rfl⟩

theorem gets_of_prepare {res : Except BootstrapError Path}
    (hsupplies : v.host.Supplies inherited all P) (ht : t.Has P) (hw : w.environ = inherited)
    (h : PrepareCourse o v a command t w c i res t' tr w') (hall : tr ⊆ all) :
    (∀ x ∈ c, x.1.Gets P) ∧ (∀ x ∈ i, x.1.Gets P) ∧
      w'.environ = inherited ∧ ∀ install, res = .ok install → t'.Has P := by
  cases h with
  | refused hlock => simp [hlock.environ_eq.trans hw]
  | held hlock hsteps hfree =>
      obtain ⟨hc, hi, hw₂, ht'⟩ :=
        gets_of_steps hsupplies ht (hlock.environ_eq.trans hw) hsteps
        fun x hx => hall (List.mem_append_right _ (List.mem_append_left _ hx))
      exact ⟨hc, hi, hfree.environ_eq.trans hw₂, ht'⟩

theorem gets_of_course {res : Except BootstrapError Unit}
    (hsupplies : v.host.Supplies w.environ tr P) (h : Course o v q w c i d res tr w') :
    (∀ x ∈ c, x.1.Gets P) ∧ (∀ x ∈ i, x.1.Gets P) ∧
      ∀ x ∈ d, v.downstream.Gets q (v.root.install q.arch) P x.1 := by
  have hfirst : (Toolchain.of q.arch).Has P := by simp [Toolchain.Has, Toolchain.of]
  cases h with
  | unprepared hprepare =>
      obtain ⟨hc, hi, -⟩ := gets_of_prepare hsupplies hfirst rfl hprepare (List.Subset.refl _)
      exact ⟨hc, hi, by simp⟩
  | prepared hprepare hinvoke =>
      obtain ⟨hc, hi, hw₁, ht⟩ :=
        gets_of_prepare hsupplies hfirst rfl hprepare (List.subset_append_left ..)
      obtain rfl := hprepare.eq_install
      exact ⟨hc, hi,
        hinvoke.course.gets hsupplies (ht _ rfl) hw₁ (List.subset_append_right ..)⟩

/-- What a run gives to its commands, where `resolved` are the
variables that were resolved for it. -/
structure Equips (v : Bootstrap) (q : Request) (inherited : Environ)
    (resolved : Bytes → Option Bytes) (c i d : Option Tried) : Prop where
  configure : ∀ x ∈ c, (x.1.environ inherited).get? = resolved
  install : ∀ x ∈ i, (x.1.environ inherited).get? = resolved
  tool : ∀ x ∈ d, ∀ name, (x.1.environ inherited).get? name =
    if name = Utf8.encode v.settings.cargo.prefixVariable then some
      (v.root.install q.arch).bytes
    else if q.action = .format ∨ q.action = .clean then inherited.get? name
    else resolved name

theorem equips_of_gets {resolved : String → Option String}
    (hc : ∀ x ∈ c, x.1.Gets fun vars => ∀ n, vars.get? n = resolved n)
    (hi : ∀ x ∈ i, x.1.Gets fun vars => ∀ n, vars.get? n = resolved n)
    (hd : ∀ x ∈ d,
      v.downstream.Gets q (v.root.install q.arch)
        (fun vars => ∀ n, vars.get? n = resolved n) x.1) :
    v.Equips q inherited (inOctets resolved) c i d := by
  have hpart {cmd : Command} (h : cmd.Gets fun vars => ∀ n, vars.get? n = resolved n) :
      (cmd.environ inherited).get? = inOctets resolved := by
    obtain ⟨⟨vars, hvars, hgiven⟩, hextra⟩ := h
    funext name
    rw [Command.get?_environ_of_none hextra, hgiven, Option.elim_some,
      Variables.get?_toEnviron_of hvars]
  refine ⟨fun x hx => hpart (hc x hx), fun x hx => hpart (hi x hx), fun x hx name => ?_⟩
  obtain ⟨hcompiles, hbare, hextra⟩ := hd x hx
  rw [Command.get?_environ_of_one hextra]
  congr 1
  cases hq : q.action.compiles with
  | true =>
      obtain ⟨vars, hvars, hgiven⟩ := hcompiles hq
      rw [hgiven, Option.elim_some, Variables.get?_toEnviron_of hvars, if_neg]
      revert hq
      cases q.action <;> decide
  | false =>
      rw [hbare hq, Option.elim_none, if_pos]
      revert hq
      cases q.action <;> decide

/-- The commands that configure and install LLVM get just the resolved variables: those that
are configured over those that were found. So does the build tool of the project, unless it
formats or cleans: then it gets all that the tool itself has. Its own variable has the
install directory in any case. -/
theorem environments_effective (settings : Settings) (root : Root) (s : System)
    (q : Request) {σ : Type} (o : Outside σ) (w : World σ) :
    let v : Bootstrap := ⟨settings, root, s.platform settings⟩
    (v.run q).Throughout o (fun w' _ => w'.environ = w.environ)
      (fun _ w' => w'.environ = w.environ) w ∧
    (v.run q).Traced o (fun res tr _ => ∃ c i d, v.Ordered q c i d res tr ∧
      v.Equips q w.environ (inOctets (s.resolved settings w.environ tr)) c i d) w := by
  refine ⟨throughout_environ _ o rfl, ?_⟩
  obtain ⟨c, i, d, hcourse, hordered⟩ :=
    ordered_of_goes (v := ⟨settings, root, s.platform settings⟩)
    (s.platform settings).onlyAsks (s.platform settings).isCareful
    (Goes.run o (Bootstrap.run ⟨settings, root, s.platform settings⟩ q) w)
  obtain ⟨turns, htakes⟩ := takes_of_course hcourse
  have hone :
      (captures ((Bootstrap.run ⟨settings, root, s.platform settings⟩ q).trace o w)).length ≤
      1 := by
    rw [htakes.captures]
    rcases htakes.series.collects rfl htakes.ok with
      hnothing | ⟨-, hnothing | ⟨m, install, -, hone⟩⟩
    · simp [hnothing]
    · simp [hnothing]
    · simp [hone]
  obtain ⟨hc, hi, hd⟩ := gets_of_course (s.supplies settings w.environ hone) hcourse
  exact ⟨c, i, d, hordered, equips_of_gets hc hi hd⟩

end Bootstrap

end LlvmBootstrap
