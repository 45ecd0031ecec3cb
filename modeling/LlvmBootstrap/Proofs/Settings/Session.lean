import Mathlib
import LlvmBootstrap.CommandLine
import LlvmBootstrap.Proofs.Machine.Throughout
import LlvmBootstrap.Proofs.Archive.Confinement
import LlvmBootstrap.Proofs.Settings.Decoding

/-!
The settings that a run works with. They are those of the settings file but for two, over which
the environment stands, and over it, for the root, the command line.
-/

namespace LlvmBootstrap

open Program

namespace Settings

variable {σ : Type} {o : Outside σ} {w : World σ} {p : Path} {content : String}
  {es : Toml.Entries} {s : Settings} {asked : Option Path}

/-! ### Loading a file -/

theorem run_ofFile (hread : w.tree.readFile w.cwd p = .ok (Utf8.encode content)) :
    (ofFile p).run.run o w = ((ofText content).mapError (.invalid p), w) := by
  have hperform : w.perform o (.read p) = (.ok (Utf8.encode content), w) := Prod.ext hread rfl
  rw [ofFile, run_bind_ok (run_make hperform)]
  dsimp only
  rw [Utf8.decode?_encode]
  dsimp only
  cases ofText content <;> rfl

theorem run_exists_ (hread : w.tree.readFile w.cwd p = .ok (Utf8.encode content)) :
    (exists_ p).run o w = (true, w) := by
  rw [Tree.readFile] at hread
  obtain ⟨found, hlookup, -⟩ := bind_eq_ok_iff.mp hread
  have hexists : (exists_ p).run o w =
      (((w.tree.lookup w.cwd true p).map (·.2.objectKind)).isOk, w) := rfl
  rw [hexists, hlookup]
  rfl

theorem ofText_eq_ok_iff (hdoc : Toml.document content = .ok es) :
    ofText content = .ok s ↔ ofEntries es = .ok s := by
  rw [ofText, hdoc]
  dsimp only
  cases ofEntries es <;> simp [Except.mapError]

theorem ofFile_eq_ok_iff (hread : w.tree.readFile w.cwd p = .ok (Utf8.encode content)) :
    ((ofFile p).run.run o w).1 = .ok s ↔ ofText content = .ok s := by
  rw [run_ofFile hread]
  cases ofText content <;> simp [Except.mapError]

/-- The file from which the settings come: the one that is asked for, or else
the one that is always looked for. -/
inductive IsLoaded : Option Path → Path → Prop
  | asked (p : Path) : IsLoaded (some p) p
  | default : IsLoaded none (Path.ofString Defaults.settingsFile)

theorem run_load (hread : w.tree.readFile w.cwd p = .ok (Utf8.encode content))
    (hs : ofText content = .ok s) (hp : IsLoaded asked p) :
    (load asked).run.run o w = (.ok (s.withEnvironment w.environ), w) := by
  have hfile : (ofFile p).run.run o w = (.ok s, w) := by
    rw [run_ofFile hread, hs]
    rfl
  have hfrom : (fromFile asked).run.run o w = (.ok s, w) := by
    cases hp with
    | asked | default =>
        rw [fromFile]
        rw [run_bind_ok (run_lift (run_exists_ hread))]
        exact hfile
  rw [load, run_bind_ok hfrom]
  rfl

/-! ### What stands over the file -/

/-- A setting is the option, else what the environment variable is set to if that is a text,
else what is in the file. -/
inductive Chosen (option : Option Path) (e : Environ) (name : String)
    (file chosen : Option Path) : Prop
  | option {p : Path} (hp : option = some p)
      (hchosen : chosen = some p) : Chosen option e name file chosen
  | environ {t : String} (hnone : option = none)
      (ht : e.get? (Utf8.encode name) = some (Utf8.encode t))
      (hchosen : chosen = some (Path.ofString t)) : Chosen option e name file chosen
  | file (hnone : option = none)
      (hunset : ∀ t, e.get? (Utf8.encode name) ≠ some (Utf8.encode t))
      (hchosen : chosen = file) : Chosen option e name file chosen

theorem text?_eq_some_iff {e : Environ} {name t : String} :
    e.text? name = some t ↔ e.get? (Utf8.encode name) = some (Utf8.encode t) := by
  rw [Environ.text?, Option.bind_eq_bind, Option.bind_eq_some_iff]
  constructor
  · rintro ⟨bs, hbs, ht⟩
    rw [hbs, Utf8.encode_of_decode? ht]
  · exact fun ht => ⟨_, ht, Utf8.decode?_encode t⟩

theorem chosen_or (option : Option Path) (e : Environ) (name : String) (file : Option Path) :
    Chosen option e name file (option.or (((e.text? name).map Path.ofString).or file)) := by
  cases option with
  | some p => exact .option rfl rfl
  | none =>
      cases ht : e.text? name with
      | some t => exact .environ rfl (text?_eq_some_iff.mp ht) rfl
      | none => exact .file rfl (fun t hset => by simp [text?_eq_some_iff.mpr hset] at ht) rfl

/-- The session works with the settings of the file, over which the command line and the
environment stand for the root, and the environment for the installation of MSVC. The root is
seen from the current directory. -/
structure Opened (s : Settings) (opts : CommandLine.Options) (w : World σ)
    (b : Bootstrap) : Prop where
  settings : b.settings =
    { s with
      root := b.settings.root
      msvc := { s.msvc with install := b.settings.msvc.install } }
  root : Chosen opts.root w.environ Defaults.rootVariable s.root b.settings.root
  install : Chosen none w.environ Defaults.msvcVariable s.msvc.install b.settings.msvc.install
  layout : b.root.path =
    Path.ofLocation w.cwd / b.settings.root.getD (Path.ofString Defaults.rootDir)
  absolute : b.root.path.isAbsolute = true

/-- What is seen from an absolute path is absolute. -/
theorem isAbsolute_join {p q : Path} (h : p.isAbsolute = true) :
    (p / q).isAbsolute = true := by
  cases hq : q.isAbsolute with
  | true =>
      change (p.join q).isAbsolute = true
      rwa [Path.join, hq, if_pos rfl]
  | false =>
      rw [Path.isAbsolute_join p hq, h]

theorem exists_opened (hread : w.tree.readFile w.cwd p = .ok (Utf8.encode content))
    (hs : ofText content = .ok s) {opts : CommandLine.Options} (hp : IsLoaded opts.config p) :
    ∃ b, (CommandLine.openSession opts).run.run o w = (.ok b, w) ∧ Opened s opts w b := by
  have hload : ((load opts.config).adapt CommandLine.TaskError.settings).run.run o w =
      (.ok (s.withEnvironment w.environ), w) := by
    rw [run_adapt, run_bind, run_load hread hs hp]
    rfl
  refine ⟨_, by rw [CommandLine.openSession, run_bind_ok hload]; rfl, ⟨rfl, ?_, ?_, rfl, ?_⟩⟩
  · exact chosen_or opts.root w.environ Defaults.rootVariable s.root
  · exact chosen_or none w.environ Defaults.msvcVariable s.msvc.install
  · exact isAbsolute_join rfl

/-- **Settings and what stands over them.** A file that can be read as a document is one
of settings just if each entry by itself may stand there. Then each setting is what is
said of it in the file or else its default, and a session that is opened with the file
works with these settings but for the root and the installation of MSVC, over which the
command line and the environment stand. -/
theorem opened_of_document (o : Outside σ)
    (hread : w.tree.readFile w.cwd p = .ok (Utf8.encode content))
    (hdoc : Toml.document content = .ok es) :
    Toml.Entries.Distinct es ∧
    ((∃ s, ((ofFile p).run.run o w).1 = .ok s) ↔ ∀ e ∈ pairs es, Fits e.1 e.2) ∧
    ∀ s, ((ofFile p).run.run o w).1 = .ok s → IsSaid (pairs es) s ∧
      ∀ opts : CommandLine.Options, IsLoaded opts.config p →
        ∃ b, (CommandLine.openSession opts).run.run o w = (.ok b, w) ∧ Opened s opts w b := by
  have hes := Toml.distinct_of_document hdoc
  simp only [ofFile_eq_ok_iff hread]
  refine ⟨hes, ?_, fun s hs => ⟨?_, fun opts hp => exists_opened hread hs hp⟩⟩
  · simp only [ofText_eq_ok_iff hdoc]
    exact exists_ofEntries_iff
  · exact isSaid_of_ofEntries hes ((ofText_eq_ok_iff hdoc).mp hs)

def ninja : World Unit :=
  let unplaced : Tree := ⟨.empty, [⟨0o644, Utf8.encode "[cmake]\ngenerator = 'Ninja'\n"⟩]⟩
  .fresh (unplaced.put ["newt-build.toml".toUTF8.toList] (.file 0)) []
    (.ofList [(Utf8.encode "NEWT_BUILD_ROOT", Utf8.encode "/opt/llvm")]) 1 ()

theorem opened_of_document_ninja :
    let text := "[cmake]\ngenerator = 'Ninja'\n"
    let es : Toml.Entries :=
      [(⟨1, "cmake"⟩, ⟨0, .table .defined [(⟨8, "generator"⟩, ⟨20, .text "Ninja"⟩)]⟩)]
    let options : CommandLine.Options := ⟨.x64, false, none, none⟩
    ninja.tree.readFile ninja.cwd (Path.ofString Defaults.settingsFile) =
      .ok (Utf8.encode text) ∧
      Toml.document text = .ok es ∧ ∃ s b,
        ((ofFile (Path.ofString Defaults.settingsFile)).run.run Archive.silent ninja).1 =
          .ok s ∧
        s.llvm = .default ∧ s.root = none ∧
        (CommandLine.openSession options).run.run Archive.silent ninja = (.ok b, ninja) ∧
        Opened s options ninja b ∧ b.settings.llvm = .default := by
  intro text es options
  have hread : ninja.tree.readFile ninja.cwd (Path.ofString Defaults.settingsFile) =
      .ok (Utf8.encode text) := by cbv
  have hdoc : Toml.document text = .ok es := by cbv
  obtain ⟨-, hsettings, hsaid⟩ := opened_of_document Archive.silent hread hdoc
  have hfits : ∀ e ∈ pairs es, Fits e.1 e.2 := by
    simpa [pairs, es] using .struct rfl rfl (by simp [pairs])
  obtain ⟨s, hs⟩ := hsettings.mpr hfits
  obtain ⟨hgiven, hopened⟩ := hsaid s hs
  obtain ⟨b, hb, hover⟩ := hopened options .default
  have hllvm : s.llvm = .default := by
    cases hgiven.llvm with
    | written hv => simp [pairs, es] at hv
    | unwritten _ hx => exact hx
  have hroot : s.root = none := by
    cases hgiven.root with
    | written hv => simp [pairs, es] at hv
    | unwritten _ hx => exact hx
  exact ⟨hread, hdoc, s, b, hs, hllvm, hroot, hb, hover,
    (congrArg Settings.llvm hover.settings).trans hllvm⟩

/-- A date under `compilers` is taken for a table with one text, though it is none. -/
theorem ofText_moment :
    ∃ es v, Toml.document "compilers = 1979-05-27" = .ok es ∧ pairs es = [("compilers", v)] ∧
      (∀ kind entries, v ≠ .table kind entries) ∧
      ∃ s, ofText "compilers = 1979-05-27" = .ok s ∧
        s.compilers = some (.ofList [(momentKey, "1979-05-27")]) := by
  have hdoc : Toml.document "compilers = 1979-05-27" =
      .ok [(⟨0, "compilers"⟩, ⟨12, .moment "1979-05-27"⟩)] := by cbv
  have hother : ∀ kind es, Toml.Value.moment "1979-05-27" ≠ .table kind es := by simp
  refine ⟨_, _, hdoc, rfl, hother, { default with compilers := _ },
    (ofText_eq_ok_iff hdoc).mpr ?_, rfl⟩
  cbv

end Settings

end LlvmBootstrap
