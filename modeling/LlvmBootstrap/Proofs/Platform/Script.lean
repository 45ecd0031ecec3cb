import LlvmBootstrap.Proofs.Environment.Dump
import LlvmBootstrap.Proofs.Run.Capture

/-!
The environment of MSVC. Which installation is used is found out by looking at paths alone; if
there is one, its script is run once, and what it has printed counts only if it has succeeded
and has set something. The configured compilers are put over that in the end.
-/

namespace LlvmBootstrap

open Program

/-! ### Looking for directories -/

namespace Program

variable {σ : Type} {o : Outside σ} {C : World σ → Call → Prop} {w : World σ}

theorem throughout_firstDir? {ps : List Path} (h : ∀ p, C w (.look true p)) :
    (firstDir? ps).Throughout o C
      (fun found w' => w' = w ∧ found = ps.find? fun p => w.tree.isDir w.cwd p) w := by
  induction ps with
  | nil => exact ⟨rfl, rfl⟩
  | cons p ps ih =>
      rw [firstDir?]
      refine (throughout_isDir (h p)).bind ?_
      rintro found w' ⟨rfl, hfound⟩
      rw [List.find?_cons, ← hfound]
      cases found with
      | true => exact ⟨rfl, rfl⟩
      | false => exact ih

end Program

namespace Msvc

variable {σ : Type} {o : Outside σ} {m : Msvc} {a : Arch} {w w' : World σ} {tr : List Answered}

def editionDir (m : Msvc) (edition : String) : Path := m.baseDir / Path.ofString edition

/-- Which installation is used, if `there` are the paths that lead to directories: the
configured one and no other, or else that of the first edition that is there. -/
inductive Finds (m : Msvc) (there : Path → Prop) : Except PlatformError Path → Prop
  | configured {p : Path} (hinstall : m.install = some p)
      (hthere : there p) : Finds m there (.ok p)
  | missing {p : Path} (hinstall : m.install = some p) (hthere : ¬there p) :
      Finds m there (.error (.installMissing p))
  | edition {before after : List String} {e : String} (hinstall : m.install = none)
      (heditions : editions = before ++ e :: after) (hthere : there (m.editionDir e))
      (hbefore : ∀ e' ∈ before, ¬there (m.editionDir e')) :
      Finds m there (.ok (m.editionDir e))
  | none (hinstall : m.install = none) (hthere : ∀ e ∈ editions, ¬there (m.editionDir e)) :
      Finds m there (.error (.noToolchain m.baseDir))

theorem throughout_findInstall (m : Msvc) (o : Outside σ) (w : World σ) :
    m.findInstall.run.Throughout o (fun _ _ => True)
      (fun found w' => w' = w ∧ m.Finds (fun p => w.tree.isDir w.cwd p = true) found) w := by
  rw [findInstall]
  cases hinstall : m.install with
  | some p =>
      refine Throughout.attempt_lift_bind_iff.mpr ((throughout_isDir trivial).post ?_)
      rintro found w' ⟨rfl, hfound⟩
      cases found with
      | true => exact ⟨rfl, .configured hinstall hfound.symm⟩
      | false => exact ⟨rfl, .missing hinstall (by simp [← hfound])⟩
  | none =>
      refine Throughout.attempt_lift_bind_iff.mpr
        ((throughout_firstDir? fun _ => trivial).post ?_)
      rintro found w' ⟨rfl, hfound⟩
      rw [List.find?_map] at hfound
      cases hfirst : editions.find? fun e => w'.tree.isDir w'.cwd (m.editionDir e) with
      | some e =>
          obtain ⟨hthere, before, after, heditions, hbefore⟩ :=
            List.find?_eq_some_iff_append.mp hfirst
          rw [show found = some (m.editionDir e)
            from hfound.trans (congrArg (Option.map _) hfirst)]
          exact ⟨rfl,
            .edition hinstall heditions hthere fun e' he' => by simpa using hbefore e' he'⟩
      | none =>
          rw [show found = none from hfound.trans (congrArg (Option.map _) hfirst)]
          exact ⟨rfl,
            .none hinstall fun e he => by simpa using List.find?_eq_none.mp hfirst e he⟩

/-! ### The script -/

def scriptName : Arch → String
  | .x64 => "vcvars64.bat"
  | .x86 => "vcvars32.bat"

def calling (script : Path) : Command where
  program := "cmd.exe"
  args :=
    [Utf8.encode "/C", Utf8.encode "call", script.bytes, Utf8.encode "&&", Utf8.encode "set"]
  dir := none
  vars := none
  extra := .empty

def scriptIn (install : Path) (a : Arch) : Path :=
  install / Path.ofNames (["VC", "Auxiliary", "Build", scriptName a].map Utf8.encode)

theorem script_eq (install : Path) (a : Arch) : script install a = scriptIn install a := by
  cases a <;>
    · rw [script, Path.join_join, Path.join_join, Path.join_join]
      · rfl
      all_goals decide

theorem initCommand_eq (install : Path) (a : Arch) :
    initCommand install a = calling (scriptIn install a) := by
  rw [← script_eq]
  rfl

def printed (f : Finished) : List (List Char) := Lines.split (Utf8.lossy f.out).toList

open Variables (Sets LastSets)

/-- What the command of a script comes to makes the environment, or an
error that names the command. -/
inductive Makes (m : Msvc) (c : Command) :
    Except Failure Finished → Except PlatformError Variables → Prop
  | unstarted {e : Failure} : Makes m c (.error e) (.error (.failed e))
  | failed {f : Finished} (hstatus : f.status.code ≠ some 0) :
      Makes m c (.ok f) (.error (.initFailed c.line f.status))
  | empty {f : Finished} (hstatus : f.status.code = some 0)
      (hnone : ∀ line ∈ printed f, ∀ name value, ¬Sets line name value) :
      Makes m c (.ok f) (.error (.emptyEnvironment c.line))
  | made {f : Finished} {vars : Variables} (hstatus : f.status.code = some 0)
      (hsome : ∃ line ∈ printed f, ∃ name value, Sets line name value)
      (hvars : ∀ name value, vars.get? name = some value ↔ m.compilers.get? name = some value ∨
        m.compilers.get? name = none ∧ LastSets Sets (printed f) name value) :
      Makes m c (.ok f) (.ok vars)

variable {res : Except PlatformError Variables}

def taking (m : Msvc) (c : Command) : Except Failure Finished → Attempt PlatformError Variables
  | .error e => throw (.failed e)
  | .ok f =>
    if !f.status.isSuccess then throw (.initFailed c.line f.status)
    else if (Variables.ofDump
      (Utf8.lossy f.out)).entries.isEmpty then throw (.emptyEnvironment c.line)
    else pure ((Variables.ofDump (Utf8.lossy f.out)).withOverrides m.compilers)

theorem environment_eq (m : Msvc) (a : Arch) :
    m.environment a = (do
      let install ← m.findInstall
      let c := calling (scriptIn install a)
      make (.log .info "initializing MSVC environment")
      let answer ← make (.spawn .collected c)
      m.taking c answer) := by
  rw [environment]
  refine bind_congr fun install => ?_
  rw [initCommand_eq]
  refine bind_congr fun _ => bind_congr fun answer => ?_
  cases answer with
  | error e => rfl
  | ok f =>
      dsimp only [taking]
      split
      · rfl
      · split <;> rfl

theorem makes_of_taking {c : Command} {answer : Except Failure Finished}
    (h : (m.taking c answer).run.Goes o w res tr w') : m.Makes c answer res ∧ tr = [] := by
  rcases answer with e | f
  · obtain ⟨rfl, rfl, -⟩ := h.of_pure
    exact ⟨.unstarted, rfl⟩
  rw [taking] at h
  split at h
  · next hfailed =>
      obtain ⟨rfl, rfl, -⟩ := h.of_pure
      exact ⟨.failed (by simpa [Status.isSuccess] using hfailed), rfl⟩
  · next hsuccess =>
      have hstatus : f.status.code = some 0 := by simpa [Status.isSuccess] using hsuccess
      split at h
      · next hempty =>
          obtain ⟨rfl, rfl, -⟩ := h.of_pure
          rw [List.isEmpty_iff, Variables.entries_ofDump_eq_nil_iff] at hempty
          exact ⟨.empty hstatus hempty, rfl⟩
      · next hsome =>
          obtain ⟨rfl, rfl, -⟩ := h.of_pure
          rw [List.isEmpty_iff, Variables.entries_ofDump_eq_nil_iff] at hsome
          push Not at hsome
          refine ⟨.made hstatus hsome fun name value => ?_, rfl⟩
          rw [Variables.get?_withOverrides, Option.or_eq_some_iff,
            Variables.get?_ofDump_eq_some_iff]
          rfl

/-- To make the environment an installation is looked for. Where none is found nothing is run;
else the script of the one that is found is run, once, and what it comes to decides. -/
theorem traced_environment (m : Msvc) (a : Arch) (o : Outside σ) (w : World σ) :
    (m.environment a).run.Traced o (fun res tr _ =>
      (∃ e, m.Finds (fun p => w.tree.isDir w.cwd p = true) (.error e) ∧ res = .error e ∧
        outward tr = []) ∨
      ∃ install answer, m.Finds (fun p => w.tree.isDir w.cwd p = true) (.ok install) ∧
        outward tr = [⟨.spawn .collected (calling (scriptIn install a)), answer⟩] ∧
        m.Makes (calling (scriptIn install a)) answer res) w := by
  have hgoes := Goes.run o (m.environment a).run w
  rw [Traced]
  revert hgoes
  generalize (m.environment a).run.run o w = ended
  generalize (m.environment a).run.trace o w = tr
  obtain ⟨res, w'⟩ := ended
  intro hgoes
  rw [environment_eq] at hgoes
  rcases hgoes.of_attempt_bind with ⟨e, rfl, hfind⟩ | ⟨install, w₁, _, _, hfind, h₁, rfl⟩
  · exact .inl ⟨e, (hfind.at_end (m.throughout_findInstall o w)).2, rfl,
      outward_of_own m.findInstall_onlyOwn hfind⟩
  obtain ⟨_, w₂, _, _, hsaid, h₂, rfl⟩ := h₁.of_attempt_lift_bind
  obtain ⟨answer, w₃, _, rest, hspawn, h₃, rfl⟩ := h₂.of_attempt_lift_bind
  obtain ⟨hmakes, rfl⟩ := makes_of_taking h₃
  refine .inr ⟨install, answer, (hfind.at_end (m.throughout_findInstall o w)).2, ?_, hmakes⟩
  rw [outward_append, outward_append, outward_append,
    outward_of_own m.findInstall_onlyOwn hfind, hsaid.of_ask.2, hspawn.of_ask.2]
  rfl

end Msvc

end LlvmBootstrap
