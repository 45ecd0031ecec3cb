import Mathlib
import LlvmBootstrap.Proofs.Build.Course
import LlvmBootstrap.Proofs.Machine.Asking
import LlvmBootstrap.Proofs.Machine.MadeDirs
import LlvmBootstrap.Proofs.Root.Tidy
import LlvmBootstrap.Proofs.Tree.Removal

/-!
What a failed part of a build leaves behind. A part is reset once if its command has been tried
and has failed, and not otherwise. Where the directories of the root are the record, a failed
part is not complete, whatever its command has made of its directory, so the next call does the
part again.
-/

namespace LlvmBootstrap

open Program LlvmBootstrap.Tree

namespace Root

variable {σ : Type} {o : Outside σ} {r : Root} {s : Stage} {w w' : World σ}
  {tr : List Answered}

theorem goes_isComplete {done : Bool} (h : (r.isComplete s).Goes o w done tr w') :
    w' = w ∧ done = w.tree.isDir w.cwd (r.marker s) := by
  have hlook : (r.isComplete s).Throughout o (fun _ _ => True)
      (fun done w' => w' = w ∧ done = w.tree.isDir w.cwd (r.marker s)) w :=
        throughout_isDir trivial
  exact h.at_end hlook

theorem last_steps_marker (r : Root) (s : Stage) :
    (steps (r.marker s)).getLast? = some (.name (markerName s)) := by
  rw [((r.extends_marker s).last (List.cons_ne_nil _ _)).1]
  exact r.last_moves_marker s

/-- A reset that succeeds leaves nothing where the directory of the stage is to be. -/
theorem isAbsent_of_reset (h : (r.reset s).run.Goes o w (.ok ()) tr w') :
    IsAbsent w'.tree w'.cwd (r.marker s) := by
  have hreset : (r.reset s).run.Throughout o (fun _ _ => True)
      (fun res w' => res = .ok () → IsAbsent w'.tree w'.cwd (r.marker s)) w := by
    refine Throughout.attempt_change_bind trivial (fun t' happ _ => ?_) fun e happ => ?_
    · exact isAbsent_of_removeAll (r.last_steps_marker s) happ
    · cases e with
      | notFound => exact fun _ => isAbsent_of_removeAll_notFound happ
      | _ => exact nofun
  exact h.at_end hreset rfl

end Root

namespace Build

variable {σ : Type} {o : Outside σ} {b : Build} {a : Arch} {p : Part} {t : Toolchain}
  {w w' : World σ} {tr : List Answered}

theorem keeps_of_goes {α : Type} {q : Program α} {x : α} (ho : o.CollectsOnly)
    (hq : q.Only Call.Asks) (h : q.Goes o w x tr w') : w'.tree = w.tree ∧ w'.cwd = w.cwd := by
  have hkeeps := hq.keeps ho w
  rwa [h.1] at hkeeps

/-- Where a part can stop before its command, in the world `w`: at the platform, with the files
as they were, or at the directory of the part. -/
inductive Stop (o : Outside σ) (b : Build) (a : Arch) (p : Part) (w : World σ) :
    BuildError → World σ → Prop
  | platform {w' : World σ} (e : PlatformError) (htree : w'.tree = w.tree)
      (hcwd : w'.cwd = w.cwd) :
      Stop o b a p w (.platform e) w'
  | directory {w₁ w' : World σ} {cause : Errno} (htree : w₁.tree = w.tree)
      (hcwd : w₁.cwd = w.cwd)
      (h : (makeDirs (b.root.marker (p.stage a))).run.run o w₁ = (.error cause, w')) :
      Stop o b a p w (.failed cause) w'

/-- The environment either stops the work or is there, and the files are as they were. -/
theorem goes_of_environment {β : Type} {f : Variables → Work BuildError β}
    {res : Except BuildError β} {t' : Toolchain} (ho : o.CollectsOnly)
    (hasks : b.host.OnlyAsks)
    (h : (((Work.environment b.host).adapt .platform >>= f).start t).Goes o w
      (res, t') tr w') :
    (∃ cause, res = .error (.platform cause) ∧ w'.tree = w.tree ∧ w'.cwd = w.cwd) ∨
      ∃ vars t₁ w₁ tr₁, ((f vars).start t₁).Goes o w₁ (res, t') tr₁ w' ∧ w₁.tree = w.tree ∧
        w₁.cwd = w.cwd := by
  rw [Work.start_bind, Work.start_adapt, LawfulMonad.bind_assoc] at h
  obtain ⟨⟨found, t₁⟩, w₁, _, tr₁, henv, h₁, -⟩ := h.of_bind
  obtain ⟨htree, hcwd⟩ := keeps_of_goes ho (Work.environment_onlyAsks hasks t) henv
  rw [pure_bind] at h₁
  cases found with
  | error cause =>
      obtain ⟨heq, -, rfl⟩ := Goes.of_pure h₁
      exact .inl ⟨cause, (Prod.mk.inj heq).1, htree, hcwd⟩
  | ok vars => exact .inr ⟨vars, t₁, w₁, tr₁, h₁, htree, hcwd⟩

theorem goes_of_said {ε β : Type} {level : Level} {text : String}
    {f : (Call.log level text).Answer → Work ε β} {res : Except ε β × Toolchain}
    (h : ((make (.log level text) >>= f).start t).Goes o w res tr w') :
    ∃ w₁ tr₁, ((f ()).start t).Goes o w₁ res tr₁ w' ∧ w₁.tree = w.tree ∧ w₁.cwd = w.cwd := by
  rw [make, Work.start_lift_bind] at h
  obtain ⟨_, w₁, _, tr₁, hsaid, h₁, -⟩ := h.of_bind
  obtain ⟨hperform, -⟩ := hsaid.of_ask
  obtain ⟨-, rfl⟩ := Prod.mk.inj hperform
  exact ⟨_, tr₁, h₁, rfl, rfl⟩

theorem stop_of_goes_ready {e : BuildError} {t' : Toolchain} (ho : o.CollectsOnly)
    (hasks : b.host.OnlyAsks) (h : ((p.ready b a).start t).Goes o w (.error e, t') tr w') :
    Stop o b a p w e w' := by
  cases p with
  | configure =>
      rw [Part.ready] at h
      cases hgen : b.host.generator a with
      | error cause =>
          rw [hgen] at h
          obtain ⟨heq, -, rfl⟩ := Goes.of_pure h
          obtain rfl := Except.error.inj (Prod.mk.inj heq).1
          exact .platform cause rfl rfl
      | ok generator =>
          rw [hgen] at h
          obtain ⟨cause, heq, htree, hcwd⟩ | ⟨vars, t₁, w₁, tr₁, h₁, htree, hcwd⟩ :=
            goes_of_environment ho hasks h
          · obtain rfl := Except.error.inj heq
            exact .platform cause htree hcwd
          · obtain ⟨w₂, tr₂, h₂, htree', hcwd'⟩ := goes_of_said h₁
            rw [Work.start_ofAttempt_bind, run_adapt, LawfulMonad.bind_assoc] at h₂
            obtain ⟨made, w₃, _, _, hmade, h₃, -⟩ := h₂.of_bind
            rw [pure_bind] at h₃
            cases made with
            | error cause =>
                obtain ⟨heq, -, rfl⟩ := Goes.of_pure h₃
                obtain rfl := Except.error.inj (Prod.mk.inj heq).1
                exact .directory (htree'.trans htree) (hcwd'.trans hcwd) hmade.1
            -- With the directory made the step is ready, which is no error.
            | ok u =>
                obtain ⟨heq, -, -⟩ := Goes.of_pure h₃
                cases heq
  | install =>
      obtain ⟨cause, heq, htree, hcwd⟩ | ⟨vars, t₁, w₁, tr₁, h₁, -, -⟩ :=
        goes_of_environment ho hasks h
      · obtain rfl := Except.error.inj heq
        exact .platform cause htree hcwd
      · obtain ⟨w₂, tr₂, h₂, -, -⟩ := goes_of_said h₁
        obtain ⟨heq, -, -⟩ := Goes.of_pure h₂
        cases heq

/-! ### What a failure leaves -/

variable {tried : Option (Command × Except Failure Finished)}
  {resets : List (Except Failure Unit)} {res : Except BuildError StageOutcome} {e : BuildError}

def TriedInVain (tried : Option (Command × Except Failure Finished)) : Prop :=
  ∃ cmd answer, tried = some (cmd, answer) ∧ Fails answer

/-- The part is reset once if its command has been tried in vain, and not otherwise. Its error
is then that of the command, whatever the reset came to. -/
structure ResetsOnFailure (s : Stage) (tried : Option (Command × Except Failure Finished))
    (resets : List (Except Failure Unit)) (res : Except BuildError StageOutcome) : Prop where
  once : TriedInVain tried → resets.length = 1
  never : ¬ TriedInVain tried → resets = []
  error : ∀ cmd answer, tried = some (cmd, answer) → Fails answer →
    ∃ e, res = .error e ∧ IsFault s cmd answer e

theorem Course.resetsOnFailure (h : Course o b a p t w tried resets res tr w') :
    ResetsOnFailure (p.stage a) tried resets res := by
  cases h with
  | skipped hlook hsaid =>
      exact ⟨fun ⟨_, _, heq, _⟩ => (nomatch heq), fun _ => rfl, nofun⟩
  | stopped hlook hready =>
      exact ⟨fun ⟨_, _, heq, _⟩ => (nomatch heq), fun _ => rfl, nofun⟩
  | ran hlook hready hcommand hdone hcheck =>
      constructor
      · rintro ⟨_, _, ⟨⟩, hfails⟩
        exact absurd hfails hdone
      · exact fun _ => rfl
      · rintro _ _ ⟨⟩ hfails
        exact absurd hfails hdone
  | reset hlook hready hcommand hfails hfault =>
      constructor
      · exact fun _ => rfl
      · exact fun h => absurd ⟨_, _, rfl, hfails⟩ h
      · rintro _ _ ⟨⟩ -
        exact ⟨_, rfl, hfault⟩

/-- The next call of a part does not skip it, and tries its command if it gets that far. -/
def Redone (o : Outside σ) (b : Build) (a : Arch) (p : Part) (t : Toolchain)
    (w : World σ) : Prop :=
  ((p.work b a).start t).Traced o (fun res tr w' => ∃ tried resets,
    Course o b a p t w tried resets res.1 tr w' ∧ res.1 ≠ .ok .skipped ∧
      ∀ cmd, (((p.ready b a).start t).run o w).1.1 = .ok cmd → ∃ answer,
        tried = some (cmd, answer)) w

theorem Course.redone (h : Course o b a p t w tried resets res tr w')
    (hr : b.record = b.root.record)
    (hnot : w.tree.isDir w.cwd (b.root.marker (p.stage a)) = false) :
    res ≠ .ok .skipped ∧
      ∀ cmd, (((p.ready b a).start t).run o w).1.1 = .ok cmd →
        ∃ answer, tried = some (cmd, answer) := by
  -- Without the marker the step is not skipped. In each of the other
  -- ways what is ready is also tried.
  cases h with
  | skipped hlook hsaid =>
      rw [hr] at hlook
      obtain ⟨-, hdone⟩ := Root.goes_isComplete hlook
      rw [hnot] at hdone
      contradiction
  | stopped hlook hready =>
      rw [hr] at hlook
      obtain ⟨rfl, -⟩ := Root.goes_isComplete hlook
      refine ⟨nofun, fun cmd hcmd => ?_⟩
      rw [hready.1] at hcmd
      contradiction
  | ran hlook hready hcommand hdone hcheck =>
      rw [hr] at hlook
      obtain ⟨rfl, -⟩ := Root.goes_isComplete hlook
      refine ⟨nofun, fun cmd hcmd => ?_⟩
      rw [hready.1] at hcmd
      obtain rfl := Except.ok.inj hcmd
      exact ⟨_, rfl⟩
  | reset hlook hready hcommand hfails hfault =>
      rw [hr] at hlook
      obtain ⟨rfl, -⟩ := Root.goes_isComplete hlook
      refine ⟨nofun, fun cmd hcmd => ?_⟩
      rw [hready.1] at hcmd
      obtain rfl := Except.ok.inj hcmd
      exact ⟨_, rfl⟩

/-- How a part stands that is not done, where the directories of the root are the record. -/
structure IsUndone (b : Build) (a : Arch) (p : Part)
    (tried : Option (Command × Except Failure Finished)) (w : World σ) : Prop where
  incomplete : w.tree.isDir w.cwd (b.root.marker (p.stage a)) = false
  absent : tried ≠ none → IsAbsent w.tree w.cwd (b.root.marker (p.stage a))
  redone : ∀ (o' : Outside σ) (b' : Build) (t' : Toolchain), b'.root = b.root →
    b'.record = b'.root.record → Redone o' b' a p t' w

theorem isUndone_of_isDir (hnot : w.tree.isDir w.cwd (b.root.marker (p.stage a)) = false)
    (habsent : tried ≠ none → IsAbsent w.tree w.cwd (b.root.marker (p.stage a))) :
    IsUndone b a p tried w := by
  refine ⟨hnot, habsent, fun o' b' t' hroot hr => ?_⟩
  obtain ⟨tried, resets, hcourse⟩ :=
    Part.course_of_goes (Goes.run o' ((p.work b' a).start t') w)
  rw [← hroot] at hnot
  exact ⟨tried, resets, hcourse, hcourse.redone hr hnot⟩

/-- An error from before the command that the platform has raised
leaves the files as they were. -/
theorem Course.tree_of_platform {cause : PlatformError} (ho : o.CollectsOnly)
    (hasks : b.host.OnlyAsks)
    (h : Course o b a p t w tried resets (.error (.platform cause)) tr w') :
    tried = none ∧ w'.tree = ((b.record.isComplete (p.stage a)).run o w).2.tree := by
  cases h with
  | stopped hlook hready =>
      cases stop_of_goes_ready ho hasks hready with
      | platform _ htree hcwd => exact ⟨rfl, htree.trans (congrArg (·.2.tree) hlook.1).symm⟩
  | reset hlook hready hcommand hfails hfault => nomatch hfault

theorem Course.isUndone (ho : o.CollectsOnly) (hasks : b.host.OnlyAsks)
    (hr : b.record = b.root.record) (hw : w.IsSound)
    (h : Course o b a p t w tried resets (.error e) tr w')
    (hreset : ∀ r ∈ resets, r = .ok ()) :
    IsUndone b a p tried w' := by
  cases h with
  | stopped hlook hready =>
      rw [hr] at hlook
      obtain ⟨rfl, hdone⟩ := Root.goes_isComplete hlook
      cases stop_of_goes_ready ho hasks hready with
      | platform cause htree hcwd =>
          refine isUndone_of_isDir ?_ fun h => absurd rfl h
          rw [htree, hcwd, ← hdone]
      | directory htree hcwd hmade =>
          refine isUndone_of_isDir (isDir_of_makeDirs_error ⟨?_, ?_⟩ hmade)
            fun h => absurd rfl h
          · exact htree ▸ hw.closed
          · exact htree ▸ hcwd ▸ hw.cwd
  | reset hlook hready hcommand hfails hfault hsaid hundo hregret =>
      obtain rfl := hreset _ (List.mem_singleton.mpr rfl)
      rw [hr] at hundo
      obtain ⟨-, -, rfl⟩ := Goes.of_pure hregret
      have habsent := Root.isAbsent_of_reset hundo
      exact isUndone_of_isDir habsent.isDir fun _ => habsent

/-- A reset that did not succeed is spoken of at the end. -/
theorem Course.events_of_error {cause : Failure}
    (h : Course o b a p t w tried resets res tr w') (hr : .error cause ∈ resets) :
    w'.events.getLast? =
      some (.warn,
        "could not remove the failed stage's output, delete it before retrying") := by
  cases h with
  | skipped | stopped | ran => contradiction
  | reset hlook hready hcommand hfails hfault hsaid hundo hregret =>
      obtain rfl := List.mem_singleton.mp hr
      obtain ⟨hperform, -⟩ := Goes.of_ask hregret
      obtain ⟨-, rfl⟩ := Prod.mk.inj hperform
      exact List.getLast?_concat

/-- What a part of a build does when it fails. Its reset follows exactly on a command that was
tried in vain, and the error is that of the command. An error of the platform leaves the files
as they were. Where the directories of the root are the record and no reset failed, a part that
ends with an error is not complete, and nothing is left of it if its command was tried. -/
theorem Part.failure_leaves_nothing (o : Outside σ) (b : Build) (a : Arch) (p : Part)
    (t : Toolchain) (w : World σ) :
    ((p.work b a).start t).Traced o (fun res tr w' => ∃ tried resets,
      Course o b a p t w tried resets res.1 tr w' ∧
      ResetsOnFailure (p.stage a) tried resets res.1 ∧
      (o.CollectsOnly → b.host.OnlyAsks →
        (∀ cause, res.1 = .error (.platform cause) →
          tried = none ∧ w'.tree = ((b.record.isComplete (p.stage a)).run o w).2.tree) ∧
        (b.record = b.root.record → w.IsSound →
          (∀ cause, res.1 = .error (.platform cause) → w'.tree = w.tree) ∧
          ∀ e, res.1 = .error e → (∀ r ∈ resets, r = .ok ()) → IsUndone b a p tried w')))
      w := by
  obtain ⟨tried, resets, h⟩ := Part.course_of_goes (Goes.run o ((p.work b a).start t) w)
  refine ⟨tried, resets, h, h.resetsOnFailure, fun ho hasks => ⟨fun cause hres => ?_, ?_⟩⟩
  · exact (hres ▸ h).tree_of_platform ho hasks
  · refine fun hr hw => ⟨fun cause hres => ?_, fun e hres => ?_⟩
    · obtain ⟨-, htree⟩ := (hres ▸ h).tree_of_platform ho hasks
      have hlook := Goes.run o (b.root.isComplete (p.stage a)) w
      rw [htree, hr]
      exact congrArg World.tree (Root.goes_isComplete hlook).1
    · exact (hres ▸ h).isUndone ho hasks hr hw

def linkLeaver : Outside Unit where
  spawn _ output _ t s := match output with
    | .shared => (.ok ⟨⟨none⟩, [], []⟩, t.put [[0x78, 0x36, 0x34]] (.link "/"), s)
    | .collected => (.error (.told "no answer"), t, s)
  send _ s := (.error (), s)
  clock s := (0, s)
  draw s := ([], s)

def buildHere : Build :=
  ⟨⟨""⟩, Root.record ⟨""⟩, Platform.unix ⟨.linux, .empty, none⟩, "cmake"⟩

theorem Part.failure_leaves_nothing_link :
    linkLeaver.CollectsOnly ∧ buildHere.host.OnlyAsks ∧ bareWorld.IsSound ∧
      ∃ e tried, let run :=
        ((Part.install.work buildHere .x64).start (.of .x64)).run linkLeaver bareWorld
        run.1.1 = .error e ∧ IsUndone buildHere .x64 .install tried run.2 := by
  have ho : linkLeaver.CollectsOnly := fun _ _ _ _ => rfl
  have hasks : buildHere.host.OnlyAsks := (Platform.unix ⟨.linux, .empty, none⟩).onlyAsks
  refine ⟨ho, hasks, isSound_bareWorld, ?_⟩
  obtain ⟨tried, resets, hcourse, -, h⟩ :=
    Part.failure_leaves_nothing linkLeaver buildHere .x64 .install (.of .x64) bareWorld
  obtain ⟨-, -, hundone⟩ := h ho hasks |>.imp id (· rfl isSound_bareWorld)
  have hres :
    (((Part.install.work buildHere .x64).start (.of .x64)).run linkLeaver bareWorld).1.1 =
      .error
        (.stageFailed (.install .x64) (buildHere.installCommand .x64 .empty).line ⟨none⟩) := by
    cbv
  have hsaid : (((Part.install.work buildHere .x64).start (.of .x64)).run linkLeaver
      bareWorld).2.events.getLast? = some (.warn, "stage failed, removing its output") := by
    cbv
  refine ⟨_, tried, hres, hundone _ hres fun r hr => ?_⟩
  cases r with
  | ok u => rfl
  | error cause =>
      have hlast := hcourse.events_of_error hr
      rw [hsaid] at hlast
      exact absurd hlast (by decide)

end Build

end LlvmBootstrap
