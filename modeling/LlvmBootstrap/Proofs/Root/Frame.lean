import LlvmBootstrap.Proofs.Build.Course
import LlvmBootstrap.Proofs.Machine.Asking
import LlvmBootstrap.Proofs.Root.Tidy
import LlvmBootstrap.Proofs.Sources.Course
import LlvmBootstrap.Proofs.Tree.Removal

/-!
What a run for an architecture may do to the files of a root, one call at a time, besides what
the commands do that it runs. Only a stage of the architecture itself, or the fetch, is ever
touched, and only after the record has been asked for it and has found it missing.
-/

namespace LlvmBootstrap

open LlvmBootstrap.Tree Program Sources

def Stage.IsOf (a : Arch) : Stage → Prop
  | .fetch => True
  | .configure a' | .install a' => a' = a

def Tree.Filled (t : Tree) : Prop :=
  ∀ loc id, t.node? loc = some (.file id) → ∃ b, t.body? id = some b

namespace Root

variable {σ : Type} {o : Outside σ} {b : Build} {a : Arch}
  {past past' : List Answered} {r : Root} {w w' : World σ} {c : Call} {s : Stage}
  {top : Location} {t t' : Tree}

/-! ### What has gone before -/

def FoundMissing (r : Root) (past : List Answered) (s : Stage) : Prop :=
  ∃ answer, ⟨.look true (r.marker s), answer⟩ ∈ past ∧ answer ≠ .ok .dir

def HasFailed (b : Build) (a : Arch) (past : List Answered) (s : Stage) : Prop :=
  ∃ cmd answer, Build.Does b a s cmd ∧ ⟨.spawn .shared cmd, answer⟩ ∈ past ∧ Build.Fails answer

theorem FoundMissing.mono (hsub : past ⊆ past') (h : FoundMissing r past s) :
    FoundMissing r past' s :=
  h.imp fun _ h => ⟨hsub h.1, h.2⟩

theorem HasFailed.mono (hsub : past ⊆ past') (h : HasFailed b a past s) :
    HasFailed b a past' s := by
  obtain ⟨cmd, answer, hdoes, hmem, hfails⟩ := h
  exact ⟨cmd, answer, hdoes, hsub hmem, hfails⟩

theorem isOf_of_does {cmd : Command} (h : Build.Does b a s cmd) : s.IsOf a := by
  cases h <;> rfl

/-! ### The frame -/

/-- Nothing but the lock file differs, which has no other name. -/
structure OnlyLock (top : Location) (id : FileId) (t t' : Tree) : Prop where
  nodes : ∀ loc, loc ≠ top ++ [lockName] → t'.node? loc = t.node? loc
  bodies : ∀ id', id' ≠ id → t'.body? id' = t.body? id'
  single : ∀ loc, t'.node? loc = some (.file id) → loc = top ++ [lockName]

structure OnlyStaging (o : Outside σ) (top : Location) (t t' : Tree) : Prop where
  nodes : ∀ loc, (∀ x, IsDrawn o x → isWithin (top ++ [x]) loc = false) →
    t'.node? loc = t.node? loc
  bodies : ∀ loc id, (∀ x, IsDrawn o x → isWithin (top ++ [x]) loc = false) →
    t.node? loc = some (.file id) → t'.body? id = t.body? id

structure OnlyEntry (o : Outside σ) (top : Location) (n : Name) (t t' : Tree) : Prop where
  nodes : ∀ loc, isWithin (top ++ [n]) loc = false →
    (∀ x, IsDrawn o x → isWithin (top ++ [x]) loc = false) → t'.node? loc = t.node? loc
  bodies : ∀ id b, t.body? id = some b → t'.body? id = some b

/-- Nothing stands at a name, or an empty directory does. -/
def IsFree (top : Location) (n : Name) (t : Tree) : Prop :=
  (∀ node, t.node? (top ++ [n]) = some node → ∃ mode, node = .dir mode) ∧
    ∀ rel, rel ≠ [] → t.node? (top ++ n :: rel) = none

/-- What a call may do in a run of the build `b` for the architecture `a`, in the world `w` and
after the calls `past`. -/
inductive Frame (o : Outside σ) (b : Build) (a : Arch) (past : List Answered) (w : World σ) :
    Call → Prop
  /-- The call leaves the files as they are. -/
  | idle {c : Call} (h : (w.perform o c).2.tree = w.tree) : Frame o b a past w c
  /-- What a command does is its own affair. -/
  | tool (output : Output) (cmd : Command) : Frame o b a past w (.spawn output cmd)
  /-- While the root is not there, a directory is made on the way to it. -/
  | way {p : Path} {loc : Location} {mode : Mode} (hp : p.IsOnWay b.root.path)
      (hnot : ∀ top, ¬ Reaches w.tree w.cwd b.root.path top)
      (hvacant : w.tree.node? loc = none)
      (h : (w.perform o (.change (.mkdir p))).2.tree = w.tree.put loc (.dir mode))
      (hr : Reaches (w.tree.put loc (.dir mode)) w.cwd p loc) :
      Frame o b a past w (.change (.mkdir p))
  | lock {c : Call} {top : Location} {id : FileId} (hr : Reaches w.tree w.cwd b.root.path top)
      (h : OnlyLock top id w.tree (w.perform o c).2.tree) : Frame o b a past w c
  | staging {c : Call} {top : Location} (hr : Reaches w.tree w.cwd b.root.path top)
      (h : OnlyStaging o top w.tree (w.perform o c).2.tree) : Frame o b a past w c
  /-- The sources are put in their place, where there was no directory. -/
  | sources {p : Path} {top : Location} (hr : Reaches w.tree w.cwd b.root.path top)
      (hmissing : FoundMissing b.root past .fetch)
      (hfree : IsFree top (markerName .fetch) w.tree)
      (h : OnlyEntry o top (markerName .fetch) w.tree
        (w.perform o (.change (.renameDir p b.root.sources))).2.tree) :
      Frame o b a past w (.change (.renameDir p b.root.sources))
  /-- The build tree is made, which was not there. -/
  | build {p : Path} {top : Location} {mode : Mode} (hr : Reaches w.tree w.cwd b.root.path top)
      (hmissing : FoundMissing b.root past (.configure a))
      (hvacant : w.tree.node? (top ++ [markerName (.configure a)]) = none)
      (h : (w.perform o (.change (.mkdir p))).2.tree =
        w.tree.put (top ++ [markerName (.configure a)]) (.dir mode)) :
      Frame o b a past w (.change (.mkdir p))
  /-- What is left of a stage is removed, whose command has failed. -/
  | reset {s : Stage} {top : Location} (hr : Reaches w.tree w.cwd b.root.path top)
      (hmissing : FoundMissing b.root past s) (hfailed : HasFailed b a past s)
      (h : Without w.tree (w.perform o (.change (.removeAll (b.root.marker s)))).2.tree
        fun loc => isWithin (top ++ [markerName s]) loc = true)
      (hbodies : (w.perform o (.change (.removeAll (b.root.marker s)))).2.tree.bodies =
        w.tree.bodies) :
      Frame o b a past w (.change (.removeAll (b.root.marker s)))

theorem Frame.mono (hsub : past ⊆ past') (h : Frame o b a past w c) :
    Frame o b a past' w c := by
  cases h with
  | idle h => exact .idle h
  | tool output cmd => exact .tool output cmd
  | way hp hnot hvacant h hr => exact .way hp hnot hvacant h hr
  | lock hr h => exact .lock hr h
  | staging hr h => exact .staging hr h
  | sources hr hmissing hfree h => exact .sources hr (hmissing.mono hsub) hfree h
  | build hr hmissing hvacant h => exact .build hr (hmissing.mono hsub) hvacant h
  | reset hr hmissing hfailed h hbodies =>
      exact .reset hr (hmissing.mono hsub) (hfailed.mono hsub) h hbodies

/-! ### What is not touched -/

/-- The entry of a stage, with all below it, and the contents of the
files there are what they were. -/
structure Untouched (top : Location) (s : Stage) (t t' : Tree) : Prop where
  nodes : ∀ rel, t'.node? (top ++ markerName s :: rel) = t.node? (top ++ markerName s :: rel)
  contents : ∀ rel id b, t.node? (top ++ markerName s :: rel) = some (.file id) →
    t.body? id = some b → t'.body? id = some b

theorem Untouched.refl (top : Location) (s : Stage) (t : Tree) : Untouched top s t t :=
  ⟨fun _ => rfl, fun _ _ _ _ hb => hb⟩

theorem not_isWithin_marker {n : Name} (hne : n ≠ markerName s) (rel : List Name) :
    isWithin (top ++ [n]) (top ++ markerName s :: rel) = false :=
  isWithin_sibling hne

theorem not_isWithin_drawn {x : Name} (hx : IsDrawn o x) (rel : List Name) :
    isWithin (top ++ [x]) (top ++ markerName s :: rel) = false := by
  obtain ⟨n, rfl⟩ := hx.drawn
  exact not_isWithin_marker (markerName_ne_stagingName s _).symm rel

/-- While the root is there, only a stage of the architecture that the record
has found missing can be touched. -/
theorem Frame.untouched (h : Frame o b a past w c) (hc : ∀ output cmd, c ≠ .spawn output cmd)
    (hr : Reaches w.tree w.cwd b.root.path top)
    (hs : ¬ (s.IsOf a ∧ FoundMissing b.root past s)) :
    Untouched top s w.tree (w.perform o c).2.tree := by
  cases h with
  | idle h => rw [h]; exact .refl ..
  | tool output cmd => exact absurd rfl (hc output cmd)
  | way hp hnot => exact absurd hr (hnot top)
  | lock hr' h =>
      obtain rfl := hr.unique hr'
      -- The lock file is not below a marker and no marker is the lock file, and
      -- what it holds nobody else does.
      have hne : ∀ rel, top ++ markerName s :: rel ≠ top ++ [lockName] := fun rel he =>
        markerName_ne_lockName s (List.cons.inj (List.append_cancel_left he)).1
      refine ⟨fun rel => h.nodes _ (hne rel), fun rel id' body hn hbody => ?_⟩
      rw [h.bodies id' ?_, hbody]
      rintro rfl
      exact hne rel (h.single _ ((h.nodes _ (hne rel)).trans hn))
  | staging hr' h =>
      obtain rfl := hr.unique hr'
      refine ⟨fun rel => h.nodes _ fun x hx => not_isWithin_drawn hx rel,
        fun rel id body hn hbody => ?_⟩
      rw [h.bodies _ id (fun x hx => not_isWithin_drawn hx rel) hn, hbody]
  | sources hr' hmissing hfree h =>
      obtain rfl := hr.unique hr'
      have hne : markerName .fetch ≠ markerName s :=
        markerName_ne fun he => hs ⟨he ▸ trivial, he ▸ hmissing⟩
      refine ⟨fun rel => h.nodes _
        (not_isWithin_marker hne rel) fun x hx => not_isWithin_drawn hx rel, ?_⟩
      exact fun _ id body _ => h.bodies id body
  | build hr' hmissing hvacant h =>
      obtain rfl := hr.unique hr'
      have hne : markerName (.configure a) ≠ markerName s :=
        markerName_ne fun he => hs ⟨he ▸ rfl, he ▸ hmissing⟩
      rw [h]
      refine ⟨fun rel => node?_put_of_ne _ _ fun he => ?_, fun _ _ _ _ hbody => hbody⟩
      exact hne (List.cons.inj (List.append_cancel_left he)).1.symm
  | @reset s' _ hr' hmissing hfailed h hbodies =>
      obtain rfl := hr.unique hr'
      have hne : markerName s' ≠ markerName s := by
        obtain ⟨_, _, hdoes, -⟩ := hfailed
        exact markerName_ne fun he => hs ⟨he ▸ isOf_of_does hdoes, he ▸ hmissing⟩
      refine ⟨fun rel => h.kept _ ?_, fun _ id body _ hbody => ?_⟩
      · rw [not_isWithin_marker hne rel]
        exact Bool.false_ne_true
      · rw [Tree.body?, hbodies]
        exact hbody

end Root

end LlvmBootstrap
