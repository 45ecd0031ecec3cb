import LlvmBootstrap.Proofs.Archive.Confinement
import LlvmBootstrap.Proofs.Machine.Asking
import LlvmBootstrap.Proofs.Machine.MadeDirs
import LlvmBootstrap.Proofs.Tree.Beside
import LlvmBootstrap.Sources.Fetch

/-!
The parts of a fetch in turn, from a world `m` in which the root is there: nothing becomes of
the tree while the file is downloaded; the staging directory is one more entry of the root,
under a new name; unpacking fills it; and then it is moved to the place of the sources or
removed.
-/

namespace LlvmBootstrap

namespace Root

def sourceName : Name := Utf8.encode "source"

def stagingName (drawn : Name) : Name := Utf8.encode stagingPrefix ++ drawn

theorem isPlain_sourceName : Path.IsPlain sourceName := by constructor <;> decide

theorem extends_sources (r : Root) : Path.Extends r.path [sourceName] r.sources :=
  (Path.Extends.refl r.path).concat isPlain_sourceName

theorem stagingName_eq (drawn : Name) :
    ∃ rest, stagingName drawn = 0x2E :: 0x73 :: rest ∧
      (Path.slash ∉ drawn → Path.slash ∉ rest) := by
  refine ⟨(Utf8.encode stagingPrefix).drop 2 ++ drawn, rfl, fun h => ?_⟩
  rw [List.mem_append, not_or]
  exact ⟨by decide, h⟩

theorem isPlain_stagingName {drawn : Name} (h : Path.slash ∉ drawn) :
    Path.IsPlain (stagingName drawn) := by
  obtain ⟨rest, heq, hrest⟩ := stagingName_eq drawn
  rw [heq]
  refine ⟨by simp, ?_, by simp [Path.dot], by simp [Path.dotDot]⟩
  simp only [List.mem_cons, not_or]
  exact ⟨by decide, by decide, hrest h⟩

theorem sourceName_ne_stagingName (drawn : Name) : sourceName ≠ stagingName drawn := by
  obtain ⟨rest, heq, -⟩ := stagingName_eq drawn
  rw [heq]
  intro h
  have hhead := (List.cons.inj (h : (0x73 : UInt8) :: _ = 0x2E :: _)).1
  revert hhead
  decide

end Root

def Outside.DrawsPlain {σ : Type} (o : Outside σ) : Prop := ∀ s, Path.slash ∉ (o.draw s).1

/-- A name part that is drawn holds no separator, and makes up a name that no
link of the tree has in its target. -/
structure Outside.DrawsFresh {σ : Type} (o : Outside σ) (t : Tree) : Prop where
  plain : ∀ s, Path.slash ∉ (o.draw s).1
  unnamed : ∀ s loc target, t.node? loc = some (.link target) →
    .name (Root.stagingName (o.draw s).1) ∉ Tree.steps target

def World.Still {σ : Type} (m w : World σ) : Prop := w.tree = m.tree ∧ w.cwd = m.cwd

/-- Calls that neither run a command nor move a directory. -/
def Call.IsAside (c : Call) : Prop :=
  (∀ output cmd, c ≠ .spawn output cmd) ∧ ∀ src dst, c ≠ .change (.renameDir src dst)

namespace Download

open Program

variable {σ : Type} {o : Outside σ} {m w : World σ}

theorem request_only {P : Call → Prop} (hsend : ∀ url, P (.send url)) (url : Url)
    (left : Nat) :
    (request url left).run.Only P := by
  induction left generalizing url with
  | zero => exact trivial
  | succ left ih =>
      rw [request]
      split
      · exact trivial
      · refine Only.attempt_call_bind (hsend url) fun answer => ?_
        split
        · exact trivial
        · split
          · exact ih _
          · exact trivial

/-- A download asks and tells. -/
theorem download_only {P : Call → Prop} (hsend : ∀ url, P (.send url))
    (hlog : ∀ level text, P (.log level text)) (address : String) :
    (download address).run.Only P := by
  have hbody : (body address).run.Only P := by
    rw [body]
    split
    · refine Only.attempt_bind (request_only hsend _ _) fun r => ?_
      split <;> exact trivial
    · exact trivial
  rw [download]
  refine Only.attempt_call_bind (hlog ..) fun _ => Only.attempt_bind ?_ fun file =>
    ⟨hlog .., fun _ => trivial⟩
  rw [run_adapt]
  exact hbody.bind fun _ => trivial

theorem download_onlyIdle (address : String) : (download address).run.Only Call.IsIdle :=
  download_only (fun _ => trivial) (fun _ _ => trivial) address

theorem throughout_download (address : String) (hw : m.Still w) :
    (download address).run.Throughout o (fun w' c => m.Still w' ∧ c.IsAside)
      (fun _ w' => m.Still w') w := by
  refine (download_onlyIdle address).throughout (I := fun w' => m.Still w')
    (fun w' c hw' hc => ?_) hw
  refine ⟨⟨hw', ?_, ?_⟩, (World.tree_of_isIdle o w' hc).trans hw'.1,
    (World.cwd_of_isIdle o w' hc).trans hw'.2⟩
  · rintro output cmd rfl
    exact hc
  · rintro src dst rfl
    exact hc

end Download

namespace Sources

open Archive LlvmBootstrap.Tree Program

variable {σ : Type} {o : Outside σ} {m w w' : World σ} {r : Root} {top : Location} {x : Name}
  {staging : Path} {mode : Mode}

structure IsDrawn (o : Outside σ) (x : Name) : Prop where
  plain : Path.IsPlain x
  drawn : ∃ s, x = Root.stagingName (o.draw s).1

theorem isDrawn_stagingName (hd : o.DrawsPlain) (s : σ) :
    IsDrawn o (Root.stagingName (o.draw s).1) :=
  ⟨Root.isPlain_stagingName (hd s), s, rfl⟩

theorem IsDrawn.ne_source (h : IsDrawn o x) : Root.sourceName ≠ x := by
  obtain ⟨s, rfl⟩ := h.drawn
  exact Root.sourceName_ne_stagingName _

/-- `staging` is the path of a new entry `x` of the root, which is at `top`. -/
structure IsStaging (o : Outside σ) (r : Root) (m : World σ) (top : Location) (x : Name)
    (staging : Path) : Prop where
  fresh : IsDrawn o x
  named : Path.Extends r.path [x] staging
  refusal : staging.refusal? = none
  short : x.length ≤ maxName
  vacant : m.tree.node? (top ++ [x]) = none

/-- Nothing is made until a free name is found, and then an empty directory of that name is. -/
theorem throughout_makeStaging (hr : Reaches m.tree m.cwd r.path top) (hd : o.DrawsPlain)
    (tries : Nat) (hw : m.Still w) :
    (makeStaging r tries).run.Throughout o (fun w' c => m.Still w' ∧ c.IsAside)
      (fun res w' => match res with
        | .error _ => m.Still w'
        | .ok staging => ∃ x mode, IsStaging o r m top x staging ∧
            w'.tree = m.tree.put (top ++ [x]) (.dir mode) ∧ w'.cwd = m.cwd) w := by
  induction tries generalizing w with
  | zero => exact hw
  | succ tries ih =>
      rw [makeStaging]
      refine Throughout.attempt_call_bind_iff.mpr ⟨⟨hw, nofun, nofun⟩, ?_⟩
      have hfresh := isDrawn_stagingName hd w.outside
      have hext : Path.Extends r.path [Root.stagingName (o.draw w.outside).1]
          (r.path / (⟨Root.stagingName (o.draw w.outside).1⟩ : Path)) :=
        (Path.Extends.refl r.path).concat hfresh.plain
      have hw' : m.Still (w.perform o .draw).2 := hw
      refine Throughout.attempt_change_bind (C := fun w' c => m.Still w' ∧ c.IsAside)
        ⟨hw', nofun, nofun⟩ (fun t' happ => ?_) fun e _ => ?_
      · rw [Change.apply, hw'.1, hw'.2] at happ
        obtain ⟨ha, ht'⟩ := (hr.belowEntry hext).eq_of_mkdir happ
        obtain ⟨hnone, hshort, hvacant⟩ := arrive_single_iff.mp ha
        exact ⟨_, _, ⟨hfresh, hext, hnone, hshort, hvacant⟩, ht', hw'.2⟩
      · cases e with
        | «exists» => exact ih hw'
        | _ => exact hw'

/-! ### In the staging directory -/

structure Staged (m : World σ) (top : Location) (x : Name) (w : World σ) : Prop where
  cwd : w.cwd = m.cwd
  beside : Beside top x m.tree w.tree
  dir : ∃ mode, w.tree.node? (top ++ [x]) = some (.dir mode)
  closed : w.tree.Closed

namespace Staged

theorem reaches (hm : m.IsSound) (hr : Reaches m.tree m.cwd r.path top)
    (hw : Staged m top x w) :
    Reaches w.tree w.cwd r.path top := by
  rw [hw.cwd]
  exact hr.mono (hw.beside.routesKept hm.closed)

theorem isSound (hm : m.IsSound) (hw : Staged m top x w) : w.IsSound := by
  obtain ⟨mode, hmode⟩ := hm.cwd
  refine ⟨hw.closed, ?_⟩
  rw [hw.cwd]
  exact (hw.beside.routesKept hm.closed).dirs _ _ hmode

theorem below (hm : m.IsSound) (hr : Reaches m.tree m.cwd r.path top) (hw : Staged m top x w)
    {n : Name} {p : Path} (hp : Path.Extends r.path [n] p) : Below w.tree w.cwd top p [n] :=
  (hw.reaches hm hr).belowEntry hp

end Staged

theorem staged_of_put (hm : m.IsSound) (hr : Reaches m.tree m.cwd r.path top)
    (hv : m.tree.node? (top ++ [x]) = none) (ht : w.tree = m.tree.put (top ++ [x]) (.dir mode))
    (hc : w.cwd = m.cwd) : Staged m top x w where
  cwd := hc
  beside := ht ▸ Beside.of_put hv
  dir := ⟨mode, by rw [ht, node?_put_self _ _ (by simp)]⟩
  closed := ht ▸ hm.closed.put hr.dir hv

theorem hasEmptyDir_staging (hm : m.IsSound) (hr : Reaches m.tree m.cwd r.path top)
    (hs : IsStaging o r m top x staging) (ht : w.tree = m.tree.put (top ++ [x]) (.dir mode))
    (hc : w.cwd = m.cwd) : w.HasEmptyDir staging (top ++ [x]) := by
  have hw := staged_of_put hm hr hs.vacant ht hc
  have hdir : w.tree.node? (top ++ [x]) = some (.dir mode) := by
    rw [ht, node?_put_self _ _ (by simp)]
  refine ⟨⟨mode, ?_, hdir⟩, isVacantBelow_iff.mpr fun rel hne => ?_⟩
  · have hreach := (hw.reaches hm hr).entry hs.named hs.short hdir
    rw [hreach.lookup, hs.refusal, hdir]
    rfl
  · rw [ht, node?_put_of_ne _ _ (fun he => hne (List.append_right_eq_self.mp he))]
    exact hm.closed.node?_below (by simp [hs.vacant]) hne

/-- Unpacking an archive runs no commands and moves nothing. -/
theorem isAside_of_touches {L : List Name → Path → Prop} {t : Tree} {dest : Path} {c : Call}
    (h : Touches L t top dest c) : c.IsAside := by
  cases h with
  | lookTop h => exact ⟨nofun, nofun⟩
  | look h hu => exact ⟨nofun, nofun⟩
  | change h => cases h <;> exact ⟨nofun, nofun⟩

/-- Unpacking fills the staging directory. -/
theorem throughout_extract (file : Bytes) (format : Format) (root : String) (hm : m.IsSound)
    (hr : Reaches m.tree m.cwd r.path top) (hs : IsStaging o r m top x staging)
    (ht : w.tree = m.tree.put (top ++ [x]) (.dir mode)) (hc : w.cwd = m.cwd) :
    (extract file format root staging).run.Throughout o
      (fun w' c => Staged m top x w' ∧ c.IsAside) (fun _ w' => Staged m top x w') w := by
  have hempty := hasEmptyDir_staging hm hr hs ht hc
  have hin : Inside (fun _ _ => True) w.tree w.cwd (top ++ [x]) w := ⟨rfl, .refl hempty.empty⟩
  have hstaged : ∀ w', Inside (fun _ _ => True) w.tree w.cwd (top ++ [x]) w' →
      Staged m top x w' := by
    intro w' hw'
    have hconf := hw'.confined
    have hclosed := (staged_of_put hm hr hs.vacant ht hc).closed
    refine ⟨hw'.cwd.trans hc, .of_confined hs.vacant (ht ▸ hconf), ⟨mode, ?_⟩,
      hconf.isClosed hclosed⟩
    rw [hconf.node?_top, ht, node?_put_self _ _ (by simp)]
  have hrun := throughout_unpack (o := o) (Tar.read (format.stream file)) root hin
    (emptyDir_of_hasEmptyDir hempty) fun _ _ _ => trivial
  exact hrun.imp (fun w' c hc => ⟨hstaged w' hc.1, isAside_of_touches hc.2⟩) fun _ w' hw' =>
    hstaged w' hw'

/-! ### Moving and removing it -/

theorem removeAll_staging (hm : m.IsSound) (hr : Reaches m.tree m.cwd r.path top)
    (hs : IsStaging o r m top x staging) (hw : Staged m top x w) :
    ∃ t', w.tree.removeAll w.cwd staging = .ok t' ∧ Kept m.tree t' ∧
      Beside top x m.tree t' := by
  obtain ⟨mode, hdir⟩ := hw.dir
  have ha : w.tree.arrive top staging [x] = .ok (some (.dir mode)) :=
    arrive_single_iff.mpr ⟨hs.refusal, hs.short, hdir⟩
  have hkept := hw.beside.kept_prune hm.closed
  refine ⟨_, ?_, hkept, hs.vacant, fun loc _ => hkept.nodes loc, hkept.bodies⟩
  rw [(hw.below hm hr hs.named).removeAll, ha]

structure InPlace (r : Root) (m : World σ) (top : Location) (x : Name)
    (t t' : Tree) : Prop where
  placed : Placed top x Root.sourceName m.tree t t'
  routes : RoutesKept m.tree t'
  reaches : Reaches t' m.cwd r.path top
  dir : ∃ mode, t'.node? (top ++ [Root.sourceName]) = some (.dir mode)
  isDir : t'.isDir m.cwd r.sources = true

theorem renameDir_staging (hm : m.IsSound) (hr : Reaches m.tree m.cwd r.path top)
    (hs : IsStaging o r m top x staging) (hw : Staged m top x w) {t' : Tree}
    (hok : w.tree.renameDir w.cwd staging r.sources = .ok t') :
    InPlace r m top x w.tree t' := by
  obtain ⟨mode, hdir⟩ := hw.dir
  have ha : w.tree.arrive top staging [x] = .ok (some (.dir mode)) :=
    arrive_single_iff.mpr ⟨hs.refusal, hs.short, hdir⟩
  have hne := hs.fresh.ne_source
  have hother := hw.beside.node?_other hne
  have hplaced : Placed top x Root.sourceName m.tree w.tree _ :=
    hw.beside.placed_move hm.closed
  rw [(hw.below hm hr hs.named).renameDir (hw.below hm hr r.extends_sources) hne.symm ha]
    at hok
  -- A move goes to a vacant place or over an empty directory.
  obtain ⟨ht', hrefusal, hold⟩ : t' = w.tree.move (top ++ [x]) (top ++ [Root.sourceName]) ∧
      r.sources.refusal? = none ∧ (m.tree.node? (top ++ [Root.sourceName]) = none ∨
      (∃ mode, m.tree.node? (top ++ [Root.sourceName]) = some (.dir mode)) ∧
        m.tree.isVacantBelow (top ++ [Root.sourceName]) = true) := by
    split at hok
    · contradiction
    · rename_i harr
      obtain ⟨hrefusal, -, hnone⟩ := arrive_single_iff.mp harr
      exact ⟨(Except.ok.inj hok).symm, hrefusal, .inl ((hother []).symm.trans hnone)⟩
    · rename_i mode' harr
      obtain ⟨hrefusal, -, hsome⟩ := arrive_single_iff.mp harr
      split at hok
      · rename_i hv
        refine ⟨(Except.ok.inj hok).symm, hrefusal,
          .inr ⟨⟨mode', (hother []).symm.trans hsome⟩, ?_⟩⟩
        refine isVacantBelow_iff.mpr fun rel hrel => ?_
        have hnone := isVacantBelow_iff.mp hv rel hrel
        rw [List.append_assoc] at hnone ⊢
        exact (hother rel).symm.trans hnone
      · contradiction
    · contradiction
  rw [← ht'] at hplaced
  have hroutes : RoutesKept m.tree t' := hplaced.routesKept hm.closed hdir hold
  have hreach : Reaches t' m.cwd r.path top := hr.mono hroutes
  have hsource : t'.node? (top ++ [Root.sourceName]) = some (.dir mode) :=
    (hplaced.entry []).trans hdir
  refine ⟨hplaced, hroutes, hreach, ⟨mode, hsource⟩, ?_⟩
  have hentry := hreach.entry r.extends_sources (by decide) hsource
  rw [Tree.isDir, hentry.lookup, hrefusal, hsource]
  rfl

/-- There is no staging directory any more. -/
theorem removeAll_placed (hs : IsStaging o r m top x staging) {t t' : Tree}
    (h : InPlace r m top x t t') : t'.removeAll m.cwd staging = .error .notFound := by
  have hnone : t'.node? (top ++ [x]) = none := by
    rw [h.placed.nodes _ (isWithin_sibling hs.fresh.ne_source)]
    exact hs.vacant
  have ha : t'.arrive top staging [x] = .ok none :=
    arrive_single_iff.mpr ⟨hs.refusal, hs.short, hnone⟩
  rw [(h.reaches.belowEntry hs.named).removeAll, ha]

end Sources

end LlvmBootstrap
