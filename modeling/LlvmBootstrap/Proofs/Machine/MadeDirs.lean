import LlvmBootstrap.Proofs.Machine.Asking
import LlvmBootstrap.Proofs.Path.Above

/-!
Making a directory with those above it, for any path and in any tree. All that can become of
the tree are new directories at which the path or one above it ends; where it succeeds, the
path leads to a directory.
-/

namespace LlvmBootstrap

namespace Tree

/-- `t'` is `t` with more directories, each of which one of the paths `qs` leads to. -/
structure Grown (cwd : Location) (qs : List Path) (t t' : Tree) : Prop where
  newDirs : NewDirs t t'
  led : ∀ loc, t.node? loc = none → t'.node? loc ≠ none → ∃ q ∈ qs, Reaches t' cwd q loc

variable {t t' t'' : Tree} {cwd loc : Location} {p q : Path} {qs : List Path}

namespace Grown

theorem refl (cwd : Location) (qs : List Path) (t : Tree) : Grown cwd qs t t :=
  ⟨NewDirs.refl t, fun _ hn hne => absurd hn hne⟩

theorem trans (h : Grown cwd qs t t') (h' : Grown cwd qs t' t'') : Grown cwd qs t t'' := by
  refine ⟨h.newDirs.trans h'.newDirs, fun loc hn hne => ?_⟩
  by_cases hmid : t'.node? loc = none
  · exact h'.led loc hmid hne
  · obtain ⟨q, hq, hr⟩ := h.led loc hn hmid
    exact ⟨q, hq, hr.mono h'.newDirs.routesKept⟩

theorem of_mkdir {mode : Mode} (hc : t.Closed)
    (hd : ∃ mode, t.node? (q.start cwd) = some (.dir mode)) (hq : q ∈ qs)
    (h : t.mkdir cwd q mode = .ok t') : Grown cwd qs t t' := by
  obtain ⟨-, loc, -, ht, hr⟩ := Reaches.of_mkdir hc hd h
  refine ⟨newDirs_of_mkdir h, fun loc' hn hne => ?_⟩
  by_cases heq : loc' = loc
  · exact ⟨q, hq, heq ▸ hr⟩
  · rw [ht, node?_put_of_ne _ _ heq] at hne
    exact absurd hn hne

/-- What is the same before and after was never anything else. -/
theorem node?_between (h : Grown cwd qs t t') (h' : Grown cwd qs t' t'')
    (heq : t''.node? loc = t.node? loc) : t'.node? loc = t.node? loc := by
  rcases h.newDirs.nodes loc with hsame | ⟨hnone, mode, hdir⟩
  · exact hsame
  · rw [h'.newDirs.node?_eq hdir, hnone] at heq
    contradiction

end Grown

end Tree

namespace Program

open LlvmBootstrap.Tree

variable {σ : Type} {o : Outside σ} {w : World σ} {p : Path} {qs above : List Path}

inductive Making (qs : List Path) : Call → Prop
  | look (p : Path) : Making qs (.look true p)
  | mkdir {q : Path} (hq : q ∈ qs) : Making qs (.change (.mkdir q))

/-- A sound world in the directory `cwd`, in which a call that makes directories is made. -/
def MakesDirs (cwd : Location) (qs : List Path) (w : World σ) (c : Call) : Prop :=
  w.IsSound ∧ w.cwd = cwd ∧ Making qs c

def MoreDirs (qs : List Path) (w w' : World σ) : Prop :=
  w'.cwd = w.cwd ∧ Grown w.cwd qs w.tree w'.tree

theorem MoreDirs.refl (qs : List Path) (w : World σ) : MoreDirs qs w w := ⟨rfl, .refl ..⟩

theorem MoreDirs.trans {w' w'' : World σ} (h : MoreDirs qs w w') (h' : MoreDirs qs w' w'') :
    MoreDirs qs w w'' :=
  ⟨h'.1.trans h.1, h.2.trans (h.1 ▸ h'.2)⟩

theorem MakesDirs.moreDirs {cwd : Location} {c : Call} (h : MakesDirs cwd qs w c) :
    MoreDirs qs w (w.perform o c).2 := by
  obtain ⟨hs, -, hc⟩ := h
  cases hc with
  | look p => exact .refl ..
  | @mkdir q hq =>
      rw [World.perform, World.change]
      cases happ : (Change.mkdir q).apply w.tree w.cwd with
      | error e => exact .refl ..
      | ok t' => exact ⟨rfl, .of_mkdir hs.closed (dir_start hs.cwd _) hq happ⟩

def MadeDir (cwd : Location) (p : Path) (r : Except Errno Unit) (w : World σ) : Prop :=
  w.IsSound ∧ w.cwd = cwd ∧ (r = .ok () → ∃ loc, Reaches w.tree w.cwd p loc)

theorem throughout_mkdir {ε α : Type} {R : Except ε α → World σ → Prop}
    {f : Except Errno Unit → Attempt ε α} (hs : w.IsSound) (hp : p ∈ qs)
    (hok : ∀ w' : World σ, w'.IsSound → w'.cwd = w.cwd →
      (∃ loc, Reaches w'.tree w'.cwd p loc) →
      (f (.ok ())).run.Throughout o (MakesDirs w.cwd qs) R w')
    (herr : ∀ e, (f (.error e)).run.Throughout o (MakesDirs w.cwd qs) R w) :
    ((make (.change (.mkdir p)) : Attempt ε (Except Errno Unit)) >>= f).run.Throughout o
      (MakesDirs w.cwd qs) R w := by
  refine Throughout.attempt_change_bind ⟨hs, rfl, .mkdir hp⟩
    (fun t' happ => ?_) fun e _ => herr e
  obtain ⟨hc, loc, -, -, hr⟩ := Reaches.of_mkdir hs.closed (dir_start hs.cwd _) happ
  obtain ⟨mode, hm⟩ := hs.cwd
  exact hok _ ⟨hc, (newDirs_of_mkdir happ).routesKept.dirs _ _ hm⟩ rfl ⟨loc, hr⟩

theorem madeDir_of_isDir (hs : w.IsSound) {r : Except Errno Unit}
    (hr : r = .ok () → w.tree.isDir w.cwd p = true) : MadeDir w.cwd p r w :=
  ⟨hs, rfl, fun h => Reaches.of_isDir hs.closed (dir_start hs.cwd _) (hr h)⟩

theorem throughout_makeDir (hs : w.IsSound) (hp : p ∈ qs) :
    (makeDir p).run.Throughout o (MakesDirs w.cwd qs) (MadeDir w.cwd p) w := by
  rw [makeDir]
  refine throughout_mkdir hs hp (fun w' hs' hcwd hr => ⟨hs', hcwd, fun _ => hr⟩) fun e => ?_
  exact throughout_unlessDir ⟨hs, rfl, .look p⟩ fun _ => madeDir_of_isDir hs

theorem throughout_makeDirsFrom (hs : w.IsSound) (hp : p ∈ qs) (habove : ∀ q ∈ above, q ∈ qs) :
    (makeDirsFrom p above).run.Throughout o (MakesDirs w.cwd qs) (MadeDir w.cwd p) w := by
  induction above generalizing p w with
  | nil => exact throughout_makeDir hs hp
  | cons parent above ih =>
      rw [makeDirsFrom]
      refine throughout_mkdir hs hp
        (fun w' hs' hcwd hr => ⟨hs', hcwd, fun _ => hr⟩) fun e => ?_
      cases e with
      | notFound =>
          have hparent := ih hs (habove parent (List.mem_cons_self ..)) fun q hq =>
            habove q (List.mem_cons_of_mem _ hq)
          refine Throughout.attempt_bind hparent ?_ ?_
          · rintro ⟨⟩ w' ⟨hs', hcwd, -⟩
            rw [← hcwd]
            exact throughout_makeDir hs' hp
          · rintro e w' ⟨hs', hcwd, -⟩
            exact ⟨hs', hcwd, by simp⟩
      | _ => exact throughout_unlessDir ⟨hs, rfl, .look p⟩ fun _ => madeDir_of_isDir hs

theorem unlessDir_only {ε : Type} {P : Call → Prop} (p : Path) (e : ε)
    (hP : P (.look true p)) :
    (do if ← isDir p then return () else throw e : Attempt ε Unit).run.Only P := by
  refine Only.attempt_lift_bind ⟨hP, ?_⟩ fun found => ?_
  · rintro (_ | _ | _ | _) <;> exact trivial
  · cases found <;> exact trivial

/-- Whatever the making of directories is answered, it makes no other calls. -/
theorem makeDirsFrom_only (hp : p ∈ qs) (habove : ∀ q ∈ above, q ∈ qs) :
    (makeDirsFrom p above).run.Only (Making qs) := by
  have hmakeDir : ∀ q ∈ qs, (makeDir q).run.Only (Making qs) := by
    intro q hq
    refine Only.attempt_call_bind (.mkdir hq) ?_
    rintro (e | ⟨⟩)
    · exact unlessDir_only q e (.look q)
    · exact trivial
  induction above generalizing p with
  | nil => exact hmakeDir p hp
  | cons parent above ih =>
      refine Only.attempt_call_bind (.mkdir hp) ?_
      have hparent := ih (habove parent (List.mem_cons_self ..)) fun q hq =>
        habove q (List.mem_cons_of_mem _ hq)
      rintro (e | ⟨⟩)
      · cases e with
        | notFound => exact hparent.attempt_bind fun _ => hmakeDir p hp
        | _ => exact unlessDir_only p _ (.look p)
      · exact trivial

theorem makeDirs_only (p : Path) : (makeDirs p).run.Only (Making (p :: ancestors p)) := by
  rw [makeDirs]
  split
  · exact trivial
  · exact makeDirsFrom_only (List.mem_cons_self ..) fun q hq => List.mem_cons_of_mem _ hq

/-- Nothing is made where the path leads to a directory already. -/
theorem throughout_makeDirs_of_reaches {C : World σ → Call → Prop} {top : Location}
    (hr : Reaches w.tree w.cwd p top) (hC : ∀ c, Making [p] c → C w c) :
    (makeDirs p).run.Throughout o C (fun _ w' => w' = w) w := by
  by_cases hp : p.bytes = []
  · rw [makeDirs, if_pos (Path.components_eq_nil hp)]
    exact Throughout.pure_iff.mpr rfl
  · refine throughout_makeDirs_of_parent hp (hr.mkdir_ne_notFound hp _)
      (hC _ (.mkdir (List.mem_singleton.mpr rfl))) (hC _ (.look p))
      (fun t' happ => ?_) fun _ _ => rfl
    rw [hr.mkdir] at happ
    contradiction

theorem throughout_makeDirs (hs : w.IsSound) :
    (makeDirs p).run.Throughout o (MakesDirs w.cwd (p :: ancestors p))
      (MadeDir w.cwd p) w := by
  rw [makeDirs]
  split
  · rename_i hnil
    refine ⟨hs, rfl, fun _ => ⟨_, Reaches.of_nil ?_ hs.cwd⟩⟩
    by_contra hne
    exact Path.components_ne_nil hne hnil
  · exact throughout_makeDirsFrom hs (List.mem_cons_self ..) fun q => List.mem_cons_of_mem _

/-! ### Where it fails -/

/-- If it fails, one of the paths leads to no directory in the end. -/
def Unmade (qs : List Path) (r : Except Errno Unit) (w : World σ) : Prop :=
  ∀ e, r = .error e → ∃ q ∈ qs, w.tree.isDir w.cwd q = false

theorem unmade_ok (qs : List Path) (u : Unit) (w : World σ) : Unmade qs (.ok u) w := by
  simp [Unmade]

theorem throughout_makeDir_unmade (hp : p ∈ qs) :
    (makeDir p).run.Throughout o (fun _ _ => True) (Unmade qs) w := by
  rw [makeDir]
  refine Throughout.attempt_change_bind trivial (fun t' _ => unmade_ok qs () _) fun e _ => ?_
  exact throughout_dirOr trivial (fun _ => unmade_ok qs () _) fun hnot _ _ => ⟨p, hp, hnot⟩

theorem throughout_makeDirsFrom_unmade (hp : p ∈ qs) (habove : ∀ q ∈ above, q ∈ qs) :
    (makeDirsFrom p above).run.Throughout o (fun _ _ => True) (Unmade qs) w := by
  induction above generalizing p w with
  | nil => exact throughout_makeDir_unmade hp
  | cons parent above ih =>
      rw [makeDirsFrom]
      refine Throughout.attempt_change_bind trivial
        (fun t' _ => unmade_ok qs () _) fun e _ => ?_
      cases e with
      | notFound =>
          have hparent := ih (w := w) (habove parent (List.mem_cons_self ..)) fun q hq =>
            habove q (List.mem_cons_of_mem _ hq)
          refine Throughout.attempt_bind hparent ?_ ?_
          · exact fun _ _ _ => throughout_makeDir_unmade hp
          · rintro e w' h e' ⟨⟩
            exact h e rfl
      | _ =>
          exact throughout_dirOr trivial
            (fun _ => unmade_ok qs () _) fun hnot _ _ => ⟨p, hp, hnot⟩

/-- A directory that could not be made is not there in the end. -/
theorem isDir_of_makeDirs_error (hs : w.IsSound) {e : Errno} {w' : World σ}
    (h : (makeDirs p).run.run o w = (.error e, w')) : w'.tree.isDir w'.cwd p = false := by
  have hmade := (throughout_makeDirs (o := o) (p := p) hs).at_end
  have hsound : w'.IsSound := by
    rw [h] at hmade
    exact hmade.1
  obtain ⟨q, hq, hnot⟩ : ∃ q ∈ p :: ancestors p, w'.tree.isDir w'.cwd q = false := by
    have hunmade : (makeDirs p).run.Throughout o (fun _ _ => True)
        (Unmade (p :: ancestors p)) w := by
      rw [makeDirs]
      split
      · exact unmade_ok _ () w
      · exact throughout_makeDirsFrom_unmade (List.mem_cons_self ..) fun q =>
          List.mem_cons_of_mem _
    have hend := hunmade.at_end
    rw [h] at hend
    exact hend e rfl
  rcases List.mem_cons.mp hq with rfl | hq
  · exact hnot
  · rw [← Bool.not_eq_true]
    intro hdir
    have habove := Path.isAbove_of_mem_ancestors hq
    rw [isDir_of_isAbove hsound.closed (dir_start hsound.cwd _) habove hdir] at hnot
    contradiction

end Program

end LlvmBootstrap
