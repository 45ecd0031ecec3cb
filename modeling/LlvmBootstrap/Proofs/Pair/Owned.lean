import LlvmBootstrap.Proofs.Machine.Handles
import LlvmBootstrap.Proofs.Root.LockFile
import LlvmBootstrap.Proofs.Tree.SameOn

/-!
What each architecture has of its own in a root, and work that minds this: work for one
architecture does not touch what is not its own, and comes to the same wherever all is the same
but for what the others have of their own and for the lock file. Such work composes.
-/

namespace LlvmBootstrap

open LlvmBootstrap.Tree Program

structure World.SameProcess {σ : Type} (w w' : World σ) : Prop where
  cwd : w'.cwd = w.cwd
  environ : w'.environ = w.environ
  processId : w'.processId = w.processId

theorem World.SameProcess.symm {σ : Type} {w w' : World σ} (h : w.SameProcess w') :
    w'.SameProcess w :=
  ⟨h.cwd.symm, h.environ.symm, h.processId.symm⟩

theorem World.SameProcess.trans {σ : Type} {w w' w'' : World σ} (h : w.SameProcess w')
    (h' : w'.SameProcess w'') : w.SameProcess w'' :=
  ⟨h'.cwd.trans h.cwd, h'.environ.trans h.environ, h'.processId.trans h.processId⟩

/-- No call changes anything about the process. -/
theorem Program.sameProcess_run {σ α : Type} (o : Outside σ) (p : Program α) (w : World σ) :
    w.SameProcess (p.run o w).2 := by
  induction p generalizing w with
  | done a => exact ⟨rfl, rfl, rfl⟩
  | call c next ih =>
      have hcall : w.SameProcess (w.perform o c).2 :=
        ⟨w.cwd_perform o c, (w.process_perform o c).1, (w.process_perform o c).2⟩
      exact hcall.trans (ih _ _)

namespace Root

variable {σ α β ε : Type} {o : Outside σ} {r : Root} {here top loc : Location} {a b : Arch}
  {u v w : World σ} {t t' t'' : Tree} {s : Stage} {n : Name} {p : Program α}

/-! ### What is whose -/

/-- What an architecture has of its own in the root at `top`: its build
tree and its install directory. -/
def Own (top : Location) (a : Arch) (loc : Location) : Prop :=
  isWithin (top ++ [markerName (.configure a)]) loc = true ∨
    isWithin (top ++ [markerName (.install a)]) loc = true

/-- All but the lock file and what other architectures have of their own. -/
def Concerns (top : Location) (a : Arch) (loc : Location) : Prop :=
  loc ≠ top ++ [lockName] ∧ ∀ b, b ≠ a → ¬ Own top b loc

theorem own_marker_iff : Own top a (top ++ [markerName s]) ↔
    s = .configure a ∨ s = .install a := by
  have hwithin : ∀ s', isWithin (top ++ [markerName s']) (top ++ [markerName s]) = true ↔
      s = s' := by
    intro s'
    refine ⟨fun h => ?_, fun h => h ▸ isWithin_self _⟩
    by_contra hne
    rw [isWithin_sibling (markerName_ne (Ne.symm hne))] at h
    contradiction
  rw [Own, hwithin, hwithin]

theorem not_own_lock : ¬ Own top a (top ++ [lockName]) := by
  rintro (h | h) <;> rw [isWithin_sibling (markerName_ne_lockName _)] at h <;> contradiction

theorem concerns_marker (hs : s.IsOf a) : Concerns top a (top ++ [markerName s]) := by
  refine ⟨fun h => ?_, fun b hne h => ?_⟩
  · exact markerName_ne_lockName s (List.cons.inj (List.append_cancel_left h)).1
  · rcases own_marker_iff.mp h with rfl | rfl <;> exact hne hs

/-- What is below what is one's own is one's own. -/
theorem Own.append (h : Own top a loc) (rel : List Name) : Own top a (loc ++ rel) :=
  h.imp (isWithin_trans · (isWithin_append ..)) (isWithin_trans · (isWithin_append ..))

theorem eq_of_isWithin {n m : Name} (h : isWithin (top ++ [n]) loc = true)
    (h' : isWithin (top ++ [m]) loc = true) : n = m := by
  by_contra hne
  obtain ⟨rel, rfl⟩ := isWithin_iff.mp h'
  rw [List.append_assoc, List.singleton_append, isWithin_sibling hne] at h
  contradiction

theorem not_own_of_ne (h : Own top a loc) (hne : b ≠ a) : ¬ Own top b loc := by
  rintro (h' | h') <;> rcases h with h | h <;> have hname :=
    eq_of_markerName_eq (eq_of_isWithin h h')
  · exact hne (Stage.configure.inj hname).symm
  · contradiction
  · contradiction
  · exact hne (Stage.install.inj hname).symm

/-- The way to the root does not lead through what the architectures have of their own in it,
nor is the current directory there. -/
def Aloof (r : Root) (here top : Location) (t : Tree) : Prop :=
  ∃ way : Tree, RoutesKept way t ∧ (∀ a loc, Own top a loc → way.node? loc = none) ∧
    (∃ mode, way.node? here = some (.dir mode)) ∧ Reaches way here r.path top

/-- A world in which the root is at `top`, with no links for the directories of the stages, and
the lock file has no other name. -/
structure Fit (r : Root) (here top : Location) (w : World σ) : Prop where
  cwd : w.cwd = here
  closed : w.tree.Closed
  filled : w.tree.Filled
  aloof : Aloof r here top w.tree
  lock : PlainLock top w.tree
  unlinked : ∀ s target, w.tree.node? (top ++ [markerName s]) ≠ some (.link target)

namespace Fit

theorem reaches (h : Fit r here top w) : Reaches w.tree w.cwd r.path top := by
  obtain ⟨way, hroutes, -, -, hr⟩ := h.aloof
  exact h.cwd ▸ hr.mono hroutes

theorem isSound (h : Fit r here top w) : w.IsSound := by
  obtain ⟨way, hroutes, -, ⟨mode, hmode⟩, -⟩ := h.aloof
  exact ⟨h.closed, h.cwd ▸ hroutes.dirs _ _ hmode⟩

theorem below (h : Fit r here top w) (s : Stage) :
    Below w.tree w.cwd top (r.marker s) [markerName s] :=
  h.reaches.belowEntry (r.extends_marker s)

/-- The path of a stage's directory leads to what stands in the root under its name. -/
theorem arrive (_ : Fit r here top w) (s : Stage) :
    w.tree.arrive top (r.marker s) [markerName s] =
      match (r.marker s).refusal? with
    | some e => .error e
    | none => .ok (w.tree.node? (top ++ [markerName s])) := by
  cases hp : (r.marker s).refusal? with
  | some e => simp only [Tree.arrive, hp]
  | none =>
      simp only [Tree.arrive, hp, descend,
        if_neg (Nat.not_lt.mpr (length_markerName_le s)), if_true]

end Fit

/-! ### Work that minds what is whose -/

/-- What `a` has of its own may differ, and nothing else. No link comes to stand for the
directory of a stage, and nothing that `a` has of its own is a name of the lock file. -/
structure OnlyOwn (top : Location) (a : Arch) (t t' : Tree) : Prop where
  closed : t'.Closed
  filled : t'.Filled
  nodes : ∀ loc, ¬ Own top a loc → t'.node? loc = t.node? loc
  bodies : ∀ loc id, ¬ Own top a loc → t.node? loc = some (.file id) → t'.body? id = t.body? id
  lock : ∀ loc, Own top a loc → ¬ t'.OneFile loc (top ++ [lockName])
  unlinked : ∀ s target, t'.node? (top ++ [markerName s]) ≠ some (.link target)

theorem PlainLock.not_oneFile (h : PlainLock top t) {loc : Location} (hloc : Own top a loc) :
    ¬ t.OneFile loc (top ++ [lockName]) := by
  rintro ⟨id, hn, hn'⟩
  exact not_own_lock (h.single id loc hn' hn ▸ hloc)

theorem Fit.onlyOwn_refl (h : Fit r here top w) (a : Arch) : OnlyOwn top a w.tree w.tree :=
  ⟨h.closed, h.filled, fun _ _ => rfl, fun _ _ _ _ => rfl,
    fun _ => h.lock.not_oneFile, h.unlinked⟩

namespace OnlyOwn

theorem trans (h : OnlyOwn top a t t') (h' : OnlyOwn top a t' t'') : OnlyOwn top a t t'' where
  closed := h'.closed
  filled := h'.filled
  nodes loc hloc := (h'.nodes loc hloc).trans (h.nodes loc hloc)
  bodies loc id hloc hn :=
    (h'.bodies loc id hloc ((h.nodes loc hloc).trans hn)).trans (h.bodies loc id hloc hn)
  lock := h'.lock
  unlinked := h'.unlinked

theorem sameOn (h : OnlyOwn top a t t') : SameOn (fun loc => ¬ Own top a loc) t t' :=
  .of_nodes h.nodes h.bodies

theorem aloof (h : OnlyOwn top a t t') (ht : Aloof r here top t) : Aloof r here top t' := by
  obtain ⟨way, hroutes, hnone, hcwd, hr⟩ := ht
  have hout : ∀ loc, way.node? loc ≠ none → ¬ Own top a loc :=
    fun loc hne hown => hne (hnone a loc hown)
  refine ⟨way, ⟨fun loc mode hm => ?_, fun loc target ht => ?_⟩, hnone, hcwd, hr⟩
  · rw [h.nodes loc (hout loc (by simp [hm]))]
    exact hroutes.dirs loc mode hm
  · rw [h.nodes loc (hout loc (by simp [ht]))]
    exact hroutes.links loc target ht

theorem fit (h : OnlyOwn top a u.tree w.tree) (hu : Fit r here top u) (hcwd : w.cwd = u.cwd) :
    Fit r here top w where
  cwd := hcwd.trans hu.cwd
  closed := h.closed
  filled := h.filled
  aloof := h.aloof hu.aloof
  lock := by
    refine ⟨fun target ht => hu.lock.not_link target ?_, fun id loc hid hloc => ?_⟩
    · rwa [← h.nodes _ not_own_lock]
    · by_cases hown : Own top a loc
      · exact absurd ⟨id, hloc, hid⟩ (h.lock loc hown)
      · exact hu.lock.single id loc ((h.nodes _ not_own_lock).symm.trans hid)
          ((h.nodes loc hown).symm.trans hloc)
  unlinked := h.unlinked

end OnlyOwn

structure Peers (r : Root) (here top : Location) (a : Arch) (u v : World σ) : Prop where
  left : Fit r here top u
  right : Fit r here top v
  process : u.SameProcess v
  same : SameOn (Concerns top a) u.tree v.tree

/-- The program works for `a`: what it changes is `a`'s own, in two worlds that are the same
for `a` it comes to the same, and it leaves the locks alone. -/
structure Minds (o : Outside σ) (r : Root) (here top : Location) (a : Arch)
    (p : Program α) : Prop where
  keeps : ∀ u, Fit r here top u → OnlyOwn top a u.tree (p.run o u).2.tree
  same : ∀ u v, Peers r here top a u v →
    (p.run o u).1 = (p.run o v).1 ∧
    SameOn (Concerns top a) (p.run o u).2.tree (p.run o v).2.tree
  locks : ∀ u, Fit r here top u → (p.run o u).2.locks = u.locks

namespace Minds

theorem fit (h : Minds o r here top a p) (hu : Fit r here top u) :
    Fit r here top (p.run o u).2 :=
  (h.keeps u hu).fit hu (sameProcess_run o p u).cwd

theorem peers (h : Minds o r here top a p) (hpeers : Peers r here top a u v) :
    (p.run o u).1 = (p.run o v).1 ∧ Peers r here top a (p.run o u).2 (p.run o v).2 := by
  obtain ⟨hres, hsame⟩ := h.same u v hpeers
  exact ⟨hres, h.fit hpeers.left, h.fit hpeers.right,
    (sameProcess_run o p u).symm.trans (hpeers.process.trans (sameProcess_run o p v)), hsame⟩

/-- A program that changes nothing, and is told the same in both worlds. -/
theorem of_still (hstill : ∀ u : World σ, (p.run o u).2.tree = u.tree)
    (hlocks : ∀ u : World σ, (p.run o u).2.locks = u.locks)
    (hres : ∀ u v, Peers r here top a u v → (p.run o u).1 = (p.run o v).1) :
    Minds o r here top a p where
  keeps u hfit := by
    rw [hstill]
    exact hfit.onlyOwn_refl a
  same u v hpeers := by
    rw [hstill, hstill]
    exact ⟨hres u v hpeers, hpeers.same⟩
  locks u _ := hlocks u

theorem pure (x : α) : Minds o r here top a (pure x : Program α) :=
  .of_still (fun _ => rfl) (fun _ => rfl) fun _ _ _ => rfl

/-- A program that says something. -/
theorem log (level : Level) (text : String) : Minds o r here top a (ask (.log level text)) :=
  .of_still (fun _ => rfl) (fun _ => rfl) fun _ _ _ => rfl

/-- What comes next may rely on what is said of the results of the first part. -/
theorem bind_of {f : α → Program β} {Q : α → Prop} (h : Minds o r here top a p)
    (hres : ∀ w : World σ, Q (p.run o w).1) (hf : ∀ x, Q x → Minds o r here top a (f x)) :
    Minds o r here top a (p >>= f) where
  keeps u hfit := by
    rw [run_bind]
    exact (h.keeps u hfit).trans ((hf _ (hres u)).keeps _ (h.fit hfit))
  same u v hpeers := by
    obtain ⟨hres', hnext⟩ := h.peers hpeers
    rw [run_bind, run_bind, ← hres']
    exact (hf _ (hres u)).same _ _ hnext
  locks u hfit := by
    rw [run_bind]
    exact ((hf _ (hres u)).locks _ (h.fit hfit)).trans (h.locks u hfit)

theorem bind {f : α → Program β} (h : Minds o r here top a p)
    (hf : ∀ x, Minds o r here top a (f x)) :
    Minds o r here top a (p >>= f) :=
  h.bind_of (Q := fun _ => True) (fun _ => trivial) fun x _ => hf x

end Minds

end Root

end LlvmBootstrap
