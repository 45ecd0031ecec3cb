import LlvmBootstrap.Proofs.Sources.Staging
import LlvmBootstrap.Stage

/-!
What a root holds between the runs that work on it. A `Tidy` root has nothing in it but the
lock file and the directories that the stages make, each of these only if that of the stage
before it is there. It changes one entry at a time, and the record of a stage tells whether its
directory is there.
-/

namespace LlvmBootstrap

open LlvmBootstrap.Tree

/-- A stage that is done only on top of another one. -/
inductive Stage.Needs : Stage → Stage → Prop
  | configure (a : Arch) : Needs (.configure a) .fetch
  | install (a : Arch) : Needs (.install a) (.configure a)

namespace Root

variable {σ : Type} {r : Root} {m w w' : World σ} {top loc : Location}
  {s s' : Stage} {n : Name} {node : Node} {mode : Mode} {t t' : Tree}

/-! ### Names -/

def lockName : Name := Utf8.encode ".lock"

def markerName : Stage → Name
  | .fetch => sourceName
  | .configure a => Utf8.encode ("build-" ++ a.text)
  | .install a => Utf8.encode a.text

theorem isPlain_lockName : Path.IsPlain lockName := by constructor <;> decide

theorem isPlain_markerName (s : Stage) : Path.IsPlain (markerName s) := by
  rcases s with _ | ⟨_ | _⟩ | ⟨_ | _⟩ <;> constructor <;> decide

theorem length_markerName_le (s : Stage) : (markerName s).length ≤ maxName := by
  rcases s with _ | ⟨_ | _⟩ | ⟨_ | _⟩ <;> decide

theorem markerName_ne_lockName (s : Stage) : markerName s ≠ lockName := by
  rcases s with _ | ⟨_ | _⟩ | ⟨_ | _⟩ <;> decide

theorem eq_of_markerName_eq (h : markerName s = markerName s') : s = s' := by
  revert h
  rcases s with _ | ⟨_ | _⟩ | ⟨_ | _⟩ <;> rcases s' with _ | ⟨_ | _⟩ | ⟨_ | _⟩ <;> decide

theorem markerName_ne (h : s ≠ s') : markerName s ≠ markerName s' := mt eq_of_markerName_eq h

theorem markerName_ne_stagingName (s : Stage) (drawn : Name) :
    markerName s ≠ stagingName drawn := by
  obtain ⟨rest, heq, -⟩ := stagingName_eq drawn
  rw [heq]
  intro h
  have hhead : (markerName s).head? = some 0x2E := by rw [h]; rfl
  revert hhead
  rcases s with _ | ⟨_ | _⟩ | ⟨_ | _⟩ <;> decide

theorem extends_lock (r : Root) : Path.Extends r.path [lockName] r.lock :=
  (Path.Extends.refl r.path).concat isPlain_lockName

theorem marker_eq (r : Root) (s : Stage) : r.marker s = r.path / (⟨markerName s⟩ : Path) := by
  cases s <;> rfl

theorem extends_marker (r : Root) (s : Stage) :
    Path.Extends r.path [markerName s] (r.marker s) :=
  r.marker_eq s ▸ (Path.Extends.refl r.path).concat (isPlain_markerName s)

theorem last_moves_marker (r : Root) (s : Stage) :
    (r.marker s).moves.getLast? = some (.name (markerName s)) := by
  rw [(r.extends_marker s).moves_eq, List.map_singleton,
    List.getLast?_append_of_ne_nil _ (by simp)]
  rfl

theorem eq_of_marker_eq (h : r.marker s = r.marker s') : s = s' := by
  have hlast := r.last_moves_marker s
  rw [h, last_moves_marker] at hlast
  exact eq_of_markerName_eq (Component.name.inj (Option.some.inj hlast)).symm

/-! ### Entries -/

def Has (top : Location) (s : Stage) (t : Tree) : Prop :=
  ∃ mode, t.node? (top ++ [markerName s]) = some (.dir mode)

theorem has_congr (h : t'.node? (top ++ [markerName s]) = t.node? (top ++ [markerName s])) :
    Has top s t' ↔ Has top s t := by rw [Has, Has, h]

def SameStages (top : Location) (t t' : Tree) : Prop := ∀ s, Has top s t' ↔ Has top s t

def SameBut (top : Location) (s : Stage) (t t' : Tree) : Prop :=
  ∀ s', s' ≠ s → (Has top s' t' ↔ Has top s' t)

/-- What may stand in a root. A directory is there only if there can be a path to it. -/
inductive Entry (r : Root) : Name → Node → Prop
  | lock (id : FileId) : Entry r lockName (.file id)
  | marker {s : Stage} {mode : Mode} (h : (r.marker s).refusal? = none) :
      Entry r (markerName s) (.dir mode)

theorem Entry.of_marker (h : Entry r (markerName s) node) :
    (∃ mode, node = .dir mode) ∧ (r.marker s).refusal? = none := by
  generalize hn : markerName s = n at h
  cases h with
  | lock id => exact absurd hn (markerName_ne_lockName s)
  | @marker s' mode h =>
      obtain rfl := eq_of_markerName_eq hn
      exact ⟨⟨mode, rfl⟩, h⟩

theorem Entry.of_lock (h : Entry r lockName node) : ∃ id, node = .file id := by
  generalize hn : lockName = n at h
  cases h with
  | lock id => exact ⟨id, rfl⟩
  | marker h => exact absurd hn.symm (markerName_ne_lockName _)

/-- In `m` the root is there, at `top`, with nothing in it. -/
structure Bare (r : Root) (m : World σ) (top : Location) : Prop where
  sound : m.IsSound
  reaches : Reaches m.tree m.cwd r.path top
  vacant : m.tree.isVacantBelow top = true

/-- The root `m` has, with what the stages have made in it since. -/
structure Tidy (r : Root) (m : World σ) (top : Location) (w : World σ) : Prop where
  cwd : w.cwd = m.cwd
  closed : w.tree.Closed
  outside : ∀ loc, (∀ rel, rel ≠ [] → loc ≠ top ++ rel) → w.tree.node? loc = m.tree.node? loc
  entries : ∀ n node, w.tree.node? (top ++ [n]) = some node → Entry r n node
  order : ∀ s s', s.Needs s' → Has top s w.tree → Has top s' w.tree

theorem Bare.tidy (hb : Bare r m top) : Tidy r m top m where
  cwd := rfl
  closed := hb.sound.closed
  outside _ _ := rfl
  entries n node hn := by
    rw [isVacantBelow_iff.mp hb.vacant [n] (List.cons_ne_nil _ _)] at hn
    contradiction
  order s s' _ hs := by
    obtain ⟨mode, hm⟩ := hs
    rw [isVacantBelow_iff.mp hb.vacant _ (List.cons_ne_nil _ _)] at hm
    contradiction

namespace Tidy

theorem routesKept (h : Tidy r m top w) (hb : Bare r m top) : RoutesKept m.tree w.tree := by
  have hsame : ∀ loc, m.tree.node? loc ≠ none → w.tree.node? loc = m.tree.node? loc := by
    intro loc hloc
    refine h.outside loc fun rel hne he => hloc ?_
    rw [he]
    exact isVacantBelow_iff.mp hb.vacant rel hne
  refine ⟨fun loc mode hm => ⟨mode, ?_⟩, fun loc target ht => ?_⟩
  · rw [hsame loc (by simp [hm]), hm]
  · rw [hsame loc (by simp [ht]), ht]

theorem reaches (h : Tidy r m top w) (hb : Bare r m top) :
    Reaches w.tree w.cwd r.path top := by
  rw [h.cwd]
  exact hb.reaches.mono (h.routesKept hb)

theorem isSound (h : Tidy r m top w) (hb : Bare r m top) : w.IsSound := by
  obtain ⟨mode, hm⟩ := hb.sound.cwd
  exact ⟨h.closed, h.cwd ▸ (h.routesKept hb).dirs _ _ hm⟩

theorem below {p : Path} (h : Tidy r m top w) (hb : Bare r m top)
    (hp : Path.Extends r.path [n] p) :
    Below w.tree w.cwd top p [n] :=
  (h.reaches hb).belowEntry hp

theorem node?_of_not_has (h : Tidy r m top w) (hs : ¬ Has top s w.tree) :
    w.tree.node? (top ++ [markerName s]) = none := by
  cases hn : w.tree.node? (top ++ [markerName s]) with
  | none => rfl
  | some node =>
      obtain ⟨⟨mode, rfl⟩, -⟩ := (h.entries _ _ hn).of_marker
      exact absurd ⟨mode, hn⟩ hs

theorem refusal?_of_has (h : Tidy r m top w) (hs : Has top s w.tree) :
    (r.marker s).refusal? = none := by
  obtain ⟨mode, hm⟩ := hs
  exact (h.entries _ _ hm).of_marker.2

/-- The record of a stage tells whether its directory is there. -/
theorem isDir_marker_iff (h : Tidy r m top w) (hb : Bare r m top) :
    w.tree.isDir w.cwd (r.marker s) = true ↔ Has top s w.tree := by
  constructor
  · intro hdir
    by_contra hs
    have hnone := h.node?_of_not_has hs
    have hlook : w.tree.lookup w.cwd true (r.marker s) = _ :=
      (h.below hb (r.extends_marker s)).lookup fun _ target => by simp [hnone]
    have hp := (isDir_iff.mp hdir).1
    rw [Tree.isDir, hlook, arrive_single_iff.mpr ⟨hp, length_markerName_le s, hnone⟩] at hdir
    contradiction
  · intro hs
    have hp := h.refusal?_of_has hs
    obtain ⟨mode, hm⟩ := hs
    exact ((h.reaches hb).entry (r.extends_marker s) (length_markerName_le s) hm).isDir hp

/-! ### One more call -/

/-- Files may differ. -/
theorem congr (h : Tidy r m top w) (hn : ∀ loc, w'.tree.node? loc = w.tree.node? loc)
    (hc : w'.cwd = w.cwd) : Tidy r m top w' where
  cwd := hc.trans h.cwd
  closed := h.closed.congr hn
  outside loc hloc := (hn loc).trans (h.outside loc hloc)
  entries n node hnode := h.entries n node (hn _ ▸ hnode)
  order s s' hneeds hs :=
    (has_congr (hn _)).mpr (h.order s s' hneeds ((has_congr (hn _)).mp hs))

/-- One entry is another one now. -/
theorem update (h : Tidy r m top w) (hc : w'.cwd = w.cwd) (hclosed : w'.tree.Closed)
    (hsame : ∀ loc, isWithin (top ++ [n]) loc = false → w'.tree.node? loc = w.tree.node? loc)
    (hentry : ∀ node, w'.tree.node? (top ++ [n]) = some node → Entry r n node)
    (horder : ∀ s s', s.Needs s' → Has top s w'.tree → Has top s' w'.tree) :
    Tidy r m top w' where
  cwd := hc.trans h.cwd
  closed := hclosed
  outside loc hloc := by
    refine (hsame loc ?_).trans (h.outside loc hloc)
    rw [isWithin_eq_false_iff]
    rintro rel he
    exact hloc (n :: rel) (List.cons_ne_nil _ _) (by rw [he, List.append_assoc]; rfl)
  entries n' node hn := by
    by_cases heq : n' = n
    · subst heq
      exact hentry node hn
    · rw [hsame _ (isWithin_sibling (Ne.symm heq))] at hn
      exact h.entries n' node hn
  order := horder

/-- The order of the stages stands when the directory of one of them
is made, after those before it. -/
theorem order_of_made (h : Tidy r m top w)
    (hothers : SameBut top s w.tree w'.tree) (hmade : Has top s w'.tree)
    (hneeds : ∀ s', s.Needs s' → Has top s' w.tree) (s₁ s₂ : Stage) (hn : s₁.Needs s₂)
    (hs : Has top s₁ w'.tree) : Has top s₂ w'.tree := by
  by_cases h₂ : s₂ = s
  · exact h₂ ▸ hmade
  · refine (hothers s₂ h₂).mpr ?_
    by_cases h₁ : s₁ = s
    · exact hneeds s₂ (h₁ ▸ hn)
    · exact h.order s₁ s₂ hn ((hothers s₁ h₁).mp hs)

/-- The order of the stages stands when the directory of one of them
goes, before those after it. -/
theorem order_of_gone (h : Tidy r m top w)
    (hothers : SameBut top s w.tree w'.tree) (hgone : ¬ Has top s w'.tree)
    (hneeded : ∀ s', s'.Needs s → ¬ Has top s' w.tree) (s₁ s₂ : Stage) (hn : s₁.Needs s₂)
    (hs : Has top s₁ w'.tree) : Has top s₂ w'.tree := by
  have h₁ : s₁ ≠ s := by
    rintro rfl
    exact hgone hs
  have hold := (hothers s₁ h₁).mp hs
  have h₂ : s₂ ≠ s := by
    rintro rfl
    exact hneeded s₁ hn hold
  exact (hothers s₂ h₂).mpr (h.order s₁ s₂ hn hold)

end Tidy

end Root

end LlvmBootstrap
