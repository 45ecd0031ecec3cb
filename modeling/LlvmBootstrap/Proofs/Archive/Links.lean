import Mathlib
import LlvmBootstrap.Proofs.Archive.Confinement
import LlvmBootstrap.Proofs.Tree.Visits

/-!
Where the links of an unpacked archive lead. The check of a target is one of its text alone and
of the places in the archive: it keeps out absolute targets and those that leave the archive's
top directory by their text. A target may still climb above the destination, by way of the name
of the archive's top directory or of another link, and such a target is what makes a link lead
outside.
-/

namespace LlvmBootstrap.Archive

open LlvmBootstrap.Tree Program

variable {σ : Type} {o : Outside σ} {w : World σ} {dest root : Path} {top : Location}

theorem isAbsolute_of_isChecked {below : List Name} {target : Path}
    (h : IsChecked root below target) : target.isAbsolute = false := by
  obtain ⟨tops, -, hl⟩ := h
  rw [← Bool.not_eq_true]
  intro habs
  have hnone : linkedNames? (tops ++ below) target = none := by
    obtain ⟨lead, hlead, hcomps⟩ := Path.components_eq target
    rw [linkedNames?, Path.join_of_isAbsolute habs, Path.normalize?, hcomps]
    rcases hlead with ⟨rfl, -⟩ | ⟨-, hrel⟩ | ⟨-, hrel⟩
    · rfl
    · rw [habs] at hrel
      contradiction
    · rw [habs] at hrel
      contradiction
  rw [hnone] at hl
  contradiction

/-- Every link below the destination has been checked. -/
theorem isChecked_of_unpack (members : Tar.Members) (root : Path) (h : w.HasEmptyDir dest top)
    {rel : List Name} {target : Path} (hne : rel ≠ [])
    (hlink : ((unpack members root dest).run.run o w).2.tree.node? (top ++ rel) =
      some (.link target)) :
    IsChecked root rel target := by
  have hrun : (unpack members root dest).run.Throughout o
      (Permits (IsChecked root) (Inside (IsChecked root) w.tree w.cwd top) top dest)
      (fun _ w' => Inside (IsChecked root) w.tree w.cwd top w') w :=
    throughout_unpack members root (inside_of_hasEmptyDir h)
      (emptyDir_of_hasEmptyDir h) fun _ _ hc => hc
  exact hrun.at_end.confined.links rel target hne hlink

/-- The links that unpacking leaves in an empty directory are checked ones. All of them stay
below the directory, at every step of following them, exactly if none of them climbs out of it;
one that stays ends at something inside, at a missing name inside, or nowhere. -/
theorem unpack_links_stay_iff (members : Tar.Members) (root : Path)
    (h : w.HasEmptyDir dest top) :
    let t := ((unpack members root dest).run.run o w).2.tree
    (∀ rel target, rel ≠ [] → t.node? (top ++ rel) = some (.link target) →
      IsChecked root rel target) ∧
    ((∀ dir n target, isWithin top dir = true → t.node? (dir ++ [n]) = some (.link target) →
        StaysBelow t top dir target) ↔
      top = [] ∨ ∀ dir n target, isWithin top dir = true →
        t.node? (dir ++ [n]) = some (.link target) → ¬ ClimbsOut t top dir target) ∧
    ∀ dir target, StaysBelow t top dir target →
      match t.walk true maxLinks (target.start dir) (steps target) with
      | .ok (.found loc _) => isWithin top loc = true
      | .ok (.vacant loc n) => isWithin top (loc ++ [n]) = true
      | .error _ => True := by
  intro t
  have hchecked : ∀ rel target, rel ≠ [] → t.node? (top ++ rel) = some (.link target) →
      IsChecked root rel target := fun rel target => isChecked_of_unpack members root h
  have hrel : ∀ dir n target, isWithin top dir = true →
      t.node? (dir ++ [n]) = some (.link target) →
      target.isAbsolute = false := by
    intro dir n target hdir hlink
    obtain ⟨rel, rfl⟩ := isWithin_iff.mp hdir
    rw [List.append_assoc] at hlink
    exact isAbsolute_of_isChecked (hchecked (rel ++ [n]) target (by simp) hlink)
  refine ⟨hchecked, ?_, ?_⟩
  · -- Nothing is outside the root directory. Elsewhere a link must climb past the destination
    -- to leave it.
    by_cases hne : top = []
    · subst hne
      refine ⟨fun _ => .inl rfl, fun _ dir n target _ _ loc _ => ?_⟩
      exact isWithin_append [] loc
    · rw [staysBelow_iff hne hrel]
      exact ⟨.inr, fun hor => hor.resolve_left hne⟩
  · intro dir target hstay
    split
    · rename_i loc n hw
      exact hstay loc (mem_visits_of_found hw)
    · rename_i loc n hw
      exact hstay _ (mem_visits_of_vacant hw)
    · trivial

def pastDest : Tar.Members where
  list := [⟨"R/a", .symlink, some "../R/b", some 0o777, [], true⟩]
  damaged := false

theorem run_unpack_pastDest :
    ((unpack pastDest "R" "/d").run.run silent (World.fresh bareDir [] .empty 1 ())).1 =
      .ok 1 ∧
    ((unpack pastDest "R" "/d").run.run silent
      (World.fresh bareDir [] .empty 1 ())).2.tree.node?
      [[0x64], [0x61]] = some (.link "../R/b") := by
  constructor
  · cbv
  · cbv

/-- Such an archive is accepted, and its link leads out of the destination. -/
theorem unpack_links_stay_iff_pastDest :
    let w := World.fresh bareDir [] .empty 1 ()
    let run := (unpack pastDest "R" "/d").run.run silent w
    let t := run.2.tree
    w.HasEmptyDir "/d" [[0x64]] ∧ run.1 = .ok 1 ∧
      t.node? [[0x64], [0x61]] = some (.link "../R/b") ∧
      ClimbsOut t [[0x64]] [[0x64]] "../R/b" ∧
      ¬ ∀ dir n target, isWithin [[0x64]] dir = true →
        t.node? (dir ++ [n]) = some (.link target) →
        StaysBelow t [[0x64]] dir target := by
  intro w run t
  have h : w.HasEmptyDir "/d" [[0x64]] := hasEmptyDir_d (by decide) (by decide)
  have hlink : t.node? [[0x64], [0x61]] = some (.link "../R/b") := run_unpack_pastDest.2
  have hclimb : ClimbsOut t [[0x64]] [[0x64]] "../R/b" :=
    ⟨[], [.name [0x52], .name [0x62]], maxLinks, by decide, .done ..⟩
  refine ⟨h, run_unpack_pastDest.1, hlink, hclimb, fun hstay => ?_⟩
  rcases (unpack_links_stay_iff pastDest "R" h).2.1.mp hstay with hnil | hnone
  · contradiction
  · exact hnone [[0x64]] [0x61] "../R/b" (by decide) hlink hclimb

end LlvmBootstrap.Archive
