import LlvmBootstrap.Proofs.Tree.Below

/-!
Trees that have changed below one directory only. The directory was empty at first, so all that
stands below it now is new: its files are files that were not there before, and each thing
there stands in a directory.
-/

namespace LlvmBootstrap.Tree

/-- `t'` is `t` with new things strictly below `top`. Links there are as `L` says of their
names and their targets. -/
structure Confined (L : List Name → Path → Prop) (top : Location) (t t' : Tree) : Prop where
  outside : ∀ loc, (∀ rel, rel ≠ [] → loc ≠ top ++ rel) → t'.node? loc = t.node? loc
  bodies : ∀ id, id < t.bodies.length → t'.body? id = t.body? id
  length_le : t.bodies.length ≤ t'.bodies.length
  fresh : ∀ rel id, rel ≠ [] → t'.node? (top ++ rel) = some (.file id) →
    t.bodies.length ≤ id ∧ id < t'.bodies.length
  closed : ∀ rel, rel ≠ [] → t'.node? (top ++ rel) ≠ none →
    ∃ mode, t'.node? (top ++ rel.dropLast) = some (.dir mode)
  links : ∀ rel target, rel ≠ [] → t'.node? (top ++ rel) = some (.link target) → L rel target

theorem ne_of_dropLast {rel ns : List Name} (h : rel.dropLast = ns) (hne : rel ≠ []) :
    rel ≠ ns := by
  intro he
  have hlen := congrArg List.length h
  rw [he, List.length_dropLast] at hlen
  have := List.length_pos_iff.mpr (he ▸ hne)
  omega

namespace Confined

variable {L : List Name → Path → Prop} {top : Location} {t t' : Tree} {ns : List Name}

theorem refl (h : t.isVacantBelow top = true) : Confined L top t t where
  outside _ _ := rfl
  bodies _ _ := rfl
  length_le := Nat.le_refl _
  fresh rel id hne hn := by
    rw [isVacantBelow_iff.mp h rel hne] at hn
    contradiction
  closed rel hne hn := absurd (isVacantBelow_iff.mp h rel hne) hn
  links rel target hne hn := by
    rw [isVacantBelow_iff.mp h rel hne] at hn
    contradiction

theorem node?_top (h : Confined L top t t') : t'.node? top = t.node? top :=
  h.outside top fun _ hne he => hne (List.append_right_eq_self.mp he.symm)

/-- Every way to a directory is as it was. -/
theorem routesKept (h : Confined L top t t') (hv : t.isVacantBelow top = true) :
    RoutesKept t t' := by
  have hsame : ∀ loc, t.node? loc ≠ none → t'.node? loc = t.node? loc := by
    intro loc hn
    refine h.outside loc fun rel hne he => hn ?_
    rw [he]
    exact isVacantBelow_iff.mp hv rel hne
  refine ⟨fun loc mode hm => ⟨mode, ?_⟩, fun loc target ht => ?_⟩
  · rw [hsame loc (by simp [hm]), hm]
  · rw [hsame loc (by simp [ht]), ht]

/-- Nothing stands below what is not a directory. -/
theorem vacant_child (h : Confined L top t t')
    (hn : ∀ mode, t'.node? (top ++ ns) ≠ some (.dir mode)) (m : Name) :
    t'.node? (top ++ (ns ++ [m])) = none := by
  cases hc : t'.node? (top ++ (ns ++ [m])) with
  | none => rfl
  | some n =>
      obtain ⟨mode, hm⟩ := h.closed (ns ++ [m]) (by simp) (by simp [hc])
      rw [List.dropLast_concat] at hm
      exact absurd hm (hn mode)

/-- Nothing stands below a place where nothing stands. -/
theorem vacant_below (h : Confined L top t t') {pre : List Name}
    (hn : t'.node? (top ++ pre) = none) (hp : pre <+: ns) : t'.node? (top ++ ns) = none := by
  obtain ⟨rel, rfl⟩ := hp
  induction rel generalizing pre with
  | nil => rwa [List.append_nil]
  | cons m rel ih =>
      have hnone : t'.node? (top ++ (pre ++ [m])) = none :=
        h.vacant_child (fun mode => by simp [hn]) m
      have hrest := ih hnone
      rwa [List.append_assoc] at hrest

/-! ### What keeps a tree confined -/

theorem put {n : Node} (h : Confined L top t t') (hne : ns ≠ [])
    (hparent : ∃ mode, t'.node? (top ++ ns.dropLast) = some (.dir mode))
    (hfile : ∀ id, n = .file id → t.bodies.length ≤ id ∧ id < t'.bodies.length)
    (hlink : ∀ target, n = .link target → L ns target)
    (hchild : (∃ mode, n = .dir mode) ∨ ∀ m, t'.node? (top ++ (ns ++ [m])) = none) :
    Confined L top t (t'.put (top ++ ns) n) := by
  have hnode := node?_put_below t' n top hne
  refine ⟨?_, h.bodies, h.length_le, ?_, ?_, ?_⟩
  · intro loc hl
    rw [node?_put_of_ne _ _ (hl ns hne)]
    exact h.outside loc hl
  · intro rel id hrel hn
    rw [hnode] at hn
    split at hn
    · exact hfile id (Option.some.inj hn)
    · exact h.fresh rel id hrel hn
  · intro rel hrel hn
    rw [hnode] at hn
    rw [hnode]
    by_cases heq : rel = ns
    · subst heq
      rw [if_neg (ne_of_dropLast rfl hne).symm]
      exact hparent
    · rw [if_neg heq] at hn
      -- Something that stands in the place that is written needs a
      -- directory there, or was not there.
      by_cases hpar : rel.dropLast = ns
      · rw [if_pos hpar]
        rcases hchild with ⟨mode, rfl⟩ | hchild
        · exact ⟨mode, rfl⟩
        · refine absurd ?_ hn
          rw [← List.dropLast_concat_getLast hrel, hpar]
          exact hchild _
      · rw [if_neg hpar]
        exact h.closed rel hrel hn
  · intro rel target hrel hn
    rw [hnode] at hn
    split at hn
    · rename_i heq
      rw [heq]
      exact hlink target (Option.some.inj hn)
    · exact h.links rel target hrel hn

theorem remove (h : Confined L top t t') (hne : ns ≠ [])
    (hn : ∀ mode, t'.node? (top ++ ns) ≠ some (.dir mode)) :
    Confined L top t (t'.remove (top ++ ns)) := by
  have hnode := node?_remove_below t' top hne
  refine ⟨?_, h.bodies, h.length_le, ?_, ?_, ?_⟩
  · intro loc hl
    rw [node?_remove_of_ne _ (hl ns hne)]
    exact h.outside loc hl
  · intro rel id hrel hr
    rw [hnode] at hr
    split at hr
    · contradiction
    · exact h.fresh rel id hrel hr
  · intro rel hrel hr
    rw [hnode] at hr
    rw [hnode]
    split at hr
    · contradiction
    · obtain ⟨mode, hm⟩ := h.closed rel hrel hr
      -- Nothing stands in what is removed, since it is no directory.
      by_cases hpar : rel.dropLast = ns
      · rw [hpar] at hm
        exact absurd hm (hn mode)
      · rw [if_neg hpar]
        exact ⟨mode, hm⟩
  · intro rel target hrel hr
    rw [hnode] at hr
    split at hr
    · contradiction
    · exact h.links rel target hrel hr

theorem setBody (h : Confined L top t t') {id : FileId} (hid : t.bodies.length ≤ id)
    (b : FileBody) :
    Confined L top t (t'.setBody id b) where
  outside loc hl := by
    rw [node?_setBody]
    exact h.outside loc hl
  bodies id' hid' := by
    rw [body?, bodies_setBody, List.getElem?_set_ne (by omega)]
    exact h.bodies id' hid'
  length_le := by
    rw [bodies_setBody, List.length_set]
    exact h.length_le
  fresh rel id' hne hn := by
    rw [node?_setBody] at hn
    rw [bodies_setBody, List.length_set]
    exact h.fresh rel id' hne hn
  closed rel hne hn := by
    rw [node?_setBody] at hn ⊢
    exact h.closed rel hne hn
  links rel target hne hn := by
    rw [node?_setBody] at hn
    exact h.links rel target hne hn

theorem addBody (h : Confined L top t t') (b : FileBody) :
    Confined L top t (t'.addBody b).2 where
  outside loc hl := by
    rw [node?_addBody]
    exact h.outside loc hl
  bodies id hid := by
    rw [body?, bodies_addBody, List.getElem?_append_left (Nat.lt_of_lt_of_le hid h.length_le)]
    exact h.bodies id hid
  length_le := by
    rw [bodies_addBody, List.length_append]
    exact Nat.le_add_right_of_le h.length_le
  fresh rel id hne hn := by
    rw [node?_addBody] at hn
    obtain ⟨hle, hlt⟩ := h.fresh rel id hne hn
    refine ⟨hle, ?_⟩
    rw [bodies_addBody, List.length_append]
    exact Nat.lt_add_right _ hlt
  closed rel hne hn := by
    rw [node?_addBody] at hn ⊢
    exact h.closed rel hne hn
  links rel target hne hn := by
    rw [node?_addBody] at hn
    exact h.links rel target hne hn

end Confined

end LlvmBootstrap.Tree
