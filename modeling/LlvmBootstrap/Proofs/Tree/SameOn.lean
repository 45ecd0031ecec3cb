import LlvmBootstrap.Proofs.Archive.Confinement

/-!
Trees that are the same at some places. Files may have other numbers, as they do when the same
things were made in another order; what shows is what stands at a place, what a file holds, and
which names are names of one file.
-/

namespace LlvmBootstrap.Tree

/-- The trees show the same at the places in `R`, and the same of
these are names of one file. -/
structure SameOn (R : Location → Prop) (t t' : Tree) : Prop where
  shown : ∀ loc, R loc → (t.node? loc).map t.shown = (t'.node? loc).map t'.shown
  oneFile : ∀ loc loc', R loc → R loc' → (t.OneFile loc loc' ↔ t'.OneFile loc loc')

variable {R R' : Location → Prop} {t t' t'' : Tree} {loc loc' top : Location} {mode : Mode}

theorem OneFile.symm (h : t.OneFile loc loc') : t.OneFile loc' loc := by
  obtain ⟨id, hn, hn'⟩ := h
  exact ⟨id, hn', hn⟩

namespace SameOn

theorem symm (h : SameOn R t t') : SameOn R t' t :=
  ⟨fun loc hloc => (h.shown loc hloc).symm,
    fun loc loc' hloc hloc' => (h.oneFile loc loc' hloc hloc').symm⟩

theorem trans (h : SameOn R t t') (h' : SameOn R t' t'') : SameOn R t t'' :=
  ⟨fun loc hloc => (h.shown loc hloc).trans (h'.shown loc hloc),
    fun loc loc' hloc hloc' =>
      (h.oneFile loc loc' hloc hloc').trans (h'.oneFile loc loc' hloc hloc')⟩

theorem mono (h : SameOn R t t') (hR : ∀ loc, R' loc → R loc) : SameOn R' t t' :=
  ⟨fun loc hloc => h.shown loc (hR loc hloc),
    fun loc loc' hloc hloc' => h.oneFile loc loc' (hR loc hloc) (hR loc' hloc')⟩

/-- Where the nodes are the same and so are the files, the trees show the same. -/
theorem of_nodes (hn : ∀ loc, R loc → t'.node? loc = t.node? loc)
    (hb : ∀ loc id, R loc → t.node? loc = some (.file id) → t'.body? id = t.body? id) :
    SameOn R t t' where
  shown loc hloc := by
    rw [hn loc hloc]
    cases hnode : t.node? loc with
    | none => rfl
    | some n =>
        cases n with
        | file id =>
            simp only [Option.map_some, Tree.shown, Tree.mode, content, hb loc id hloc hnode]
        | dir mode => rfl
        | link target => rfl
  oneFile loc loc' hloc hloc' := by rw [OneFile, OneFile, hn loc hloc, hn loc' hloc']

theorem none_iff (h : SameOn R t t') (hloc : R loc) :
    t.node? loc = none ↔ t'.node? loc = none := by
  have hshown := h.shown loc hloc
  rw [← Option.map_eq_none_iff (f := t.shown), hshown, Option.map_eq_none_iff]

/-- The same directory made in both. -/
theorem put_dir (h : SameOn R t t') (mode : Mode) (hne : loc ≠ []) :
    SameOn R (t.put loc (.dir mode)) (t'.put loc (.dir mode)) where
  shown loc' hloc' := by
    by_cases heq : loc' = loc
    · rw [heq, node?_put_self _ _ hne, node?_put_self _ _ hne]
      rfl
    · rw [node?_put_of_ne _ _ heq, node?_put_of_ne _ _ heq]
      exact h.shown loc' hloc'
  oneFile loc₁ loc₂ h₁ h₂ := by
    by_cases heq₁ : loc₁ = loc
    · rw [OneFile, OneFile, heq₁, node?_put_self _ _ hne, node?_put_self _ _ hne]
      simp
    by_cases heq₂ : loc₂ = loc
    · rw [OneFile, OneFile, heq₂, node?_put_self _ _ hne, node?_put_self _ _ hne]
      simp
    rw [OneFile, OneFile, node?_put_of_ne _ _ heq₁, node?_put_of_ne _ _ heq₂,
      node?_put_of_ne _ _ heq₁, node?_put_of_ne _ _ heq₂]
    exact h.oneFile loc₁ loc₂ h₁ h₂

/-- The same directory removed from both. -/
theorem prune (h : SameOn R t t') (hne : loc ≠ []) :
    SameOn R (t.prune loc) (t'.prune loc) where
  shown loc' hloc' := by
    rw [node?_prune _ hne, node?_prune _ hne]
    split
    · rfl
    · exact h.shown loc' hloc'
  oneFile loc₁ loc₂ h₁ h₂ := by
    rw [OneFile, OneFile, node?_prune _ hne, node?_prune _ hne, node?_prune _ hne,
      node?_prune _ hne]
    by_cases hin₁ : isWithin loc loc₁ = true
    · simp [hin₁]
    by_cases hin₂ : isWithin loc loc₂ = true
    · simp [hin₂]
    rw [if_neg hin₁, if_neg hin₂, if_neg hin₁, if_neg hin₂]
    exact h.oneFile loc₁ loc₂ h₁ h₂

end SameOn

def Shown.emptied : Shown → Shown
  | .file mode _ => .file mode []
  | s => s

structure SameButContent (top : Location) (t t' : Tree) : Prop where
  elsewhere : ∀ loc, loc ≠ top → (t.node? loc).map t.shown = (t'.node? loc).map t'.shown
  there : ((t.node? top).map t.shown).map Shown.emptied =
    ((t'.node? top).map t'.shown).map Shown.emptied

theorem SameButContent.refl (top : Location) (t : Tree) : SameButContent top t t :=
  ⟨fun _ _ => rfl, rfl⟩

end LlvmBootstrap.Tree
