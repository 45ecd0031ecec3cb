import LlvmBootstrap.Proofs.Tree.Closed
import LlvmBootstrap.Proofs.Tree.Confined

/-!
A directory with one more entry, which something is made in: while it is there nothing else is
different, it can be removed without a trace, and it can be moved as a whole to another name in
the directory.
-/

namespace LlvmBootstrap.Tree

/-- Everything in `t` is in the same place in `t'`, and nothing else;
its files are the same. -/
structure Kept (t t' : Tree) : Prop where
  nodes : ∀ loc, t'.node? loc = t.node? loc
  bodies : ∀ id b, t.body? id = some b → t'.body? id = some b

theorem Kept.refl (t : Tree) : Kept t t := ⟨fun _ => rfl, fun _ _ h => h⟩

theorem Kept.routesKept {t t' : Tree} (h : Kept t t') : RoutesKept t t' :=
  ⟨fun loc mode hm => ⟨mode, (h.nodes loc).trans hm⟩, fun loc _ ht => (h.nodes loc).trans ht⟩

/-- The same the other way round, for ways take no notice of files. -/
theorem Kept.routesKept_symm {t t' : Tree} (h : Kept t t') : RoutesKept t' t :=
  ⟨fun loc mode hm => ⟨mode, (h.nodes loc).symm.trans hm⟩,
    fun loc _ ht => (h.nodes loc).symm.trans ht⟩

/-- `t'` is `t` with more below the directory `top`, all of it at its
entry `x`, which is new. -/
structure Beside (top : Location) (x : Name) (t t' : Tree) : Prop where
  vacant : t.node? (top ++ [x]) = none
  nodes : ∀ loc, isWithin (top ++ [x]) loc = false → t'.node? loc = t.node? loc
  bodies : ∀ id b, t.body? id = some b → t'.body? id = some b

/-- `t''` is `t` with what stands at the entry `x` of `top` in `t'` as its entry `m`. -/
structure Placed (top : Location) (x m : Name) (t t' t'' : Tree) : Prop where
  nodes : ∀ loc, isWithin (top ++ [m]) loc = false → t''.node? loc = t.node? loc
  entry : ∀ rel, t''.node? (top ++ m :: rel) = t'.node? (top ++ x :: rel)
  bodies : t''.bodies = t'.bodies

variable {L : List Name → Path → Prop} {t t' t'' : Tree} {top loc : Location}
  {x m : Name} {mode : Mode}

theorem not_isWithin_of_node? (hc : t.Closed) (hn : t.node? (top ++ [x]) = none)
    (hloc : t.node? loc ≠ none) : isWithin (top ++ [x]) loc = false := by
  rw [isWithin_eq_false_iff]
  rintro rel rfl
  by_cases hne : rel = []
  · subst hne
    rw [List.append_nil] at hloc
    exact hloc hn
  · exact hloc (hc.node?_below (by simp [hn]) hne)

/-- What is made below a directory stands in directories. -/
theorem Confined.isClosed (h : Confined L top t t') (hc : t.Closed) : t'.Closed := by
  intro dir n hn
  by_cases hin : ∃ rel, rel ≠ [] ∧ dir ++ [n] = top ++ rel
  · obtain ⟨rel, hne, heq⟩ := hin
    obtain ⟨mode, hm⟩ := h.closed rel hne (heq ▸ hn)
    rw [← List.dropLast_concat_getLast hne, ← List.append_assoc] at heq
    obtain ⟨rfl, -⟩ := List.append_inj' heq rfl
    exact ⟨mode, hm⟩
  · have hout : ∀ rel, rel ≠ [] → dir ++ [n] ≠ top ++ rel :=
      fun rel hne heq => hin ⟨rel, hne, heq⟩
    rw [h.outside _ hout] at hn
    obtain ⟨mode, hm⟩ := hc dir n hn
    refine ⟨mode, (h.outside dir fun rel hne heq => ?_).trans hm⟩
    refine hout (rel ++ [n]) (by simp) ?_
    rw [heq, List.append_assoc]

namespace Beside

theorem routesKept (hc : t.Closed) (h : Beside top x t t') : RoutesKept t t' := by
  have hsame : ∀ loc, t.node? loc ≠ none → t'.node? loc = t.node? loc := fun loc hloc =>
    h.nodes loc (not_isWithin_of_node? hc h.vacant hloc)
  refine ⟨fun loc mode hm => ⟨mode, ?_⟩, fun loc target ht => ?_⟩
  · rw [hsame loc (by simp [hm]), hm]
  · rw [hsame loc (by simp [ht]), ht]

theorem node?_other (h : Beside top x t t') (hne : m ≠ x) (rel : List Name) :
    t'.node? (top ++ m :: rel) = t.node? (top ++ m :: rel) :=
  h.nodes _ (isWithin_sibling hne.symm)

/-- A new directory by itself. -/
theorem of_put (hn : t.node? (top ++ [x]) = none) :
    Beside top x t (t.put (top ++ [x]) (.dir mode)) := by
  refine ⟨hn, fun loc hloc => node?_put_of_ne _ _ ?_, fun _ _ hb => hb⟩
  rintro rfl
  rw [isWithin_self] at hloc
  contradiction

/-- What is made in a new directory. -/
theorem of_confined (hn : t.node? (top ++ [x]) = none)
    (h : Confined L (top ++ [x]) (t.put (top ++ [x]) (.dir mode)) t') : Beside top x t t' := by
  refine ⟨hn, fun loc hloc => ?_, fun id b hb => ?_⟩
  · rw [h.outside loc]
    · exact (of_put hn).nodes loc hloc
    rintro rel - rfl
    rw [isWithin_append] at hloc
    contradiction
  · obtain ⟨hlt, -⟩ := List.getElem?_eq_some_iff.mp hb
    exact (h.bodies id hlt).trans hb

theorem kept_prune (hc : t.Closed) (h : Beside top x t t') :
    Kept t (t'.prune (top ++ [x])) := by
  refine ⟨fun loc => ?_, h.bodies⟩
  rw [node?_prune _ (by simp)]
  by_cases hw : isWithin (top ++ [x]) loc = true
  · rw [if_pos hw]
    by_contra hne
    rw [not_isWithin_of_node? hc h.vacant (Ne.symm hne)] at hw
    contradiction
  · rw [if_neg hw]
    exact h.nodes loc (Bool.not_eq_true _ ▸ hw)

theorem placed_move (hc : t.Closed) (h : Beside top x t t') :
    Placed top x m t t' (t'.move (top ++ [x]) (top ++ [m])) := by
  refine ⟨fun loc hloc => ?_, fun rel => ?_, rfl⟩
  · rw [node?_move _ (by simp) (by simp), hloc]
    simp only [Bool.false_eq_true, if_false]
    rw [← node?_prune _ (by simp)]
    exact (h.kept_prune hc).nodes loc
  · have heq : top ++ m :: rel = top ++ [m] ++ rel := by simp
    rw [node?_move _ (by simp) (by simp), heq, isWithin_append, if_pos rfl, List.drop_left]
    simp

end Beside

/-- What is put in place stands in directories. -/
theorem Placed.isClosed (h : Placed top x m t t' t'') (hc : t.Closed) (hc' : t'.Closed)
    (hd : ∃ mode, t.node? top = some (.dir mode)) : t''.Closed := by
  intro dir n hn
  -- What has been put there stands as it stood before, and all else
  -- stands as it stood in the first tree.
  by_cases hin : isWithin (top ++ [m]) (dir ++ [n]) = true
  · obtain ⟨rel, heq⟩ := isWithin_iff.mp hin
    by_cases hne : rel = []
    · rw [hne, List.append_nil] at heq
      obtain ⟨rfl, -⟩ := List.append_inj' heq rfl
      obtain ⟨mode, hm⟩ := hd
      exact ⟨mode, (h.nodes dir (not_isWithin_entry dir m)).trans hm⟩
    · have hlast := List.dropLast_concat_getLast hne
      have hdir : dir = top ++ m :: rel.dropLast := by
        rw [← hlast, ← List.append_assoc] at heq
        rw [(List.append_inj' heq rfl).1, List.append_assoc]
        rfl
      rw [heq, List.append_assoc, List.singleton_append, h.entry] at hn
      rw [← hlast, ← List.cons_append, ← List.append_assoc] at hn
      rw [hdir, h.entry]
      exact hc' _ _ hn
  · have hout : isWithin (top ++ [m]) dir = false := by
      rw [← Bool.not_eq_true]
      exact fun hw => hin (isWithin_trans hw (isWithin_append ..))
    rw [h.nodes _ (Bool.not_eq_true _ ▸ hin)] at hn
    obtain ⟨mode, hm⟩ := hc dir n hn
    exact ⟨mode, (h.nodes dir hout).trans hm⟩

/-- No way is lost if the entry was missing or an empty directory before. -/
theorem Placed.routesKept (h : Placed top x m t t' t'') (hc : t.Closed)
    (hdir : t'.node? (top ++ [x]) = some (.dir mode))
    (hold : t.node? (top ++ [m]) = none ∨
      (∃ mode, t.node? (top ++ [m]) = some (.dir mode)) ∧
        t.isVacantBelow (top ++ [m]) = true) :
    RoutesKept t t'' := by
  -- Nothing stood below the place, so all that is on a route but the
  -- place itself is where it was.
  have hother : ∀ loc, t.node? loc ≠ none → loc ≠ top ++ [m] →
      t''.node? loc = t.node? loc := by
    intro loc hloc hne
    refine h.nodes loc ?_
    rw [isWithin_eq_false_iff]
    rintro rel rfl
    have hrel : rel ≠ [] := by
      rintro rfl
      exact hne (List.append_nil _)
    rcases hold with hnone | ⟨-, hv⟩
    · exact hloc (hc.node?_below (by simp [hnone]) hrel)
    · exact hloc (isVacantBelow_iff.mp hv rel hrel)
  refine ⟨fun loc mode' hm => ?_, fun loc target ht => ?_⟩
  · by_cases heq : loc = top ++ [m]
    · exact ⟨mode, by rw [heq, h.entry [], hdir]⟩
    · exact ⟨mode', by rw [hother loc (by simp [hm]) heq, hm]⟩
  · have heq : loc ≠ top ++ [m] := by
      rintro rfl
      rcases hold with hnone | ⟨⟨mode', hm'⟩, -⟩
      · rw [hnone] at ht
        contradiction
      · simp [hm'] at ht
    rw [hother loc (by simp [ht]) heq, ht]

/-- A directory is moved to an entry only if nothing is there or an empty directory is, unless
it stays where it is. The files are the same. -/
theorem free_of_renameDir {cwd : Location} {src p : Path} {n : Name} (hc : t.Closed)
    (hp : Below t cwd top p [n]) (h : t.renameDir cwd src p = .ok t') :
    t'.bodies = t.bodies ∧ (t' = t ∨
      (∀ node, t.node? (top ++ [n]) = some node → ∃ mode, node = .dir mode) ∧
        t.isVacantBelow (top ++ [n]) = true) := by
  unfold renameDir at h
  rw [hp.trimSlashes_eq, hp.resolve_false] at h
  cases hl : t.lookup cwd false src with
  | error e =>
      rw [hl] at h
      contradiction
  | ok found =>
      obtain ⟨srcLoc, node⟩ := found
      rw [hl] at h
      cases node with
      | file id => contradiction
      | link target => contradiction
      | dir mode =>
          cases ha : t.arrive top p [n] with
          | error e =>
              rw [ha] at h
              contradiction
          | ok found =>
              rw [ha] at h
              have hnode := node?_of_arrive (List.cons_ne_nil _ _) ha
              rw [hnode]
              -- At the new place there is nothing, or a directory
              -- that may be the source itself.
              cases found with
              | none =>
                  change (if _ then _ else Except.ok _) = _ at h
                  split at h
                  · contradiction
                  · obtain rfl := Except.ok.inj h
                    exact ⟨rfl, .inr ⟨nofun, hc.isVacantBelow hnode⟩⟩
              | some node =>
                  cases node with
                  | file id => contradiction
                  | link target => contradiction
                  | dir mode' =>
                      change (if _ then Except.ok _ else _) = _ at h
                      split at h
                      · exact ⟨by rw [← Except.ok.inj h], .inl (Except.ok.inj h).symm⟩
                      · split at h
                        · contradiction
                        · change (if _ then _ else _) = _ at h
                          split at h
                          · contradiction
                          · rename_i hv
                            change Except.ok _ = _ at h
                            obtain rfl := Except.ok.inj h
                            refine ⟨rfl, .inr ⟨?_, by simpa using hv⟩⟩
                            rintro _ ⟨⟩
                            exact ⟨_, rfl⟩
end LlvmBootstrap.Tree
