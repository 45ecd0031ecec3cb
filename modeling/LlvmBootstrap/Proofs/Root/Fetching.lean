import LlvmBootstrap.Proofs.Root.Building
import LlvmBootstrap.Proofs.Sources.Course

/-!
Fetching the sources in a tidy root. While the sources are missing the root has no stage in it,
and it has none until the move that puts the sources in their place, whatever else the fetch
makes there.
-/

namespace LlvmBootstrap

open Archive LlvmBootstrap.Tree Program Sources

namespace Root

variable {σ : Type} {r : Root} {m w w' : World σ} {top : Location} {s : Stage} {o : Outside σ}
  {a : SourceArchive} {k : Nat}

/-- Nothing is done before the sources are there. -/
theorem not_has_of_not_fetched (hw : Tidy r m top w)
    (h : ¬ Has top .fetch w.tree) (s : Stage) :
    ¬ Has top s w.tree := by
  cases s with
  | fetch => exact h
  | configure a => exact fun hs => h (hw.order _ _ (.configure a) hs)
  | install a => exact fun hs => h (hw.order _ _ (.configure a) (hw.order _ _ (.install a) hs))

theorem node?_marker_of_before (hb : Bare r m top) (hw : Tidy r m top w)
    (h : Before o r w w w') (s : Stage) :
    w'.tree.node? (top ++ [markerName s]) = w.tree.node? (top ++ [markerName s]) := by
  rcases h with ⟨⟨hcwd, hgrown⟩, -, hgrown'⟩ | ⟨top', x, hr, hdrawn, -, hbeside⟩
  · rw [hcwd] at hgrown'
    exact hgrown.node?_between hgrown' rfl
  · obtain rfl := hr.unique (hw.reaches hb)
    obtain ⟨n, rfl⟩ := hdrawn.drawn
    exact hbeside.node?_other (markerName_ne_stagingName s _) []

theorem has_iff_of_after (hb : Bare r m top) (hw : Tidy r m top w) {top' : Location}
    (h : After o a r w top' k w') :
    SameBut top .fetch w.tree w'.tree ∧ Has top .fetch w'.tree := by
  obtain rfl := h.root.unique (hw.reaches hb)
  refine ⟨fun s hne => has_congr (h.nodes _ (isWithin_sibling ?_)), h.dir⟩
  exact markerName_ne hne.symm

theorem tidy_of_after (hb : Bare r m top) (hw : Tidy r m top w) {top' : Location}
    (h : After o a r w top' k w') : Tidy r m top w' := by
  obtain ⟨hothers, hmade⟩ := has_iff_of_after hb hw h
  obtain rfl := h.root.unique (hw.reaches hb)
  refine hw.update h.cwd h.closed h.nodes (fun node hn => ?_) ?_
  · obtain ⟨mode, hm⟩ := hmade
    obtain rfl := Option.some.inj (hm.symm.trans hn)
    have hmarker : (r.marker .fetch).refusal? = none := (isDir_iff.mp h.isDir).1
    exact .marker hmarker
  · exact hw.order_of_made hothers hmade nofun

theorem progress_of_fetches (hb : Bare r m top) (hw : Tidy r m top w)
    (hnot : ¬ Has top .fetch w.tree) {w₁ : World σ} {c : Call} (h : Fetches o a r w w w₁ c) :
    Progress r top w₁.tree [⟨c, (w₁.perform o c).1⟩] (w₁.perform o c).2.tree := by
  -- Until the move no stage is there, since each needs the sources.
  have hnone : ∀ {w'}, Before o r w w w' → ∀ s, ¬ Has top s w'.tree := by
    intro w' hbefore s hs
    exact not_has_of_not_fetched hw hnot s
      ((has_congr (node?_marker_of_before hb hw hbefore s)).mp hs)
  cases h with
  | aside hbefore hc _ hnext =>
      refine .of_call (fun s _ => hnone hbefore s) fun s => ?_
      refine iff_of_false (hnone hnext s) (not_or.mpr ⟨hnone hbefore s, fun hdone => ?_⟩)
      cases hdone.serves with
      | send url => nomatch hdone
      | move staging => exact hc.2 _ _ rfl
      | configure hb a vars => exact hc.1 _ _ rfl
      | install hb a vars => exact hc.1 _ _ rfl
  | @move staging _ hbefore _ _ _ hnext =>
      generalize w₁.perform o (.change (.renameDir staging r.sources)) = res at hnext ⊢
      refine .of_call (fun s _ => hnone hbefore s) fun s => ?_
      cases hnext with
      | done hafter =>
          obtain ⟨hothers, hmade⟩ := has_iff_of_after hb hw hafter
          by_cases hs : s = .fetch
          · subst hs
            exact iff_of_true hmade (.inr (.move staging))
          · refine iff_of_false (fun h => hnone hbefore s ?_)
              (not_or.mpr ⟨hnone hbefore s, ?_⟩)
            · exact absurd ((hothers s hs).mp h) (not_has_of_not_fetched hw hnot s)
            · rintro ⟨⟩
              exact hs rfl
      | refused hnext =>
          refine iff_of_false (hnone hnext s) (not_or.mpr ⟨hnone hbefore s, ?_⟩)
          rintro ⟨⟩
  | log hafter =>
      refine .of_quiet (fun x hx s => ?_) fun _ => Iff.rfl
      rw [List.mem_singleton.mp hx]
      rintro ⟨⟩
  | removeAll hafter hnext =>
      rw [hnext]
      refine .of_quiet (fun x hx s => ?_) fun _ => Iff.rfl
      rw [List.mem_singleton.mp hx]
      rintro ⟨⟩

/-- Fetching the sources. If it succeeds, they are there. -/
theorem advances_fetch (hb : Bare r m top) (hw : Tidy r m top w) (hd : o.DrawsPlain)
    (a : SourceArchive) :
    Advances r m top o (fun res w' => ∀ f, res = .ok f → Has top .fetch w'.tree)
      (fetch a r r.record).run w := by
  have hdir : w.tree.isDir w.cwd (r.marker .fetch) = true ↔ _ := hw.isDir_marker_iff hb
  -- With nothing to fetch, or no format to unpack, the record is all that is looked at.
  by_cases hidle : Has top .fetch w.tree ∨ Format.ofUrl? a.url = none
  · rw [fetch]
    refine Advances.attempt_lift_bind (run_marker hb hw .fetch) ?_
    rintro done w₁ hw₁ ⟨hdone, hsame⟩
    cases done with
    | true =>
        refine Advances.attempt_passive_bind hw₁ trivial fun hw₂ hsame₂ => ?_
        exact .done hw₂ fun _ _ => (hsame₂ _).mpr ((hsame _).mpr (hdone.mp rfl))
    | false =>
        have hformat := hidle.resolve_left fun h => absurd (hdone.mpr h) (by simp)
        simp only [Bool.false_eq_true, if_false]
        rw [hformat]
        exact .done hw₁ fun _ => (by simp)
  · obtain ⟨hnot, hformat⟩ := not_or.mp hidle
    obtain ⟨format, hformat⟩ := Option.ne_none_iff_exists'.mp hformat
    have hinc : w.tree.isDir w.cwd r.sources = false := by
      rw [← Bool.not_eq_true]
      exact fun h => hnot (hdir.mp h)
    have hmade : ((makeDirs r.path).run.run o w).2 = w :=
      (throughout_makeDirs_of_reaches (C := fun _ _ => True)
        (hw.reaches hb) fun _ _ => trivial).at_end
    have hrun := throughout_fetch (o := o) (hw.isSound hb) hd hinc hformat hmade
    refine (Progress.of_throughout hrun fun w₁ c => progress_of_fetches hb hw hnot).post ?_
    rintro (e | ⟨⟩ | k) tr w' ⟨hprogress, hend⟩
    · obtain ⟨-, hcwd, hkept⟩ := hend
      exact ⟨hw.congr hkept.nodes hcwd, hprogress, by simp⟩
    · exact hend.elim
    · obtain ⟨top', hafter⟩ := hend
      exact ⟨tidy_of_after hb hw hafter, hprogress,
        fun _ _ => (has_iff_of_after hb hw hafter).2⟩

end Root

end LlvmBootstrap
