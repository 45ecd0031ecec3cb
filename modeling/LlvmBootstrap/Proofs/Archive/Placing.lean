import LlvmBootstrap.Proofs.Archive.HardLinks
import LlvmBootstrap.Proofs.Tree.Items

/-!
What unpacking one file or directory does to the tree: it comes to stand at its place, with
directories on the way there, and nothing else changes.
-/

namespace LlvmBootstrap

namespace Tree

/-- `t'` is `t` with more directories, all of them on the way down from `top` along `ns`. -/
structure DirsAlong (top : Location) (ns : List Name) (t t' : Tree) : Prop where
  newDirs : NewDirs t t'
  places : ∀ loc, t'.node? loc ≠ t.node? loc → ∃ rel, rel <+: ns ∧ loc = top ++ rel

variable {t t' t'' : Tree} {cwd top : Location} {dest p : Path} {ns ms : List Name}

namespace DirsAlong

theorem refl (top : Location) (ns : List Name) (t : Tree) : DirsAlong top ns t t :=
  ⟨.refl t, fun _ h => absurd rfl h⟩

theorem trans (h : DirsAlong top ns t t') (h' : DirsAlong top ns t' t'') :
    DirsAlong top ns t t'' := by
  refine ⟨h.newDirs.trans h'.newDirs, fun loc hne => ?_⟩
  by_cases heq : t'.node? loc = t.node? loc
  · exact h'.places loc fun heq' => hne (heq'.trans heq)
  · exact h.places loc heq

theorem longer (h : DirsAlong top ns t t') (hpre : ns <+: ms) : DirsAlong top ms t t' := by
  refine ⟨h.newDirs, fun loc hne => ?_⟩
  obtain ⟨rel, hrel, hloc⟩ := h.places loc hne
  exact ⟨rel, hrel.trans hpre, hloc⟩

theorem of_mkdir {mode : Mode} (h : Below t cwd top p ns)
    (happ : t.mkdir cwd p mode = .ok t') :
    DirsAlong top ns t t' := by
  refine ⟨newDirs_of_mkdir happ, fun loc hne => ?_⟩
  obtain ⟨-, rfl⟩ := h.eq_of_mkdir happ
  refine ⟨ns, List.prefix_rfl, ?_⟩
  by_contra hother
  exact hne (node?_put_of_ne t _ hother)

theorem along (h : DirsAlong top ns t t') {rel : List Name}
    (hne : t'.node? (top ++ rel) ≠ t.node? (top ++ rel)) : rel <+: ns := by
  obtain ⟨rel', hrel, hloc⟩ := h.places _ hne
  rwa [List.append_cancel_left hloc]

/-- Away from the way nothing shows. -/
theorem item?_eq (h : DirsAlong top ns t t') {rel : List Name} (hpre : ¬ rel <+: ns) :
    t'.item? (top ++ rel) = t.item? (top ++ rel) := by
  rcases h.newDirs.item? (top ++ rel) with hsame | ⟨hnone, hdir⟩
  · exact hsame
  · refine absurd (h.along fun heq => ?_) hpre
    rw [item?_eq_none_iff] at hnone
    obtain ⟨mode, hmode⟩ := item?_eq_dir_iff.mp hdir
    rw [hmode, hnone] at heq
    contradiction

end DirsAlong

/-- `it` has come to stand at the names `ns` below `top`, and directories on the way there;
nothing that stood there was in the way, and all else below `top` is as it was. -/
structure Placement (top : Location) (ns : List Name) (it : Item) (t t' : Tree) : Prop where
  placed : t'.item? (top ++ ns) = some it
  above : ∀ rel, rel ≠ [] → rel <+: ns → rel ≠ ns → t'.item? (top ++ rel) = some .dir
  others : ∀ rel, rel ≠ [] → ¬ rel <+: ns → t'.item? (top ++ rel) = t.item? (top ++ rel)
  /-- A file takes the place of whatever is not a directory, and a
  directory that of another one. -/
  replaces : ∀ it₀, t.item? (top ++ ns) = some it₀ → (it₀ = .dir ↔ it = .dir)
  replaces_above : ∀ rel it₀, rel ≠ [] → rel <+: ns → rel ≠ ns →
    t.item? (top ++ rel) = some it₀ → it₀ = .dir

/-- All that is on the way to something is a directory. -/
theorem Confined.dir_above {L : List Name → Path → Prop} {t₀ : Tree} {rel : List Name}
    (h : Confined L top t₀ t) (hn : t.node? (top ++ ns) ≠ none) (hpre : rel <+: ns)
    (hproper : rel ≠ ns) : t.item? (top ++ rel) = some .dir := by
  obtain ⟨rest, rfl⟩ := hpre
  induction rest using List.reverseRecOn with
  | nil => exact absurd (List.append_nil rel).symm hproper
  | append_singleton rest n ih =>
      rw [← List.append_assoc rel rest [n]] at hn
      obtain ⟨mode, hmode⟩ := h.closed (rel ++ rest ++ [n]) (by simp) hn
      rw [List.dropLast_concat] at hmode
      by_cases hrest : rest = []
      · rw [hrest, List.append_nil] at hmode
        exact item?_eq_dir_iff.mpr ⟨mode, hmode⟩
      · exact ih (by rw [hmode]; exact nofun) fun heq =>
          hrest (List.self_eq_append_right.mp heq)

/-- The directories above a place are made, and then something is made at the place. -/
theorem Placement.of_dirsAlong {L : List Name → Path → Prop} {t₀ : Tree} {it : Item}
    (hdirs : DirsAlong top ns.dropLast t t') (hne : ns ≠ [])
    (hchanged : ChangedAt top ns (some it) t' t'')
    (hreplaces : ∀ it₀, t'.item? (top ++ ns) = some it₀ → (it₀ = .dir ↔ it = .dir))
    (hc : Confined L top t₀ t'') : Placement top ns it t t'' := by
  have hplaced : t''.item? (top ++ ns) = some it := by rw [hchanged ns hne, if_pos rfl]
  have hthere : t''.node? (top ++ ns) ≠ none := by
    rw [ne_eq, ← item?_eq_none_iff, hplaced]
    exact nofun
  have hself : ¬ ns <+: ns.dropLast := fun hpre => by
    have hle := hpre.length_le
    have hpos := List.length_pos_iff.mpr hne
    rw [List.length_dropLast] at hle
    omega
  have habove : ∀ rel, rel ≠ [] → rel <+: ns → rel ≠ ns → t''.item? (top ++ rel) = some .dir :=
    fun rel _ hpre hproper => hc.dir_above hthere hpre hproper
  refine ⟨hplaced, habove, fun rel hrel hpre => ?_, ?_,
    fun rel it₀ hrel hpre hproper hit => ?_⟩
  · have hother : rel ≠ ns := fun heq => hpre (heq ▸ List.prefix_rfl)
    rw [hchanged rel hrel, if_neg hother]
    exact hdirs.item?_eq fun hpre' => hpre (hpre'.trans (List.dropLast_prefix ns))
  · rwa [← hdirs.item?_eq hself]
  · have hdir := habove rel hrel hpre hproper
    rw [hchanged rel hrel, if_neg hproper] at hdir
    rcases hdirs.newDirs.item? (top ++ rel) with hsame | ⟨hnone, -⟩
    · rw [hsame, hit] at hdir
      exact Option.some.inj hdir
    · rw [hnone] at hit
      contradiction

end Tree

namespace Program

open LlvmBootstrap.Tree

variable {σ : Type} {o : Outside σ} {w : World σ} {top : Location} {dest p : Path}
  {ns : List Name} {above : List Path}

def MadeAlong (top : Location) (ns : List Name) (w w' : World σ) : Prop :=
  w'.cwd = w.cwd ∧ DirsAlong top ns w.tree w'.tree

theorem throughout_makeDir_along (hb : Below w.tree w.cwd top p ns) :
    (makeDir p).run.Throughout o (fun _ _ => True) (fun _ => MadeAlong top ns w) w := by
  rw [makeDir]
  refine Throughout.attempt_change_bind trivial (fun t' happ => ?_) fun e _ => ?_
  · exact ⟨rfl, .of_mkdir hb happ⟩
  · exact throughout_unlessDir trivial fun _ _ => ⟨rfl, .refl ..⟩

theorem throughout_makeDirsFrom_along (ha : Path.Climbs dest ns above)
    (hp : Path.Extends dest ns p) (hr : Reaches w.tree w.cwd dest top)
    (hu : Unlinked w.tree top ns) :
    (makeDirsFrom p above).run.Throughout o (fun _ _ => True)
      (fun _ => MadeAlong top ns w) w := by
  induction ha generalizing p w with
  | first n above =>
      have hb : Below w.tree w.cwd top p [n] := hr.belowEntry hp
      cases above with
      | nil => exact throughout_makeDir_along hb
      | cons parent above =>
          rw [makeDirsFrom]
          refine Throughout.attempt_change_bind trivial (fun t' happ => ?_) fun e happ => ?_
          · exact ⟨rfl, .of_mkdir hb happ⟩
          · cases e with
            | notFound => exact absurd happ (hb.mkdir_ne_notFound (hp.last (by simp)).2 _)
            | _ => exact throughout_unlessDir trivial fun _ _ => ⟨rfl, .refl ..⟩
  | @more ns n q above hne hq rest ih =>
      have hpre : ns <+: ns ++ [n] := List.prefix_append ..
      have hb : Below w.tree w.cwd top p (ns ++ [n]) := hr.below hp (by simp) hu.dropLast
      rw [makeDirsFrom]
      refine Throughout.attempt_change_bind trivial (fun t' happ => ?_) fun e _ => ?_
      · exact ⟨rfl, .of_mkdir hb happ⟩
      · cases e with
        | notFound =>
            -- The directories above are made first, and then this one is tried again.
            refine Throughout.attempt_bind (ih hq hr (hu.of_prefix hpre)) ?_ fun _ _ h => ?_
            · rintro ⟨⟩ w' ⟨hcwd, hdirs⟩
              have hr' : Reaches w'.tree w'.cwd dest top :=
                hcwd ▸ hr.mono hdirs.newDirs.routesKept
              have hb' : Below w'.tree w'.cwd top p (ns ++ [n]) :=
                hr'.below hp (by simp) (hdirs.newDirs.unlinked hu).dropLast
              refine (throughout_makeDir_along hb').post fun _ w'' h => ?_
              exact ⟨h.1.trans hcwd, (hdirs.longer hpre).trans h.2⟩
            · exact ⟨h.1, h.2.longer hpre⟩
        | _ => exact throughout_unlessDir trivial fun _ _ => ⟨rfl, .refl ..⟩

/-- Making the directory `ns` below `dest`, which is there. -/
theorem throughout_makeDirs_along (hdest : dest.bytes ≠ []) (hplain : ∀ n ∈ ns, Path.IsPlain n)
    (hr : Reaches w.tree w.cwd dest top) (hu : Unlinked w.tree top ns) :
    (makeDirs (dest / Path.ofNames ns)).run.Throughout o (fun _ _ => True)
      (fun _ => MadeAlong top ns w) w := by
  have hext := Path.extends_ofNames dest hplain
  by_cases hne : ns = []
  · subst hne
    have hthere : Reaches w.tree w.cwd (dest / Path.ofNames []) top :=
      Archive.reaches_top hr hext
    refine (throughout_makeDirs_of_reaches hthere fun _ _ => trivial).post fun _ w' h => ?_
    rw [h]
    exact ⟨rfl, .refl ..⟩
  · have habs := Path.isAbsolute_ofNames hplain
    rw [makeDirs, if_neg (Path.components_ne_nil (Path.join_ne_nil hdest habs))]
    exact throughout_makeDirsFrom_along (climbs_ancestors hdest hne hplain) hext hr hu

end Program

namespace Archive

open LlvmBootstrap.Tree Program Tar

variable {σ : Type} {o : Outside σ} {L : List Name → Path → Prop} {t₀ t t' : Tree}
  {cwd top : Location} {dest root p : Path} {w w' : World σ} {ns : List Name} {m : Member}
  {tr : List Answered} {content : Bytes}

/-! ### What is made at a place -/

def itemOf (m : Member) : Item := if m.kind = .directory then .dir else .file m.content

theorem unlinked_of_changedAt {it : Item} (h : ChangedAt top ns (some it) t t')
    (hu : Unlinked t top ns) (hit : ∀ target, it ≠ .link target) : Unlinked t' top ns := by
  intro pre hpre hne target ht
  rw [← item?_eq_link_iff, h pre hne] at ht
  split at ht
  · exact hit target (Option.some.inj ht)
  · exact hu pre hpre hne target (item?_eq_link_iff.mp ht)

/-- Success told as success of the sources. -/
theorem goes_of_orFail {α : Type} {x : Attempt Errno α} {a : α}
    (h : (orFail x).run.Goes o w (.ok a) tr w') : x.run.Goes o w (.ok a) tr w' := by
  rw [orFail, run_adapt] at h
  obtain ⟨res, w₁, tr₁, tr₂, hx, hrest, rfl⟩ := h.of_bind
  obtain ⟨heq, rfl, rfl⟩ := hrest.of_pure
  cases res with
  | error e => contradiction
  | ok b =>
      obtain rfl := Except.ok.inj heq
      rwa [List.append_nil]

/-- A file is made in place of whatever stood there, which was no directory. -/
theorem placed_of_replacing (hw : Inside L t₀ cwd top w) (he : EmptyDir t₀ cwd dest top)
    (hc : Clear w.tree top dest p ns)
    (hgoes : (replacing p (.create p content)).run.Goes o w (.ok ()) tr w') :
    Inside L t₀ cwd top w' ∧ w.tree.item? (top ++ ns) ≠ some .dir ∧
      ChangedAt top ns (some (.file content)) w.tree w'.tree := by
  have hs := shelter_inside (σ := σ) (L := L) he
  have hcreate : ∀ {w₁ : World σ} {t' : Tree}, Inside L t₀ cwd top w₁ →
      Clear w₁.tree top dest p ns →
      w₁.tree.createNew w₁.cwd p content = .ok t' →
      Inside L t₀ cwd top { w₁ with tree := t' } ∧ w₁.tree.item? (top ++ ns) = none ∧
        ChangedAt top ns (some (.file content)) w₁.tree t' := fun hw₁ hc₁ happ =>
    ⟨hs.change hw₁ (.create hc₁ content) happ,
      changedAt_of_createNew hw₁.confined (hc₁.below (hs.reaches hw₁)) happ⟩
  have hrun : (replacing p (.create p content)).run.Throughout o (fun _ _ => True)
      (fun res w' => res = .ok () → Inside L t₀ cwd top w' ∧
        w.tree.item? (top ++ ns) ≠ some .dir ∧
        ChangedAt top ns (some (.file content)) w.tree w'.tree) w := by
    have hagain : (change (.create p content)).run.Throughout o (fun _ _ => True)
        (fun res w' => res = .ok () → Inside L t₀ cwd top w' ∧
          w.tree.item? (top ++ ns) ≠ some .dir ∧
          ChangedAt top ns (some (.file content)) w.tree w'.tree) w := by
      refine Throughout.change_bind trivial (fun t' happ _ => ?_) fun e _ => nofun
      obtain ⟨hI, hnone, hchanged⟩ := hcreate hw hc happ
      exact ⟨hI, by rw [hnone]; exact nofun, hchanged⟩
    refine Throughout.attempt_change_bind trivial (fun t' happ _ => ?_) fun e _ => ?_
    · obtain ⟨hI, hnone, hchanged⟩ := hcreate hw hc happ
      exact ⟨hI, by rw [hnone]; exact nofun, hchanged⟩
    · cases e with
      | «exists» =>
          -- What is in the way is removed; a directory would not be.
          refine Throughout.attempt_change_bind trivial (fun t₁ hgone => ?_) fun e' _ => ?_
          · obtain ⟨hnot, hremoved⟩ := changedAt_of_unlink (hc.below (hs.reaches hw)) hgone
            refine Throughout.change_bind trivial (fun t₂ happ _ => ?_) fun e _ => nofun
            obtain ⟨hI, -, hchanged⟩ := hcreate (hs.change hw (.unlink hc) hgone)
              ((noNewLinks_of_unlink hgone).clear hc) happ
            exact ⟨hI, hnot, hremoved.trans hchanged⟩
          · cases e' with
            | notFound => exact hagain
            | _ => exact nofun
      | _ => exact nofun
  exact hgoes.at_end hrun rfl

/-- A directory is made, or there is one. -/
theorem placed_of_makeMemberDir (hw : Inside L t₀ cwd top w) (he : EmptyDir t₀ cwd dest top)
    (hc : Clear w.tree top dest p ns) (hgoes : (makeMemberDir p).run.Goes o w (.ok ()) tr w') :
    Inside L t₀ cwd top w' ∧ (∀ it, w.tree.item? (top ++ ns) = some it → it = .dir) ∧
      ChangedAt top ns (some .dir) w.tree w'.tree := by
  have hs := shelter_inside (σ := σ) (L := L) he
  have hb : Below w.tree w.cwd top p ns := hc.below (hs.reaches hw)
  have hrun : (makeMemberDir p).run.Throughout o (fun _ _ => True)
      (fun res w' => res = .ok () → Inside L t₀ cwd top w' ∧
        (∀ it, w.tree.item? (top ++ ns) = some it → it = .dir) ∧
        ChangedAt top ns (some .dir) w.tree w'.tree) w := by
    refine Throughout.attempt_change_bind trivial (fun t' happ _ => ?_) fun e _ => ?_
    · obtain ⟨hnone, hchanged⟩ := changedAt_of_mkdir hb happ
      exact ⟨hs.change hw (.mkdir hc) happ, by simp [hnone], hchanged⟩
    · -- What is there already does if it is a directory, and then nothing has changed.
      cases e with
      | «exists» =>
          refine Throughout.attempt_call_bind_iff.mpr ⟨trivial, ?_⟩
          rw [World.perform, hb.lookup_false]
          cases ha : w.tree.arrive top p ns with
          | error e => rintro ⟨⟩
          | ok found =>
              rcases found with _ | mode | id | target
              · rintro ⟨⟩
              · intro _
                have hdir : w.tree.item? (top ++ ns) = some .dir :=
                  item?_eq_dir_iff.mpr ⟨mode, node?_of_arrive hb.ne_nil ha⟩
                exact ⟨hw, fun it hit => Option.some.inj (hit.symm.trans hdir), .self hdir⟩
              · rintro ⟨⟩
              · rintro ⟨⟩
      | _ => rintro ⟨⟩
  exact hgoes.at_end hrun rfl

theorem item?_of_setMode (hb : Below w.tree w.cwd top p ns) (hu : Unlinked w.tree top ns)
    (hgoes : (setMode m p).run.Goes o w (.ok ()) tr w') (loc : Location) :
    w'.tree.item? loc = w.tree.item? loc := by
  have hrun : (setMode m p).run.Throughout o (fun _ _ => True)
      (fun _ w' => w'.tree.item? loc = w.tree.item? loc) w := by
    rw [setMode]
    split
    · refine Throughout.change_bind trivial (fun t' happ => ?_) fun _ _ => rfl
      exact item?_of_chmod hb (hu.last hb.ne_nil) happ loc
    · exact rfl
  exact hgoes.at_end hrun

theorem placed_of_makeMember (hw : Inside L t₀ cwd top w) (he : EmptyDir t₀ cwd dest top)
    (hc : Clear w.tree top dest p ns) (hu : Unlinked w.tree top ns)
    (hk : m.kind = .file ∨ m.kind = .directory)
    (hgoes : (makeMember m p).run.Goes o w (.ok ()) tr w') :
    (∀ it, w.tree.item? (top ++ ns) = some it → (it = .dir ↔ itemOf m = .dir)) ∧
      ChangedAt top ns (some (itemOf m)) w.tree w'.tree := by
  have hs := shelter_inside (σ := σ) (L := L) he
  -- The mode is set last. That changes no item.
  have hmode : ∀ {w₁ : World σ} {tr₁ : List Answered}, Inside L t₀ cwd top w₁ →
      ChangedAt top ns (some (itemOf m)) w.tree w₁.tree → (∀ target, itemOf m ≠ .link target) →
      (setMode m p).run.Goes o w₁ (.ok ()) tr₁ w' →
      ChangedAt top ns (some (itemOf m)) w.tree w'.tree := by
    intro w₁ tr₁ hw₁ hchanged hit hset
    have hu₁ := unlinked_of_changedAt hchanged hu hit
    have hc₁ : Clear w₁.tree top dest p ns := ⟨hc.names, hc.ne_nil, hu₁.dropLast⟩
    exact hchanged.of_same (item?_of_setMode (hc₁.below (hs.reaches hw₁)) hu₁ hset)
  rcases hk with hk | hk
  · have hitem : itemOf m = .file m.content := if_neg (by rw [hk]; decide)
    simp only [makeMember, hk] at hgoes
    rcases hgoes.of_attempt_bind with ⟨e, heq, -⟩ | ⟨⟨⟩, w₁, tr₁, tr₂, hcreate, hrest, -⟩
    · contradiction
    · obtain ⟨hw₁, hnot, hchanged⟩ := placed_of_replacing hw he hc (goes_of_orFail hcreate)
      rw [hitem] at hmode ⊢
      refine ⟨fun it hit => ⟨fun hdir => absurd (hdir ▸ hit) hnot, fun h => by cases h⟩, ?_⟩
      cases hwhole : m.isWhole with
      | false =>
          simp only [hwhole, Bool.not_false, if_true] at hrest
          cases hrest.of_pure.1
      | true =>
          simp only [hwhole, Bool.not_true, Bool.false_eq_true, if_false] at hrest
          exact hmode hw₁ hchanged (by simp) (goes_of_orFail hrest)
  · have hitem : itemOf m = .dir := if_pos hk
    simp only [makeMember, hk] at hgoes
    rcases (goes_of_orFail hgoes).of_attempt_bind with ⟨e, heq, -⟩ | ⟨⟨⟩, w₁, tr₁, tr₂,
      hdir, hrest, -⟩
    · contradiction
    · obtain ⟨hw₁, hdirs, hchanged⟩ := placed_of_makeMemberDir hw he hc hdir
      rw [hitem] at hmode ⊢
      exact ⟨fun it hit => ⟨fun _ => rfl, fun _ => hdirs it hit⟩,
        hmode hw₁ hchanged (by simp) hrest⟩

end Archive

end LlvmBootstrap
