import LlvmBootstrap.Proofs.Tree.Closed
import LlvmBootstrap.Proofs.Tree.Visits

/-!
Where a path leads depends on the places that its walk goes through alone. What is visited from
an entry of a directory that is a link on the way is visited on the way as well.
-/

namespace LlvmBootstrap.Tree

variable {t t' t'' : Tree} {links links' k : Nat} {cur loc top : Location} {n : Name}
  {cs cs' : List Component} {target : Path} {s : Spot}

def SameAt (t t' : Tree) (loc : Location) : Prop :=
  t'.node? loc = t.node? loc ∨
    ∃ mode mode', t.node? loc = some (.dir mode) ∧ t'.node? loc = some (.dir mode')

theorem SameAt.refl (t : Tree) (loc : Location) : SameAt t t loc := .inl rfl

theorem SameAt.dir {mode : Mode} (h : SameAt t t' loc) (hn : t.node? loc = some (.dir mode)) :
    ∃ mode', t'.node? loc = some (.dir mode') := by
  rcases h with h | ⟨-, mode', -, h⟩
  · exact ⟨mode, h.trans hn⟩
  · exact ⟨mode', h⟩

theorem SameAt.node?_eq {found : Option Node} (h : SameAt t t' loc) (hn : t.node? loc = found)
    (hne : ∀ mode, found ≠ some (.dir mode)) : t'.node? loc = found := by
  rcases h with h | ⟨mode, -, hm, -⟩
  · exact h.trans hn
  · exact absurd (hn.symm.trans hm) (hne mode)

theorem SameAt.symm (h : SameAt t t' loc) : SameAt t' t loc := by
  rcases h with h | ⟨mode, mode', hm, hm'⟩
  · exact .inl h.symm
  · exact .inr ⟨mode', mode, hm', hm⟩

theorem SameAt.trans (h : SameAt t t' loc) (h' : SameAt t' t'' loc) : SameAt t t'' loc := by
  rcases h with h | ⟨mode, mode', hm, hm'⟩
  · rcases h' with h' | ⟨mode, mode', hm, hm'⟩
    · exact .inl (h'.trans h)
    · exact .inr ⟨mode, mode', h.symm.trans hm, hm'⟩
  · obtain ⟨mode'', hm''⟩ := h'.dir hm'
    exact .inr ⟨mode, mode'', hm, hm''⟩

def SameEnd (r r' : Except Errno Spot) : Prop :=
  r' = r ∨ ∃ loc mode mode', r = .ok (.found loc (.dir mode)) ∧
    r' = .ok (.found loc (.dir mode'))

/-- A walk goes the same way in another tree that is the same where the walk goes through. -/
theorem walk_sameAt (h : ∀ loc ∈ visits t links cur cs, SameAt t t' loc)
    (hd : ∃ mode, t.node? cur = some (.dir mode)) (hc : t.Closed) :
    SameEnd (walk t true links cur cs) (walk t' true links cur cs) ∧
      visits t' links cur cs = visits t links cur cs := by
  -- Along the places that are visited, each of which is the same in both
  -- trees as far as a walk can tell.
  fun_induction visits t links cur cs with
  | case1 links cur =>
      rw [visits]
      obtain ⟨mode, hm⟩ := hd
      obtain ⟨mode', hm'⟩ := (h cur (List.mem_singleton.mpr rfl)).dir hm
      refine ⟨.inr ⟨cur, mode, mode', ?_, ?_⟩, rfl⟩
      · rw [walk, hm, Option.getD_some]
      · rw [walk, hm', Option.getD_some]
  | case2 links cur cs ih =>
      rw [walk, walk, visits]
      obtain ⟨hend, hvisits⟩ :=
        ih (fun loc hl => h loc (List.mem_cons_of_mem _ hl)) ⟨_, node?_nil t⟩
      exact ⟨hend, by rw [hvisits]⟩
  | case3 links cur cs ih =>
      rw [walk, walk, visits]
      obtain ⟨hend, hvisits⟩ := ih (fun loc hl => h loc (List.mem_cons_of_mem _ hl)) hd
      exact ⟨hend, by rw [hvisits]⟩
  | case4 links cur cs ih =>
      rw [walk, walk, visits]
      obtain ⟨hend, hvisits⟩ :=
        ih (fun loc hl => h loc (List.mem_cons_of_mem _ hl)) (hc.dropLast hd)
      exact ⟨hend, by rw [hvisits]⟩
  | case5 links cur n cs hlong =>
      rw [walk, walk, visits, if_pos hlong, if_pos hlong, if_pos hlong]
      exact ⟨.inl rfl, rfl⟩
  | case6 links cur n cs hlong hn =>
      have hn' := (h _ (by simp)).node?_eq hn (by simp)
      rw [walk, walk, visits, if_neg hlong, if_neg hlong, if_neg hlong, hn, hn']
      exact ⟨.inl rfl, rfl⟩
  | case7 links cur n cs hlong id hn =>
      have hn' := (h _ (by simp)).node?_eq hn (fun _ => by simp)
      rw [walk, walk, visits, if_neg hlong, if_neg hlong, if_neg hlong, hn, hn']
      exact ⟨.inl rfl, rfl⟩
  | case8 links cur n cs hlong mode hn ih =>
      -- A directory need only be a directory again. Its mode is seen if the walk ends there.
      have hrest : ∀ loc ∈ visits t links (cur ++ [n]) cs, SameAt t t' loc := fun loc hl =>
        h loc (List.mem_cons_of_mem _ hl)
      obtain ⟨mode', hn'⟩ := (hrest _ (mem_visits_self ..)).dir hn
      obtain ⟨hend, hvisits⟩ := ih hrest ⟨mode, hn⟩
      rw [walk, walk, visits, if_neg hlong, if_neg hlong, if_neg hlong, hn, hn']
      refine ⟨?_, by simp only [hvisits]⟩
      by_cases hcs : cs = []
      · exact .inr ⟨_, mode, mode', if_pos hcs, if_pos hcs⟩
      · simp only [if_neg hcs]
        exact hend
  | case9 cur n cs hlong target hn =>
      have hn' := (h _ (by simp)).node?_eq hn (fun _ => by simp)
      rw [walk, walk, visits, if_neg hlong, if_neg hlong, if_neg hlong, hn, hn']
      exact ⟨.inl rfl, rfl⟩
  | case10 cur n cs hlong target hn links ih =>
      have hn' := (h _ (by simp)).node?_eq hn (fun _ => by simp)
      have hstart := dir_start hd target
      obtain ⟨hend, hvisits⟩ := ih (fun loc hl =>
        h loc (List.mem_cons_of_mem _ (List.mem_cons_of_mem _ hl))) hstart
      rw [walk, walk, visits, if_neg hlong, if_neg hlong, if_neg hlong, hn, hn']
      simp only [Bool.not_true, Bool.false_eq_true, and_false, if_false, hvisits, and_true]
      exact hend

/-- A walk that finds something goes through places where something stands. -/
theorem node?_of_mem_visits {found : Node} (hc : t.Closed)
    (hd : ∃ mode, t.node? cur = some (.dir mode))
    (h : walk t true links cur cs = .ok (.found loc found)) :
    ∀ l ∈ visits t links cur cs, t.node? l ≠ none := by
  -- A walk that ends somewhere has gone through what stands there, all the way.
  fun_induction visits t links cur cs with
  | case1 links cur =>
      obtain ⟨mode, hm⟩ := hd
      simp [hm]
  | case2 links cur cs ih =>
      rw [walk] at h
      obtain ⟨mode, hm⟩ := hd
      rw [List.forall_mem_cons, hm]
      exact ⟨by simp, ih ⟨_, node?_nil t⟩ h⟩
  | case3 links cur cs ih =>
      rw [walk] at h
      rw [List.forall_mem_cons]
      obtain ⟨mode, hm⟩ := hd
      exact ⟨by simp [hm], ih ⟨mode, hm⟩ h⟩
  | case4 links cur cs ih =>
      rw [walk] at h
      rw [List.forall_mem_cons]
      have hup := hc.dropLast hd
      obtain ⟨mode, hm⟩ := hd
      exact ⟨by simp [hm], ih hup h⟩
  | case5 links cur n cs hlong =>
      rw [walk, if_pos hlong] at h
      contradiction
  | case6 links cur n cs hlong hn =>
      rw [walk, if_neg hlong, hn] at h
      by_cases hcs : cs = [] <;> simp [hcs] at h
  | case7 links cur n cs hlong id hn =>
      obtain ⟨mode, hm⟩ := hd
      simp [hm, hn]
  | case8 links cur n cs hlong mode hn ih =>
      obtain ⟨mode', hm⟩ := hd
      rw [List.forall_mem_cons]
      refine ⟨by simp [hm], ?_⟩
      by_cases hcs : cs = []
      · subst hcs
        simp [visits, hn]
      · rw [walk, if_neg hlong, hn] at h
        simp only [if_neg hcs] at h
        exact ih ⟨mode, hn⟩ h
  | case9 cur n cs hlong target hn =>
      rw [walk, if_neg hlong, hn] at h
      simp at h
  | case10 cur n cs hlong target hn links ih =>
      rw [walk, if_neg hlong, hn] at h
      simp only [Bool.not_true, Bool.false_eq_true, and_false, if_false] at h
      have hstart := dir_start hd target
      obtain ⟨mode, hm⟩ := hd
      rw [List.forall_mem_cons, List.forall_mem_cons]
      exact ⟨by simp [hm], by simp [hn], ih hstart h⟩

/-! ### Parts of a walk -/

theorem Leads.visits_append (h : Leads t links cur cs links' loc) :
    ∃ pre, ∀ cs', visits t links cur (cs ++ cs') = pre ++ visits t links' loc cs' := by
  induction h with
  | done => exact ⟨[], fun _ => rfl⟩
  | @root _ _ cur _ _ _ ih =>
      obtain ⟨pre, hpre⟩ := ih
      exact ⟨cur :: pre, fun cs' => by rw [List.cons_append, visits, hpre]; rfl⟩
  | @here _ _ cur _ _ _ ih =>
      obtain ⟨pre, hpre⟩ := ih
      exact ⟨cur :: pre, fun cs' => by rw [List.cons_append, visits, hpre]; rfl⟩
  | @up _ _ cur _ _ _ ih =>
      obtain ⟨pre, hpre⟩ := ih
      exact ⟨cur :: pre, fun cs' => by rw [List.cons_append, visits, hpre]; rfl⟩
  | @dir _ _ cur _ _ _ _ short node _ ih =>
      obtain ⟨pre, hpre⟩ := ih
      refine ⟨cur :: pre, fun cs' => ?_⟩
      rw [List.cons_append, visits, if_neg (Nat.not_lt.mpr short), node]
      simp only [hpre, List.cons_append]
  | @link _ _ cur _ n _ _ short node _ ih =>
      obtain ⟨pre, hpre⟩ := ih
      refine ⟨cur :: (cur ++ [n]) :: pre, fun cs' => ?_⟩
      rw [List.cons_append, visits, if_neg (Nat.not_lt.mpr short), node]
      simp only [← List.append_assoc, hpre, List.cons_append]

theorem Leads.sameAt (h : Leads t links cur cs links' loc)
    (hs : ∀ l ∈ visits t links cur (cs ++ cs'), SameAt t t' l) :
    Leads t' links cur cs links' loc := by
  induction h with
  | done => exact .done ..
  | root _ ih =>
      rw [List.cons_append, visits] at hs
      exact .root (ih fun l hl => hs l (List.mem_cons_of_mem _ hl))
  | here _ ih =>
      rw [List.cons_append, visits] at hs
      exact .here (ih fun l hl => hs l (List.mem_cons_of_mem _ hl))
  | up _ ih =>
      rw [List.cons_append, visits] at hs
      exact .up (ih fun l hl => hs l (List.mem_cons_of_mem _ hl))
  | dir short node _ ih =>
      rw [List.cons_append, visits, if_neg (Nat.not_lt.mpr short), node] at hs
      have hrest := fun l hl => hs l (List.mem_cons_of_mem _ hl)
      obtain ⟨mode', node'⟩ := (hrest _ (mem_visits_self ..)).dir node
      exact .dir short node' (ih hrest)
  | link short node _ ih =>
      rw [List.cons_append, visits, if_neg (Nat.not_lt.mpr short), node] at hs
      refine .link short ((hs _ (by simp)).node?_eq node (fun _ => by simp))
        (ih fun l hl => ?_)
      rw [List.append_assoc] at hl
      exact hs l (List.mem_cons_of_mem _ (List.mem_cons_of_mem _ hl))

theorem visits_subset_more (t : Tree) (links k : Nat) (cur : Location) (cs : List Component) :
    visits t links cur cs ⊆ visits t (links + k) cur cs := by
  fun_induction visits t links cur cs with
  | case1 => rw [visits]; exact List.Subset.refl _
  | case2 links cur cs ih => rw [visits]; exact List.cons_subset_cons _ ih
  | case3 links cur cs ih => rw [visits]; exact List.cons_subset_cons _ ih
  | case4 links cur cs ih => rw [visits]; exact List.cons_subset_cons _ ih
  | case5 links cur n cs hlong => rw [visits, if_pos hlong]; exact List.Subset.refl _
  | case6 links cur n cs hlong hn => rw [visits, if_neg hlong, hn]; exact List.Subset.refl _
  | case7 links cur n cs hlong id hn => rw [visits, if_neg hlong, hn]; exact List.Subset.refl _
  | case8 links cur n cs hlong mode hn ih =>
      rw [visits, if_neg hlong, hn]
      exact List.cons_subset_cons _ ih
  | case9 cur n cs hlong target hn =>
      rw [visits, if_neg hlong, hn]
      cases 0 + k with
      | zero => exact List.Subset.refl _
      | succ k =>
          refine List.cons_subset_cons _ (List.cons_subset.mpr ⟨List.mem_cons_self .., ?_⟩)
          exact List.nil_subset _
  | case10 cur n cs hlong target hn links ih =>
      rw [visits, if_neg hlong, hn, Nat.succ_add]
      exact List.cons_subset_cons _ (List.cons_subset_cons _ ih)

/-- A walk that comes to an end goes no further with more links left. -/
theorem visits_more_of_walk (k : Nat) (h : walk t true links cur cs = .ok s) :
    visits t (links + k) cur cs = visits t links cur cs := by
  -- A walk that ends does not run out of links, so more of them make no difference.
  fun_induction visits t links cur cs with
  | case1 => rw [visits]
  | case2 links cur cs ih => rw [walk] at h; rw [visits, ih h]
  | case3 links cur cs ih => rw [walk] at h; rw [visits, ih h]
  | case4 links cur cs ih => rw [walk] at h; rw [visits, ih h]
  | case5 links cur n cs hlong => rw [visits, if_pos hlong]
  | case6 links cur n cs hlong hn => rw [visits, if_neg hlong, hn]
  | case7 links cur n cs hlong id hn => rw [visits, if_neg hlong, hn]
  | case8 links cur n cs hlong mode hn ih =>
      rw [visits, if_neg hlong, hn]
      by_cases hcs : cs = []
      · subst hcs
        simp [visits]
      · rw [walk, if_neg hlong, hn] at h
        simp only [if_neg hcs] at h
        simp only [ih h]
  | case9 cur n cs hlong target hn =>
      rw [walk, if_neg hlong, hn] at h
      simp at h
  | case10 cur n cs hlong target hn links ih =>
      rw [walk, if_neg hlong, hn] at h
      simp only [Bool.not_true, Bool.false_eq_true, and_false, if_false] at h
      rw [visits, if_neg hlong, hn, Nat.succ_add]
      simp only [ih h]

theorem visits_subset_append (t : Tree) (links : Nat) (cur : Location)
    (cs cs' : List Component) :
    visits t links cur cs ⊆ visits t links cur (cs ++ cs') := by
  fun_induction visits t links cur cs with
  | case1 links cur => exact List.cons_subset.mpr ⟨mem_visits_self .., List.nil_subset _⟩
  | case2 links cur cs ih => rw [List.cons_append, visits]; exact List.cons_subset_cons _ ih
  | case3 links cur cs ih => rw [List.cons_append, visits]; exact List.cons_subset_cons _ ih
  | case4 links cur cs ih => rw [List.cons_append, visits]; exact List.cons_subset_cons _ ih
  | case5 links cur n cs hlong =>
      rw [List.cons_append, visits, if_pos hlong]; exact List.Subset.refl _
  | case6 links cur n cs hlong hn =>
      rw [List.cons_append, visits, if_neg hlong, hn]; exact List.Subset.refl _
  | case7 links cur n cs hlong id hn =>
      rw [List.cons_append, visits, if_neg hlong, hn]; exact List.Subset.refl _
  | case8 links cur n cs hlong mode hn ih =>
      rw [List.cons_append, visits, if_neg hlong, hn]
      exact List.cons_subset_cons _ ih
  | case9 cur n cs hlong target hn =>
      rw [List.cons_append, visits, if_neg hlong, hn]; exact List.Subset.refl _
  | case10 cur n cs hlong target hn links ih =>
      rw [List.cons_append, visits, if_neg hlong, hn]
      rw [List.append_assoc] at ih
      exact List.cons_subset_cons _ (List.cons_subset_cons _ ih)

/-- A link on the way of a walk is followed. -/
theorem exists_walk_of_link {dir : Location} (hc : t.Closed)
    (hd : ∃ mode, t.node? cur = some (.dir mode)) (h : walk t true links cur cs = .ok s)
    (hmem : dir ++ [n] ∈ visits t links cur cs)
    (hlink : t.node? (dir ++ [n]) = some (.link target)) :
    ∃ j rest, walk t true j (target.start dir) (steps target ++ rest) = .ok s ∧
      visits t j (target.start dir) (steps target ++ rest) ⊆ visits t links cur cs := by
  -- The walk is always in a directory, so it is not at the link itself.
  have hnot : ∀ {cur : Location}, (∃ mode, t.node? cur = some (.dir mode)) →
      dir ++ [n] ≠ cur := by
    rintro cur ⟨mode, hm⟩ rfl
    simp [hlink] at hm
  fun_induction visits t links cur cs with
  | case1 links cur => exact absurd (List.mem_singleton.mp hmem) (hnot hd)
  | case2 links cur cs ih =>
      rw [walk] at h
      obtain ⟨j, rest, hw, hsub⟩ :=
        ih ⟨_, node?_nil t⟩ h ((List.mem_cons.mp hmem).resolve_left (hnot hd))
      exact ⟨j, rest, hw, List.Subset.trans hsub (List.subset_cons_self ..)⟩
  | case3 links cur cs ih =>
      rw [walk] at h
      obtain ⟨j, rest, hw, hsub⟩ := ih hd h ((List.mem_cons.mp hmem).resolve_left (hnot hd))
      exact ⟨j, rest, hw, List.Subset.trans hsub (List.subset_cons_self ..)⟩
  | case4 links cur cs ih =>
      rw [walk] at h
      obtain ⟨j, rest, hw, hsub⟩ :=
        ih (hc.dropLast hd) h ((List.mem_cons.mp hmem).resolve_left (hnot hd))
      exact ⟨j, rest, hw, List.Subset.trans hsub (List.subset_cons_self ..)⟩
  | case5 links cur m cs hlong =>
      rw [walk, if_pos hlong] at h
      contradiction
  | case6 links cur m cs hlong hn =>
      have hmem := (List.mem_cons.mp hmem).resolve_left (hnot hd)
      rw [List.mem_singleton.mp hmem, hn] at hlink
      contradiction
  | case7 links cur m cs hlong id hn =>
      have hmem := (List.mem_cons.mp hmem).resolve_left (hnot hd)
      rw [List.mem_singleton.mp hmem, hn] at hlink
      simp at hlink
  | case8 links cur m cs hlong mode hn ih =>
      have hmem := (List.mem_cons.mp hmem).resolve_left (hnot hd)
      by_cases hcs : cs = []
      · subst hcs
        rw [visits] at hmem
        exact absurd (List.mem_singleton.mp hmem) (hnot ⟨mode, hn⟩)
      · rw [walk, if_neg hlong, hn] at h
        simp only [if_neg hcs] at h
        obtain ⟨j, rest, hw, hsub⟩ := ih ⟨mode, hn⟩ h hmem
        exact ⟨j, rest, hw, List.Subset.trans hsub (List.subset_cons_self ..)⟩
  | case9 cur m cs hlong target' hn =>
      rw [walk, if_neg hlong, hn] at h
      simp at h
  | case10 cur m cs hlong target' hn links ih =>
      rw [walk, if_neg hlong, hn] at h
      simp only [Bool.not_true, Bool.false_eq_true, and_false, if_false] at h
      have hstart := dir_start hd target'
      have hsub : visits t links (target'.start cur) (steps target' ++ cs) ⊆
          cur :: (cur ++ [m]) :: visits t links (target'.start cur) (steps target' ++ cs) :=
        List.Subset.trans (List.subset_cons_self ..) (List.subset_cons_self ..)
      -- Either this is the link that is looked for, or it is met further on.
      rcases List.mem_cons.mp ((List.mem_cons.mp hmem).resolve_left (hnot hd)) with heq | hmem
      · obtain ⟨rfl, hm⟩ := List.append_inj' heq rfl
        obtain rfl := (List.cons.inj hm).1
        obtain rfl := Node.link.inj (Option.some.inj (hlink.symm.trans hn))
        exact ⟨links, cs, h, hsub⟩
      · obtain ⟨j, rest, hw, hsub'⟩ := ih hstart h hmem
        exact ⟨j, rest, hw, List.Subset.trans hsub' hsub⟩

/-- What is visited on the way to an entry of a directory, and beyond it if it is a link, is
visited on the way to another entry as well if the entry itself is. -/
theorem visits_entry_subset {m : Name} (hc : t.Closed)
    (hd : ∃ mode, t.node? cur = some (.dir mode)) (hl : Leads t links cur cs links' top)
    (h : walk t true links cur (cs ++ [.name m]) = .ok s)
    (hmem : top ++ [n] ∈ visits t links cur (cs ++ [.name m])) :
    visits t links cur (cs ++ [.name n]) ⊆ visits t links cur (cs ++ [.name m]) := by
  obtain ⟨pre, hpre⟩ := hl.visits_append
  have hfrom : top ∈ visits t links cur (cs ++ [.name m]) := by
    rw [hpre]
    exact List.mem_append_right _ (mem_visits_self ..)
  have hentry : [top, top ++ [n]] ⊆ visits t links cur (cs ++ [.name m]) :=
    List.cons_subset.mpr ⟨hfrom, List.cons_subset.mpr ⟨hmem, List.nil_subset _⟩⟩
  rw [hpre [.name n]]
  refine List.append_subset.mpr ⟨hpre [.name m] ▸ List.subset_append_left .., ?_⟩
  rw [visits]
  split
  · exact List.cons_subset.mpr ⟨hfrom, List.nil_subset _⟩
  · split
    · exact hentry
    · exact hentry
    · rw [visits]
      exact hentry
    · rename_i target hlink
      -- Whoever follows the entry goes through what the way has gone through already.
      obtain ⟨j, rest, hw, hsub⟩ := exists_walk_of_link hc hd h hmem hlink
      have hbeyond : ∀ i, visits t i (target.start top) (steps target) ⊆
          visits t links cur (cs ++ [.name m]) := fun i => by
        have hmore : visits t i (target.start top) (steps target) ⊆
            visits t (i + j) (target.start top) (steps target ++ rest) :=
          List.Subset.trans (visits_subset_append t i _ _ rest) (visits_subset_more t i j _ _)
        rw [Nat.add_comm, visits_more_of_walk i hw] at hmore
        exact List.Subset.trans hmore hsub
      cases links' with
      | zero => exact hentry
      | succ links' =>
          dsimp only
          rw [List.append_nil]
          exact List.cons_subset.mpr ⟨hfrom, List.cons_subset.mpr ⟨hmem, hbeyond links'⟩⟩

/-- Whether a path leads to a directory depends on its way alone. -/
theorem isDir_sameAt {cwd : Location} {p : Path} (hc : t.Closed)
    (hd : ∃ mode, t.node? (p.start cwd) = some (.dir mode))
    (h : ∀ l ∈ visits t maxLinks (p.start cwd) (steps p), SameAt t t' l) :
    t'.isDir cwd p = t.isDir cwd p := by
  rw [Bool.eq_iff_iff, isDir_iff, isDir_iff]
  refine and_congr_right fun _ => ?_
  rcases (walk_sameAt h hd hc).1 with heq | ⟨l, mode, mode', hw, hw'⟩
  · rw [heq]
  · rw [hw, hw']
    exact ⟨fun _ => ⟨l, mode, rfl⟩, fun _ => ⟨l, mode', rfl⟩⟩

/-- A walk that ends at a vacant place goes the same way when a file
stands there, and finds it. -/
theorem walk_filled {dir : Location} {id : FileId}
    (h : walk t true links cur cs = .ok (.vacant dir n))
    (hsame : ∀ l, l ≠ dir ++ [n] → t'.node? l = t.node? l)
    (hfile : t'.node? (dir ++ [n]) = some (.file id)) :
    walk t' true links cur cs = .ok (.found (dir ++ [n]) (.file id)) ∧
      visits t' links cur cs = visits t links cur cs := by
  have hnone := node?_of_walk_vacant h
  -- Only the place that was vacant has changed, so the walk is the same up to its end.
  have hkept : ∀ {l : Location} {node : Node}, t.node? l = some node →
      t'.node? l = some node := by
    intro l node hn
    rw [hsame l ?_, hn]
    rintro rfl
    rw [hnone] at hn
    contradiction
  fun_induction visits t links cur cs with
  | case1 links cur => simp [walk] at h
  | case2 links cur cs ih =>
      rw [walk] at h
      obtain ⟨hw, hv⟩ := ih h
      exact ⟨by rw [walk, hw], by rw [visits, hv]⟩
  | case3 links cur cs ih =>
      rw [walk] at h
      obtain ⟨hw, hv⟩ := ih h
      exact ⟨by rw [walk, hw], by rw [visits, hv]⟩
  | case4 links cur cs ih =>
      rw [walk] at h
      obtain ⟨hw, hv⟩ := ih h
      exact ⟨by rw [walk, hw], by rw [visits, hv]⟩
  | case5 links cur m cs hlong =>
      rw [walk, if_pos hlong] at h
      contradiction
  | case6 links cur m cs hlong hn =>
      rw [walk, if_neg hlong, hn] at h
      by_cases hcs : cs = []
      · simp only [if_pos hcs, Except.ok.injEq, Spot.vacant.injEq] at h
        obtain ⟨rfl, rfl⟩ := h
        rw [walk, visits, if_neg hlong, if_neg hlong, hfile]
        exact ⟨if_pos hcs, rfl⟩
      · simp [hcs] at h
  | case7 links cur m cs hlong id hn =>
      rw [walk, if_neg hlong, hn] at h
      by_cases hcs : cs = [] <;> simp [hcs] at h
  | case8 links cur m cs hlong mode hn ih =>
      rw [walk, if_neg hlong, hn] at h
      by_cases hcs : cs = []
      · simp [hcs] at h
      · simp only [if_neg hcs] at h
        obtain ⟨hw, hv⟩ := ih h
        rw [walk, visits, if_neg hlong, if_neg hlong, hkept hn]
        exact ⟨by simp only [if_neg hcs, hw], by simp only [hv]⟩
  | case9 cur m cs hlong target hn =>
      rw [walk, if_neg hlong, hn] at h
      simp at h
  | case10 cur m cs hlong target hn links ih =>
      rw [walk, if_neg hlong, hn] at h
      simp only [Bool.not_true, Bool.false_eq_true, and_false, if_false] at h
      obtain ⟨hw, hv⟩ := ih h
      rw [walk, visits, if_neg hlong, if_neg hlong, hkept hn]
      simp only [Bool.not_true, Bool.false_eq_true, and_false, if_false, hv, and_true]
      exact hw

/-- What a path leads to is opened, or a new file is made there. -/
theorem openFile_eq_ok {cwd : Location} {p : Path} {mode : Mode} {id : FileId}
    (h : t.openFile cwd p mode = .ok (id, t')) :
    (∃ loc, t.walk true maxLinks (p.start cwd) (steps p) =
      .ok (.found loc (.file id)) ∧ t' = t) ∨
      ∃ dir n, t.walk true maxLinks (p.start cwd) (steps p) = .ok (.vacant dir n) ∧
        id = t.bodies.length ∧
        t' = (t.addBody ⟨umasked mode, []⟩).2.put (dir ++ [n]) (.file t.bodies.length) := by
  rw [Tree.openFile, resolve_eq] at h
  split at h
  · contradiction
  · cases hw : t.walk true maxLinks (p.start cwd) (steps p) with
    | error e =>
        rw [hw] at h
        contradiction
    | ok s =>
        rw [hw] at h
        cases s with
        | vacant dir n =>
            obtain ⟨rfl, rfl⟩ := Prod.mk.inj (Except.ok.inj h)
            exact .inr ⟨dir, n, rfl, rfl, rfl⟩
        | found loc node =>
            cases node with
            | dir mode => contradiction
            | link target => contradiction
            | file id' =>
                obtain ⟨rfl, rfl⟩ := Prod.mk.inj (Except.ok.inj h)
                exact .inl ⟨loc, rfl, rfl⟩

/-! ### What is in a file -/

theorem content_setContent_nil (t : Tree) (id : FileId) :
    (t.setContent id []).content id = [] := by
  rw [content, setContent, setBody, body?, List.getElem?_set_self']
  cases t.bodies[id]? <;> rfl

theorem content_setContent {id : FileId} (h : id < t.bodies.length) (bytes : Bytes) :
    (t.setContent id bytes).content id = bytes := by
  rw [content, setContent, setBody, body?, List.getElem?_set_self h]
  rfl

/-- Opening a file leaves what is in the files, and a new file is empty. -/
theorem content_of_openFile {cwd : Location} {p : Path} {mode : Mode} {id : FileId}
    (h : t.openFile cwd p mode = .ok (id, t')) (id' : FileId) :
    t'.content id' = t.content id' := by
  rcases openFile_eq_ok h with ⟨_, -, rfl⟩ | ⟨dir, n, -, -, rfl⟩
  · rfl
  · change ((t.bodies ++ [⟨umasked mode, []⟩])[id']?.map (·.content)).getD [] =
      (t.bodies[id']?.map (·.content)).getD []
    rcases Nat.lt_trichotomy id' t.bodies.length with hlt | rfl | hlt
    · rw [List.getElem?_append_left hlt]
    · simp
    · rw [List.getElem?_eq_none (by simp; omega), List.getElem?_eq_none (by omega)]

end LlvmBootstrap.Tree
