import LlvmBootstrap.Proofs.Tree.Closed

/-!
Removing what a path leads to. The path then leads to nothing, in any tree and however it goes:
a walk either comes to something that was removed, or ends where it ended before, and that was
removed too.
-/

namespace LlvmBootstrap.Tree

variable {t t' : Tree} {gone : Location → Prop} {follow : Bool} {links : Nat}
  {cwd cur loc : Location} {cs : List Component} {x : Name} {n : Node} {p : Path}

structure Without (t t' : Tree) (gone : Location → Prop) : Prop where
  kept : ∀ loc, ¬ gone loc → t'.node? loc = t.node? loc
  removed : ∀ loc, gone loc → t'.node? loc = none

theorem without_prune (hne : loc ≠ []) :
    Without t (t.prune loc) fun l => isWithin loc l = true where
  kept l hl := by rw [node?_prune _ hne, if_neg hl]
  removed l hl := by rw [node?_prune _ hne, if_pos hl]

theorem without_remove (hne : loc ≠ []) : Without t (t.remove loc) (· = loc) where
  kept l hl := by rw [node?_remove _ hne, if_neg hl]
  removed l hl := by rw [node?_remove _ hne, if_pos hl]

/-! ### Walks whose last component is a name -/

theorem last_of_cons {c : Component} (hlast : (c :: cs).getLast? = some (.name x))
    (h : cs ≠ [] ∨ ∀ m, c ≠ .name m) : cs.getLast? = some (.name x) := by
  by_cases hnil : cs = []
  · subst hnil
    rcases h with h | h
    · contradiction
    · exact absurd (Option.some.inj hlast) (h x)
  · rwa [List.getLast?_cons_of_ne_nil hnil] at hlast

theorem last_of_link {m : Name} {target : Path}
    (hlast : (.name m :: cs).getLast? = some (.name x)) (hcs : cs ≠ []) :
    (steps target ++ cs).getLast? = some (.name x) := by
  rw [List.getLast?_append_of_ne_nil _ hcs]
  exact last_of_cons hlast (.inl hcs)

theorem exists_name_of_walk (hlast : cs.getLast? = some (.name x))
    (h : t.walk false links cur cs = .ok (.found loc n)) : ∃ dir m, loc = dir ++ [m] := by
  fun_induction walk t false links cur cs with
  | case1 => contradiction
  | case2 links cur cs ih => exact ih (last_of_cons hlast (.inr (by simp))) h
  | case3 links cur cs ih => exact ih (last_of_cons hlast (.inr (by simp))) h
  | case4 links cur cs ih => exact ih (last_of_cons hlast (.inr (by simp))) h
  | case5 => contradiction
  | case6 => simp at h
  | case7 => contradiction
  | case8 links cur m => exact ⟨cur, m, (Spot.found.inj (Except.ok.inj h)).1.symm⟩
  | case9 links cur m cs hshort mode node hcs ih => exact ih (last_of_cons hlast (.inl hcs)) h
  | case10 links cur m => exact ⟨cur, m, (Spot.found.inj (Except.ok.inj h)).1.symm⟩
  | case11 => contradiction
  | case12 links cur m => exact ⟨cur, m, (Spot.found.inj (Except.ok.inj h)).1.symm⟩
  | case13 => contradiction
  | case14 cur m cs hshort target node hend links ih =>
      exact ih (last_of_link hlast fun hnil => hend ⟨hnil, rfl⟩) h

def LeadsNowhere (t : Tree) (follow : Bool) (links : Nat) (cur : Location)
    (cs : List Component) :
    Prop :=
  t.walk follow links cur cs = .error .notFound ∨
    ∃ dir m, t.walk follow links cur cs = .ok (.vacant dir m)

theorem leadsNowhere_of_none (hshort : ¬ maxName < x.length)
    (h : t.node? (cur ++ [x]) = none) :
    LeadsNowhere t follow links cur (.name x :: cs) := by
  rw [LeadsNowhere, walk, if_neg hshort, h]
  by_cases hcs : cs = []
  · exact .inr ⟨cur, x, if_pos hcs⟩
  · exact .inl (if_neg hcs)

/-- The walk after the removal is the one before it up to the first place that is gone. -/
theorem Without.leadsNowhere (h : Without t t' gone) (hlast : cs.getLast? = some (.name x))
    (hfound : t.walk false links cur cs = .ok (.found loc n)) (hgone : gone loc) :
    LeadsNowhere t' false links cur cs := by
  fun_induction walk t false links cur cs with
  | case1 => contradiction
  | case2 links cur cs ih =>
      rw [LeadsNowhere, walk]
      exact ih (last_of_cons hlast (.inr (by simp))) hfound
  | case3 links cur cs ih =>
      rw [LeadsNowhere, walk]
      exact ih (last_of_cons hlast (.inr (by simp))) hfound
  | case4 links cur cs ih =>
      rw [LeadsNowhere, walk]
      exact ih (last_of_cons hlast (.inr (by simp))) hfound
  | case5 => contradiction
  | case6 => simp at hfound
  | case7 => contradiction
  | case8 links cur m hshort mode node =>
      obtain ⟨rfl, -⟩ := Spot.found.inj (Except.ok.inj hfound)
      exact leadsNowhere_of_none hshort (h.removed _ hgone)
  -- The walk stops at the first place on the way that is gone, and
  -- otherwise goes on as before.
  | case9 links cur m cs hshort mode node hcs ih =>
      by_cases hm : gone (cur ++ [m])
      · exact leadsNowhere_of_none hshort (h.removed _ hm)
      · rw [LeadsNowhere, walk, if_neg hshort, h.kept _ hm, node]
        simp only [if_neg hcs]
        exact ih (last_of_cons hlast (.inl hcs)) hfound
  | case10 links cur m hshort id node =>
      obtain ⟨rfl, -⟩ := Spot.found.inj (Except.ok.inj hfound)
      exact leadsNowhere_of_none hshort (h.removed _ hgone)
  | case11 => contradiction
  | case12 links cur m cs hshort target node hend =>
      obtain ⟨rfl, -⟩ := Spot.found.inj (Except.ok.inj hfound)
      exact leadsNowhere_of_none hshort (h.removed _ hgone)
  | case13 => contradiction
  | case14 cur m cs hshort target node hend links ih =>
      by_cases hm : gone (cur ++ [m])
      · exact leadsNowhere_of_none hshort (h.removed _ hm)
      · rw [LeadsNowhere, walk, if_neg hshort, h.kept _ hm, node]
        simp only [if_neg hend]
        exact ih (last_of_link hlast fun hnil => hend ⟨hnil, rfl⟩) hfound

/-- A walk that meets no link at its end does not depend on whether such a link is followed. -/
theorem walk_follow_eq
    (h : ∀ loc target, t.walk false links cur cs ≠ .ok (.found loc (.link target))) :
    t.walk true links cur cs = t.walk false links cur cs := by
  fun_induction walk t false links cur cs with
  | case1 => rw [walk]
  | case2 links cur cs ih => rw [walk, ih h]
  | case3 links cur cs ih => rw [walk, ih h]
  | case4 links cur cs ih => rw [walk, ih h]
  | case5 links cur m cs hlong => rw [walk, if_pos hlong]
  | case6 links cur m hshort node => rw [walk, if_neg hshort, node]; rfl
  | case7 links cur m cs hshort node hcs =>
      rw [walk, if_neg hshort, node]
      exact if_neg hcs
  | case8 links cur m hshort mode node => rw [walk, if_neg hshort, node]; rfl
  | case9 links cur m cs hshort mode node hcs ih =>
      rw [walk, if_neg hshort, node]
      simp only [if_neg hcs]
      exact ih h
  | case10 links cur m hshort id node => rw [walk, if_neg hshort, node]; rfl
  | case11 links cur m cs hshort id node hcs =>
      rw [walk, if_neg hshort, node]
      exact if_neg hcs
  -- Only at a link on the last place do the two walks part.
  | case12 links cur m cs hshort target node hend => exact absurd rfl (h _ _)
  | case13 cur m cs hshort target node hend =>
      rw [walk, if_neg hshort, node]
      simp
  | case14 cur m cs hshort target node hend links ih =>
      rw [walk, if_neg hshort, node]
      simp only [Bool.not_true, Bool.false_eq_true, and_false, if_false]
      exact ih h

/-! ### Paths -/

/-- Nothing is at the end of a path, not even a link to nothing. -/
def IsAbsent (t : Tree) (cwd : Location) (p : Path) : Prop :=
  t.lookup cwd false p = .error .notFound

theorem IsAbsent.isDir (h : IsAbsent t cwd p) : t.isDir cwd p = false := by
  rw [IsAbsent, Tree.lookup, resolve_eq] at h
  rw [Tree.isDir, Tree.lookup, resolve_eq]
  cases hp : p.refusal? with
  | some e => rfl
  | none =>
      rw [hp] at h
      simp only at h ⊢
      rw [walk_follow_eq fun loc target hw => by simp [hw] at h]
      cases hw : t.walk false maxLinks (p.start cwd) (steps p) with
      | error e => rfl
      | ok s =>
          cases s with
          | vacant dir m => rfl
          | found loc n => simp [hw] at h

theorem isAbsent_of_leadsNowhere (hp : p.refusal? = none)
    (h : LeadsNowhere t false maxLinks (p.start cwd) (steps p)) : IsAbsent t cwd p := by
  rw [IsAbsent, Tree.lookup, resolve_eq, hp]
  rcases h with h | ⟨dir, m, h⟩ <;> simp [h]

theorem lookup_eq_ok (h : t.lookup cwd follow p = .ok (loc, n)) :
    p.refusal? = none ∧ t.walk follow maxLinks (p.start cwd) (steps p) =
      .ok (.found loc n) := by
  rw [Tree.lookup, resolve_eq] at h
  cases hp : p.refusal? with
  | some e => simp [hp] at h
  | none =>
      simp only [hp] at h
      refine ⟨rfl, ?_⟩
      split at h
      · rename_i hw
        obtain ⟨rfl, rfl⟩ := Prod.mk.inj (Except.ok.inj h)
        exact hw
      · contradiction
      · contradiction

theorem exists_resolve_of_lookup (h : t.lookup cwd follow p = .ok (loc, n)) :
    ∃ spot, t.resolve cwd follow p = .ok spot := by
  obtain ⟨hp, hw⟩ := lookup_eq_ok h
  rw [resolve_eq, hp]
  exact ⟨_, hw⟩

/-- What a removal takes away, and from where. -/
theorem removeAll_eq_ok (h : t.removeAll cwd p = .ok t') :
    ∃ loc n, t.lookup cwd false p = .ok (loc, n) ∧
      ((∃ mode, n = .dir mode) ∧ t' = t.prune loc ∨ (∃ target, n = .link target) ∧
        t' = t.remove loc) := by
  unfold removeAll at h
  cases hl : t.lookup cwd false p with
  | error e =>
      rw [hl] at h
      contradiction
  | ok found =>
      obtain ⟨loc, n⟩ := found
      rw [hl] at h
      cases n with
      | dir mode => exact ⟨loc, _, rfl, .inl ⟨⟨mode, rfl⟩, (Except.ok.inj h).symm⟩⟩
      | link target => exact ⟨loc, _, rfl, .inr ⟨⟨target, rfl⟩, (Except.ok.inj h).symm⟩⟩
      | file id => contradiction

/-- Nothing is left at the end of a path after a removal. -/
theorem isAbsent_of_removeAll (hlast : (steps p).getLast? = some (.name x))
    (h : t.removeAll cwd p = .ok t') : IsAbsent t' cwd p := by
  obtain ⟨loc, n, hl, hn⟩ := removeAll_eq_ok h
  obtain ⟨hp, hw⟩ := lookup_eq_ok hl
  have hne : loc ≠ [] := by
    obtain ⟨dir, m, rfl⟩ := exists_name_of_walk hlast hw
    simp
  refine isAbsent_of_leadsNowhere hp ?_
  rcases hn with ⟨-, rfl⟩ | ⟨-, rfl⟩
  · exact (without_prune hne).leadsNowhere hlast hw (isWithin_self loc)
  · exact (without_remove hne).leadsNowhere hlast hw rfl

/-- A removal that finds nothing leaves nothing either. -/
theorem isAbsent_of_removeAll_notFound (h : t.removeAll cwd p = .error .notFound) :
    IsAbsent t cwd p := by
  unfold removeAll at h
  cases hl : t.lookup cwd false p with
  | error e =>
      rw [hl] at h
      obtain rfl : e = .notFound := Except.error.inj h
      exact hl
  | ok found =>
      obtain ⟨loc, n⟩ := found
      rw [hl] at h
      cases n <;> simp [bind, Except.bind, pure, Except.pure, throw, throwThe,
        MonadExceptOf.throw] at h

end LlvmBootstrap.Tree
