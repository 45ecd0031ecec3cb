import LlvmBootstrap.Proofs.Machine.Files

/-!
Trees as file systems have them, where all that stands somewhere stands in a directory. Walks
through such a tree go from directory to directory, and a directory that is made where a walk
ended is where the same walk leads from then on.
-/

namespace LlvmBootstrap

namespace Tree

def Closed (t : Tree) : Prop :=
  ∀ dir n, t.node? (dir ++ [n]) ≠ none → ∃ mode, t.node? dir = some (.dir mode)

variable {t t' : Tree} {links links' links'' : Nat} {cwd cur dir loc loc' top : Location}
  {n x : Name} {cs : List Component} {follow : Bool} {p : Path}

namespace Closed

theorem dropLast (h : t.Closed) (hd : ∃ mode, t.node? loc = some (.dir mode)) :
    ∃ mode, t.node? loc.dropLast = some (.dir mode) := by
  by_cases hne : loc = []
  · subst hne
    exact hd
  · obtain ⟨mode, hm⟩ := hd
    rw [← List.dropLast_concat_getLast hne] at hm
    exact h _ _ (hm ▸ Option.some_ne_none _)

/-- Nothing stands below what is not a directory. -/
theorem node?_below (h : t.Closed) (hn : ∀ mode, t.node? loc ≠ some (.dir mode))
    {rel : List Name} (hne : rel ≠ []) : t.node? (loc ++ rel) = none := by
  induction rel generalizing loc with
  | nil => contradiction
  | cons m rest ih =>
      have hm : t.node? (loc ++ [m]) = none := by
        by_contra hsome
        obtain ⟨mode, hmode⟩ := h loc m hsome
        exact hn mode hmode
      by_cases hrest : rest = []
      · rw [hrest]
        exact hm
      · have hbelow : t.node? ((loc ++ [m]) ++ rest) = none := ih (by simp [hm]) hrest
        rwa [List.append_assoc] at hbelow

theorem isVacantBelow (h : t.Closed) (hn : t.node? loc = none) : t.isVacantBelow loc = true :=
  isVacantBelow_iff.mpr fun _ hne => h.node?_below (by simp [hn]) hne

theorem put {node : Node} (h : t.Closed) (hd : ∃ mode, t.node? dir = some (.dir mode))
    (hn : t.node? (dir ++ [n]) = none) : (t.put (dir ++ [n]) node).Closed := by
  intro loc m hm
  by_cases heq : loc ++ [m] = dir ++ [n]
  · obtain ⟨rfl, -⟩ := List.append_inj' heq rfl
    obtain ⟨mode, hmode⟩ := hd
    refine ⟨mode, ?_⟩
    rw [node?_put_of_ne _ _
      (fun he => List.cons_ne_nil _ _ (List.append_right_eq_self.mp he.symm)),
      hmode]
  · rw [node?_put_of_ne _ _ heq] at hm
    obtain ⟨mode, hmode⟩ := h loc m hm
    have hne : loc ≠ dir ++ [n] := by
      rintro rfl
      rw [hn] at hmode
      contradiction
    exact ⟨mode, by rw [node?_put_of_ne _ _ hne, hmode]⟩

/-- Files do not matter. -/
theorem congr (h : t.Closed) (hn : ∀ loc, t'.node? loc = t.node? loc) : t'.Closed := by
  intro dir n hne
  rw [hn] at hne ⊢
  exact h dir n hne

theorem prune (h : t.Closed) (hne : top ≠ []) : (t.prune top).Closed := by
  intro dir n hn
  rw [node?_prune _ hne] at hn ⊢
  split at hn
  · contradiction
  · rename_i hout
    rw [if_neg fun hw => hout (isWithin_trans hw (isWithin_append ..))]
    exact h dir n hn

/-- A tree can be checked entry by entry. -/
theorem of_entries (h : t.nodes.entries.all (fun e =>
    (t.node? e.1.dropLast).map Node.objectKind = some .dir) = true) : t.Closed := by
  intro dir n hn
  obtain ⟨node, hnode⟩ := Option.ne_none_iff_exists'.mp hn
  have hget : t.nodes.get? (dir ++ [n]) = some node := by
    rw [← hnode]
    cases dir <;> rfl
  have hdir :=
    of_decide_eq_true (List.all_eq_true.mp h _ ((SortedMap.get?_eq_some_iff ..).mp hget))
  rw [List.dropLast_concat] at hdir
  obtain ⟨found, hfound, hkind⟩ := Option.map_eq_some_iff.mp hdir
  cases found with
  | dir mode => exact ⟨mode, hfound⟩
  | file | link => contradiction

end Closed

/-! ### Where walks lead -/

/-- A walk that starts in a directory leads to a directory. -/
theorem Leads.dir_of_closed (hc : t.Closed) (h : Leads t links cur cs links' loc)
    (hd : ∃ mode, t.node? cur = some (.dir mode)) :
    ∃ mode, t.node? loc = some (.dir mode) := by
  induction h with
  | done => exact hd
  | root _ ih => exact ih ⟨_, node?_nil t⟩
  | here _ ih => exact ih hd
  | up _ ih => exact ih (hc.dropLast hd)
  | dir _ node _ ih => exact ih ⟨_, node⟩
  | @link _ _ _ _ _ _ target _ _ _ ih =>
      refine ih ?_
      rw [Path.start]
      split
      · exact ⟨_, node?_nil t⟩
      · exact hd

/-- There is one way along some components. -/
theorem Leads.unique {links₁ links₂ : Nat} {loc₁ loc₂ : Location}
    (h : Leads t links cur cs links₁ loc₁) (h' : Leads t links cur cs links₂ loc₂) :
    loc₁ = loc₂ := by
  -- Each step is fixed by its component and by what stands there.
  induction h with
  | done =>
      cases h'
      rfl
  | root _ ih =>
      cases h' with
      | root rest => exact ih rest
  | here _ ih =>
      cases h' with
      | here rest => exact ih rest
  | up _ ih =>
      cases h' with
      | up rest => exact ih rest
  | dir _ node _ ih =>
      cases h' with
      | dir _ node' rest => exact ih rest
      | link _ node' rest => simp [node] at node'
  | link _ node _ ih =>
      cases h' with
      | dir _ node' rest => simp [node] at node'
      | link _ node' rest =>
          rw [node] at node'
          obtain rfl := Node.link.inj (Option.some.inj node')
          exact ih rest

/-- What a walk finds stands where it finds it. -/
theorem node?_of_walk_found (hc : t.Closed) {node : Node}
    (h : walk t follow links cur cs = .ok (.found loc node))
    (hd : ∃ mode, t.node? cur = some (.dir mode)) : t.node? loc = some node := by
  -- Along the walk: where it is, there is a directory.
  fun_induction walk t follow links cur cs with
  | case1 links cur =>
      obtain ⟨rfl, rfl⟩ := Spot.found.inj (Except.ok.inj h)
      obtain ⟨mode, hm⟩ := hd
      rw [hm, Option.getD_some]
  | case2 links cur cs ih => exact ih h ⟨_, node?_nil t⟩
  | case3 links cur cs ih => exact ih h hd
  | case4 links cur cs ih => exact ih h (hc.dropLast hd)
  | case5 => contradiction
  | case6 => simp at h
  | case7 => contradiction
  | case8 links cur m hlen mode hn =>
      obtain ⟨rfl, rfl⟩ := Spot.found.inj (Except.ok.inj h)
      exact hn
  | case9 links cur m cs hlen mode hn hcs ih => exact ih h ⟨_, hn⟩
  | case10 links cur m hlen id hn =>
      obtain ⟨rfl, rfl⟩ := Spot.found.inj (Except.ok.inj h)
      exact hn
  | case11 => contradiction
  | case12 links cur m cs hlen target hn hcs =>
      obtain ⟨rfl, rfl⟩ := Spot.found.inj (Except.ok.inj h)
      exact hn
  | case13 => contradiction
  | case14 cur m cs hlen target hn hcs links ih =>
      refine ih h ?_
      split
      · exact ⟨_, node?_nil t⟩
      · exact hd

/-- A walk that ends at a name that is missing ends in a directory. -/
theorem dir_of_walk_vacant (hc : t.Closed)
    (h : walk t follow links cur cs = .ok (.vacant dir n)) (hd : ∃ mode,
      t.node? cur = some (.dir mode)) : ∃ mode, t.node? dir = some (.dir mode) := by
  fun_induction walk t follow links cur cs with
  | case1 => simp at h
  | case2 links cur cs ih => exact ih h ⟨_, node?_nil t⟩
  | case3 links cur cs ih => exact ih h hd
  | case4 links cur cs ih => exact ih h (hc.dropLast hd)
  | case5 => contradiction
  | case6 links cur m hlen hn =>
      obtain ⟨rfl, rfl⟩ := Spot.vacant.inj (Except.ok.inj h)
      exact hd
  | case7 => contradiction
  | case8 => simp at h
  | case9 links cur m cs hlen mode hn hcs ih => exact ih h ⟨_, hn⟩
  | case10 => simp at h
  | case11 => contradiction
  | case12 => simp at h
  | case13 => contradiction
  | case14 cur m cs hlen target hn hcs links ih =>
      refine ih h ?_
      split
      · exact ⟨_, node?_nil t⟩
      · exact hd

/-- Once there is a directory at the missing name where a walk ended, the walk leads there. -/
theorem leads_of_walk_vacant (hk : RoutesKept t t')
    (hd : ∃ mode, t'.node? (dir ++ [n]) = some (.dir mode))
    (h : walk t follow links cur cs = .ok (.vacant dir n)) :
    ∃ links', Leads t' links cur cs links' (dir ++ [n]) := by
  fun_induction walk t follow links cur cs with
  | case1 => simp at h
  | case2 links cur cs ih =>
      obtain ⟨links', hl⟩ := ih h
      exact ⟨links', .root hl⟩
  | case3 links cur cs ih =>
      obtain ⟨links', hl⟩ := ih h
      exact ⟨links', .here hl⟩
  | case4 links cur cs ih =>
      obtain ⟨links', hl⟩ := ih h
      exact ⟨links', .up hl⟩
  | case5 => contradiction
  -- The walk ends in front of what is now a directory.
  | case6 links cur m hlen hn =>
      obtain ⟨rfl, rfl⟩ := Spot.vacant.inj (Except.ok.inj h)
      obtain ⟨mode, hm⟩ := hd
      exact ⟨links, .dir (Nat.le_of_not_lt hlen) hm (.done ..)⟩
  | case7 => contradiction
  | case8 => simp at h
  | case9 links cur m cs hlen mode hn hcs ih =>
      obtain ⟨links', hl⟩ := ih h
      obtain ⟨mode', hm'⟩ := hk.dirs _ _ hn
      exact ⟨links', .dir (Nat.le_of_not_lt hlen) hm' hl⟩
  | case10 => simp at h
  | case11 => contradiction
  | case12 => simp at h
  | case13 => contradiction
  | case14 cur m cs hlen target hn hcs links ih =>
      obtain ⟨links', hl⟩ := ih h
      exact ⟨links', .link (Nat.le_of_not_lt hlen) (hk.links _ _ hn) hl⟩

/-- A walk that comes to its last component has been led there. -/
theorem Leads.of_walk_concat {init : List Component} {x : Name} {s : Spot}
    (h : walk t follow links cur (init ++ [.name x]) = .ok s) :
    ∃ links' loc, Leads t links cur init links' loc := by
  -- The induction is on all components, of which `init` are those in front of the last.
  generalize hall : init ++ [.name x] = all at h
  fun_induction walk t follow links cur all generalizing init with
  | case1 => simp at hall
  | case2 links cur cs ih =>
      obtain ⟨-, hsingle⟩ | ⟨init, rfl, rfl⟩ := List.append_eq_cons_iff.mp hall
      · exact absurd hsingle (by simp)
      · obtain ⟨links', loc, hl⟩ := ih rfl h
        exact ⟨links', loc, .root hl⟩
  | case3 links cur cs ih =>
      obtain ⟨-, hsingle⟩ | ⟨init, rfl, rfl⟩ := List.append_eq_cons_iff.mp hall
      · exact absurd hsingle (by simp)
      · obtain ⟨links', loc, hl⟩ := ih rfl h
        exact ⟨links', loc, .here hl⟩
  | case4 links cur cs ih =>
      obtain ⟨-, hsingle⟩ | ⟨init, rfl, rfl⟩ := List.append_eq_cons_iff.mp hall
      · exact absurd hsingle (by simp)
      · obtain ⟨links', loc, hl⟩ := ih rfl h
        exact ⟨links', loc, .up hl⟩
  | case5 => contradiction
  | case6 links cur m hlen hn =>
      obtain ⟨rfl, -⟩ | ⟨init, rfl, hnil⟩ := List.append_eq_cons_iff.mp hall
      · exact ⟨links, cur, .done ..⟩
      · exact absurd hnil (by simp)
  | case7 => contradiction
  | case8 links cur m hlen mode hn =>
      obtain ⟨rfl, -⟩ | ⟨init, rfl, hnil⟩ := List.append_eq_cons_iff.mp hall
      · exact ⟨links, cur, .done ..⟩
      · exact absurd hnil (by simp)
  | case9 links cur m cs hlen mode hn hcs ih =>
      obtain ⟨rfl, -⟩ | ⟨init, rfl, rfl⟩ := List.append_eq_cons_iff.mp hall
      · exact ⟨links, cur, .done ..⟩
      · obtain ⟨links', loc, hl⟩ := ih rfl h
        exact ⟨links', loc, .dir (Nat.le_of_not_lt hlen) hn hl⟩
  | case10 links cur m hlen id hn =>
      obtain ⟨rfl, -⟩ | ⟨init, rfl, hnil⟩ := List.append_eq_cons_iff.mp hall
      · exact ⟨links, cur, .done ..⟩
      · exact absurd hnil (by simp)
  | case11 => contradiction
  | case12 links cur m cs hlen target hn hend =>
      obtain ⟨rfl, -⟩ | ⟨init, rfl, rfl⟩ := List.append_eq_cons_iff.mp hall
      · exact ⟨links, cur, .done ..⟩
      · exact absurd hend.1 (by simp)
  | case13 => contradiction
  | case14 cur m cs hlen target hn hend links ih =>
      obtain ⟨rfl, -⟩ | ⟨init, rfl, rfl⟩ := List.append_eq_cons_iff.mp hall
      · exact ⟨_, cur, .done ..⟩
      · obtain ⟨links', loc, hl⟩ := ih (List.append_assoc ..) h
        exact ⟨links', loc, .link (Nat.le_of_not_lt hlen) hn hl⟩

/-- A walk takes no notice of an entry that it is not asked for and that no link names. -/
theorem walk_eq_of_hidden
    (hsame : ∀ loc, isWithin (top ++ [x]) loc = false → t'.node? loc = t.node? loc)
    (hlinks : ∀ loc target, t.node? loc = some (.link target) → .name x ∉ steps target)
    (hcur : isWithin (top ++ [x]) cur = false) (hcs : .name x ∉ cs) :
    walk t' follow links cur cs = walk t follow links cur cs := by
  have hdown : ∀ {cur m} {cs : List Component}, isWithin (top ++ [x]) cur = false →
      .name x ∉ .name m :: cs → isWithin (top ++ [x]) (cur ++ [m]) = false := fun hcur hcs =>
    not_isWithin_concat hcur fun he => hcs (he ▸ List.mem_cons_self ..)
  have hroot : isWithin (top ++ [x]) [] = false := isWithin_nil (by simp)
  -- Along the walk: it is outside the entry, and no component left names the entry.
  fun_induction walk t follow links cur cs with
  | case1 links cur => rw [walk, hsame cur hcur]
  | case2 links cur cs ih =>
      rw [walk]
      exact ih hroot (List.not_mem_of_not_mem_cons hcs)
  | case3 links cur cs ih =>
      rw [walk]
      exact ih hcur (List.not_mem_of_not_mem_cons hcs)
  | case4 links cur cs ih =>
      rw [walk]
      exact ih (not_isWithin_dropLast hcur) (List.not_mem_of_not_mem_cons hcs)
  | case5 links cur m cs hlen => rw [walk, if_pos hlen]
  | case6 links cur m hlen hn =>
      rw [walk, if_neg hlen, hsame _ (hdown hcur hcs), hn]
      rfl
  | case7 links cur m cs hlen hn hcs' =>
      rw [walk, if_neg hlen, hsame _ (hdown hcur hcs), hn]
      exact if_neg hcs'
  | case8 links cur m hlen mode hn =>
      rw [walk, if_neg hlen, hsame _ (hdown hcur hcs), hn]
      rfl
  | case9 links cur m cs hlen mode hn hcs' ih =>
      rw [walk, if_neg hlen, hsame _ (hdown hcur hcs), hn]
      simp only [if_neg hcs']
      exact ih (hdown hcur hcs) (List.not_mem_of_not_mem_cons hcs)
  | case10 links cur m hlen id hn =>
      rw [walk, if_neg hlen, hsame _ (hdown hcur hcs), hn]
      rfl
  | case11 links cur m cs hlen id hn hcs' =>
      rw [walk, if_neg hlen, hsame _ (hdown hcur hcs), hn]
      exact if_neg hcs'
  | case12 links cur m cs hlen target hn hend =>
      rw [walk, if_neg hlen, hsame _ (hdown hcur hcs), hn]
      exact if_pos hend
  | case13 cur m cs hlen target hn hend =>
      rw [walk, if_neg hlen, hsame _ (hdown hcur hcs), hn]
      exact if_neg hend
  | case14 cur m cs hlen target hn hend links ih =>
      rw [walk, if_neg hlen, hsame _ (hdown hcur hcs), hn]
      simp only [if_neg hend]
      refine ih ?_ ?_
      · split
        · exact hroot
        · exact hcur
      · rw [List.mem_append, not_or]
        exact ⟨hlinks _ _ hn, List.not_mem_of_not_mem_cons hcs⟩

/-! ### Paths -/

/-- What it takes for a path to lead to a directory. -/
theorem isDir_iff : t.isDir cwd p = true ↔ p.refusal? = none ∧ ∃ loc mode,
    walk t true maxLinks (p.start cwd) (steps p) = .ok (.found loc (.dir mode)) := by
  rw [isDir, Tree.lookup, resolve_eq]
  cases p.refusal? with
  | some e => simp
  | none =>
      simp only [true_and]
      cases walk t true maxLinks (p.start cwd) (steps p) with
      | error e => simp
      | ok s =>
          cases s with
          | vacant dir n => simp
          | found loc n => cases n <;> simp

theorem dir_start (hd : ∃ mode, t.node? cwd = some (.dir mode)) (p : Path) :
    ∃ mode, t.node? (p.start cwd) = some (.dir mode) := by
  rw [Path.start]
  split
  · exact ⟨_, node?_nil t⟩
  · exact hd

namespace Reaches

theorem unique {top' : Location} (h : Reaches t cwd p top) (h' : Reaches t cwd p top') :
    top = top' := by
  obtain ⟨_, hl⟩ := h.leads
  obtain ⟨_, hl'⟩ := h'.leads
  exact hl.unique hl'

/-- A path without octets leads nowhere else. -/
theorem of_nil (hp : p.bytes = []) (hd : ∃ mode, t.node? cwd = some (.dir mode)) :
    Reaches t cwd p cwd := by
  have hmoves : p.moves = [] := by
    rw [Path.moves, hp]
    rfl
  have hstart : p.start cwd = cwd := by
    rw [Path.start, Path.isAbsolute, hp]
    rfl
  refine ⟨⟨maxLinks, ?_⟩, hd⟩
  rw [hmoves, hstart]
  exact .done ..

theorem of_isDir (hc : t.Closed) (hd : ∃ mode, t.node? (p.start cwd) = some (.dir mode))
    (h : t.isDir cwd p = true) : ∃ loc, Reaches t cwd p loc := by
  obtain ⟨-, loc, mode, hw⟩ := isDir_iff.mp h
  obtain ⟨links, hl⟩ := leads_of_walk hw
  exact ⟨loc, leads_moves_of_leads_steps hl, mode, node?_of_walk_found hc hw hd⟩

/-- A directory that has just been made is where its path leads. -/
theorem of_mkdir {mode : Mode} (hc : t.Closed)
    (hd : ∃ mode, t.node? (p.start cwd) = some (.dir mode))
    (h : t.mkdir cwd p mode = .ok t') :
    t'.Closed ∧ ∃ loc, t.node? loc = none ∧ t' = t.put loc (.dir (umasked mode)) ∧
      Reaches t' cwd p loc := by
  have hnew := newDirs_of_mkdir h
  obtain ⟨dir, n, hr, rfl⟩ := mkdir_eq_ok h
  have hnone := node?_of_resolve_vacant hr
  rw [resolve_eq] at hr
  split at hr
  · contradiction
  · have hstart : (trimSlashes p).start cwd = p.start cwd := by
      rw [Path.start, Path.start, isAbsolute_trimSlashes]
    have hdir := dir_of_walk_vacant hc hr (hstart ▸ hd)
    have hput : ∃ mode', (t.put (dir ++ [n]) (.dir (umasked mode))).node? (dir ++ [n]) =
        some (.dir mode') := ⟨_, node?_put_self _ _ (by simp)⟩
    obtain ⟨links, hl⟩ := leads_of_walk_vacant hnew.routesKept hput hr
    obtain ⟨links', hl'⟩ := leads_moves_of_leads_steps hl
    have hreach : Reaches _ cwd (trimSlashes p) (dir ++ [n]) := ⟨⟨links', hl'⟩, hput⟩
    exact ⟨hc.put hdir hnone, dir ++ [n], hnone, rfl,
      hreach.of_moves (moves_trimSlashes p).symm (isAbsolute_trimSlashes p).symm⟩

/-- A path of one more name can be resolved only in a directory. -/
theorem of_resolve {q : Path} {n : Name} {s : Spot} (hc : t.Closed)
    (hd : ∃ mode, t.node? (p.start cwd) = some (.dir mode)) (hq : Path.Extends p [n] q)
    (h : t.resolve cwd follow q = .ok s) :
    ∃ top, Reaches t cwd p top := by
  rw [resolve_eq] at h
  split at h
  · contradiction
  · rw [(hq.last (List.cons_ne_nil _ _)).1, hq.moves_eq] at h
    obtain ⟨links, top, hl⟩ := Leads.of_walk_concat h
    have hstart := Path.start_eq hq.isAbsolute_eq cwd
    rw [hstart] at hl
    exact ⟨top, ⟨links, hl⟩, hl.dir_of_closed hc hd⟩
theorem isDir (h : Reaches t cwd p top) (hp : p.refusal? = none) : t.isDir cwd p = true := by
  obtain ⟨links, hl⟩ := h.leads_steps
  obtain ⟨mode, hm⟩ := h.dir
  exact isDir_iff.mpr ⟨hp, top, mode, hl.walk_dir hm⟩

end Reaches

/-- A path to a directory leads to one as long as no way is lost. -/
theorem isDir_mono (hk : RoutesKept t t') (hc : t'.Closed)
    (hd : ∃ mode, t'.node? (p.start cwd) = some (.dir mode)) (h : t.isDir cwd p = true) :
    t'.isDir cwd p = true := by
  obtain ⟨hp, loc, mode, hw⟩ := isDir_iff.mp h
  obtain ⟨links, hl⟩ := leads_of_walk hw
  have hl' := hl.mono hk
  obtain ⟨mode', hm⟩ := hl'.dir_of_closed hc hd
  exact isDir_iff.mpr ⟨hp, loc, mode', hl'.walk_dir hm⟩

/-- What a path leads to is the same beside an entry of another name that no link names. -/
theorem lookup_eq_of_hidden {q : Path} {m : Name} (h : Reaches t cwd p top)
    (hk : RoutesKept t t') (hq : Path.Extends p [m] q) (hne : m ≠ x)
    (hsame : ∀ loc, isWithin (top ++ [x]) loc = false → t'.node? loc = t.node? loc)
    (hlinks : ∀ loc target, t.node? loc = some (.link target) → .name x ∉ steps target) :
    t'.lookup cwd follow q = t.lookup cwd follow q := by
  obtain ⟨links, hl⟩ := h.leads
  have hsteps : steps q = p.moves ++ [.name m] := by
    rw [(hq.last (List.cons_ne_nil _ _)).1, hq.moves_eq]
    rfl
  have hstart := Path.start_eq hq.isAbsolute_eq cwd
  have hwalk : walk t' follow maxLinks (q.start cwd) (steps q) =
      walk t follow maxLinks (q.start cwd) (steps q) := by
    rw [hsteps, hstart, (hl.mono hk).walk_append (List.cons_ne_nil _ _),
      hl.walk_append (List.cons_ne_nil _ _)]
    exact walk_eq_of_hidden hsame hlinks (not_isWithin_entry top x) (by simpa using hne.symm)
  rw [Tree.lookup, Tree.lookup, resolve_eq, resolve_eq, hwalk]

end Tree

/-- The world has a tree as file systems have them, and is in a directory of it. -/
structure World.IsSound {σ : Type} (w : World σ) : Prop where
  closed : w.tree.Closed
  cwd : ∃ mode, w.tree.node? w.cwd = some (.dir mode)

theorem Tree.node?_empty {loc : Location} (h : loc ≠ []) : Tree.empty.node? loc = none := by
  rw [node?_eq_get? _ h]
  rfl

def bareWorld : World Unit := World.fresh Tree.empty [] .empty 1 ()

theorem isSound_bareWorld : bareWorld.IsSound :=
  ⟨fun _ _ hn => absurd (Tree.node?_empty (by simp)) hn, _, rfl⟩

end LlvmBootstrap
