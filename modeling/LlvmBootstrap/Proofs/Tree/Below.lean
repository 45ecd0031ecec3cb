import LlvmBootstrap.Proofs.Tree.Walk

/-!
What each call does at a path that leads straight down from a directory. All that counts of the
tree is `arrive`: what stands at the end of the way down, or why the way is not open.
-/

namespace LlvmBootstrap.Tree

variable {t : Tree} {cwd top : Location} {p : Path} {ns : List Name}

/-! ### Parts of a walk below -/

theorem node?_of_arrive {found : Option Node} (hne : ns ≠ [])
    (h : t.arrive top p ns = .ok found) :
    t.node? (top ++ ns) = found := by
  unfold arrive at h
  split at h
  · contradiction
  · exact (descend_eq_ok hne h).1

/-- One name down nothing can be in the way. -/
theorem arrive_single_iff {n : Name} {found : Option Node} :
    t.arrive top p [n] = .ok found ↔
      p.refusal? = none ∧ n.length ≤ maxName ∧ t.node? (top ++ [n]) = found := by
  rw [arrive]
  cases p.refusal? with
  | some e => simp
  | none =>
      simp only [descend, if_true]
      by_cases hlong : maxName < n.length
      · simp [hlong, Nat.not_le_of_lt hlong]
      · simp [hlong, Nat.le_of_not_lt hlong]

theorem append_dropLast_concat (top : Location) (hne : ns ≠ []) :
    top ++ ns.dropLast ++ [ns.getLast?.getD []] = top ++ ns := by
  rw [List.getLast?_eq_some_getLast hne, Option.getD_some, List.append_assoc,
    List.dropLast_concat_getLast]

theorem trimSlashes_of_getLast? (h : p.bytes.getLast? ≠ some Path.slash) :
    trimSlashes p = p := by
  unfold trimSlashes
  split
  · rfl
  · cases hr : p.bytes.reverse with
    | nil => simp_all
    | cons b bs =>
        have hb : p.bytes.getLast? = some b := by
          rw [← List.head?_reverse, hr, List.head?_cons]
        have hslash : b ≠ Path.slash := fun he => h (he ▸ hb)
        rw [List.dropWhile_cons_of_neg (by simpa using hslash), ← hr, List.reverse_reverse]

/-- A path that ends in a name has no separator at its end. -/
theorem trimSlashes_of_steps {lead : List Component} (hne : ns ≠ [])
    (h : steps p = lead ++ ns.map .name) : trimSlashes p = p := by
  refine trimSlashes_of_getLast? fun hslash => ?_
  have hlast : (steps p).getLast? = some .here := by
    rw [steps, if_pos (.inl hslash), List.getLast?_concat]
  rw [h, List.getLast?_append, List.getLast?_map, List.getLast?_eq_some_getLast hne] at hlast
  simp at hlast

/-- The moves of a path without what stands for a separator at its end. -/
theorem exists_bytes_eq_trimSlashes (p : Path) :
    ∃ k, p.bytes = (trimSlashes p).bytes ++ List.replicate k Path.slash := by
  unfold trimSlashes
  split
  · exact ⟨0, (List.append_nil _).symm⟩
  · refine ⟨(p.bytes.reverse.takeWhile (· = Path.slash)).length, ?_⟩
    have htake : p.bytes.reverse.takeWhile (· = Path.slash) =
        List.replicate (p.bytes.reverse.takeWhile (· = Path.slash)).length Path.slash :=
      List.eq_replicate_of_mem fun b hb =>
        of_decide_eq_true (List.all_eq_true.mp List.all_takeWhile b hb)
    rw [← List.reverse_replicate, ← htake, ← List.reverse_append,
      List.takeWhile_append_dropWhile, List.reverse_reverse]

theorem trimSlashes_ne_nil (hp : p.bytes ≠ []) : (trimSlashes p).bytes ≠ [] := by
  intro hnil
  obtain ⟨k, hk⟩ := exists_bytes_eq_trimSlashes p
  have hall : p.bytes.all (· = Path.slash) = true := by
    rw [hk, hnil]
    simp
  rw [trimSlashes, if_pos hall] at hnil
  exact hp hnil

theorem pieces_append_replicate (bs : Bytes) (k : Nat) :
    Path.pieces (bs ++ List.replicate k Path.slash) =
      Path.pieces bs ++ List.replicate k [] := by
  induction k with
  | zero => simp
  | succ k ih =>
      rw [List.replicate_succ', ← List.append_assoc, Path.pieces_append_slash, ih, Path.pieces,
        List.replicate_succ', List.append_assoc]

theorem moves_trimSlashes (p : Path) : (trimSlashes p).moves = p.moves := by
  obtain ⟨k, hk⟩ := exists_bytes_eq_trimSlashes p
  rw [Path.moves, Path.moves, hk, pieces_append_replicate, List.filterMap_append,
    List.filterMap_replicate_of_none rfl, List.append_nil]

theorem isAbsolute_trimSlashes (p : Path) : (trimSlashes p).isAbsolute = p.isAbsolute := by
  obtain ⟨k, hk⟩ := exists_bytes_eq_trimSlashes p
  by_cases hnil : (trimSlashes p).bytes = []
  · have hall : p.bytes.all (· = Path.slash) = true := by
      rw [hk, hnil, List.nil_append]
      simp
    rw [trimSlashes, if_pos hall]
  · obtain ⟨b, bs, hb⟩ := List.exists_cons_of_ne_nil hnil
    rw [Path.isAbsolute, Path.isAbsolute, hk, hb]
    rfl

/-! ### Ways to a directory -/

/-- The way along all that a path asks for, from that along its steps. -/
theorem leads_moves_of_leads_steps {links links' : Nat} {cur loc : Location}
    (h : Leads t links cur (steps p) links' loc) :
    ∃ links'', Leads t links cur p.moves links'' loc := by
  rcases Path.steps_eq_moves_or p with hs | hs
  · exact ⟨links', hs ▸ h⟩
  · rw [hs] at h
    obtain ⟨links'', loc'', hl, hrest⟩ := h.of_append
    cases hrest with
    | here hrest =>
        cases hrest
        exact ⟨_, hl⟩

structure Reaches (t : Tree) (cwd : Location) (p : Path) (top : Location) : Prop where
  leads : ∃ links, Leads t maxLinks (p.start cwd) p.moves links top
  dir : ∃ mode, t.node? top = some (.dir mode)

namespace Reaches

theorem mono {t' : Tree} (hk : RoutesKept t t') (h : Reaches t cwd p top) :
    Reaches t' cwd p top := by
  obtain ⟨links, hl⟩ := h.leads
  obtain ⟨mode, hm⟩ := h.dir
  exact ⟨⟨links, hl.mono hk⟩, hk.dirs _ _ hm⟩

theorem leads_steps (h : Reaches t cwd p top) :
    ∃ links, Leads t maxLinks (p.start cwd) (steps p) links top := by
  obtain ⟨links, hl⟩ := h.leads
  rcases Path.steps_eq_moves_or p with hs | hs
  · exact ⟨links, hs ▸ hl⟩
  · exact ⟨links, hs ▸ hl.append (.here (.done ..))⟩

/-- Another path that asks for the same leads to the same place. -/
theorem of_moves {q : Path} (h : Reaches t cwd p top) (hm : q.moves = p.moves)
    (ha : q.isAbsolute = p.isAbsolute) : Reaches t cwd q top := by
  obtain ⟨links, hl⟩ := h.leads
  refine ⟨⟨links, ?_⟩, h.dir⟩
  rw [hm, Path.start, ha]
  exact hl

theorem below {q : Path} (h : Reaches t cwd p top) (hq : Path.Extends p ns q) (hne : ns ≠ [])
    (hu : Unlinked t top ns.dropLast) : Below t cwd top q ns := by
  obtain ⟨links, hl⟩ := h.leads
  refine ⟨⟨p.moves, links, ?_, ?_⟩, hne, hu⟩
  · rw [(hq.last hne).1, hq.moves_eq]
  · rw [Path.start, hq.isAbsolute_eq]
    exact hl

/-- An entry that is a directory is where the path goes with its name behind it. -/
theorem entry {q : Path} {n : Name} {mode : Mode} (h : Reaches t cwd p top)
    (hq : Path.Extends p [n] q) (hshort : n.length ≤ maxName)
    (hn : t.node? (top ++ [n]) = some (.dir mode)) : Reaches t cwd q (top ++ [n]) := by
  obtain ⟨links, hl⟩ := h.leads
  refine ⟨⟨links, ?_⟩, mode, hn⟩
  rw [hq.moves_eq, Path.start, hq.isAbsolute_eq]
  exact hl.append (.dir hshort hn (.done ..))

/-- The way to an entry. -/
theorem belowEntry {q : Path} {n : Name} (h : Reaches t cwd p top)
    (hq : Path.Extends p [n] q) :
    Below t cwd top q [n] :=
  h.below hq (List.cons_ne_nil _ _) (unlinked_nil t top)

theorem lookup (h : Reaches t cwd p top) : t.lookup cwd true p = match p.refusal? with
    | some e => .error e
    | none => .ok (top, (t.node? top).getD (.dir 0o755)) := by
  obtain ⟨links, hl⟩ := h.leads_steps
  obtain ⟨mode, hm⟩ := h.dir
  rw [Tree.lookup, resolve_eq]
  cases p.refusal? with
  | some e => rfl
  | none =>
      simp only
      rw [hl.walk_dir hm, hm]
      rfl

theorem mkdir (h : Reaches t cwd p top) (mode : Mode) :
    t.mkdir cwd p mode = .error ((trimSlashes p).refusal?.getD .exists) := by
  obtain ⟨links, hl⟩ :=
    (h.of_moves (moves_trimSlashes p) (isAbsolute_trimSlashes p)).leads_steps
  obtain ⟨mode', hm⟩ := h.dir
  rw [Tree.mkdir, resolve_eq]
  cases (trimSlashes p).refusal? with
  | some e => rfl
  | none =>
      simp only
      obtain ⟨loc, n, hw⟩ := hl.exists_walk hm false
      rw [hw]
      rfl

/-- A path that asks for a directory at its end is not taken for a link to one. -/
theorem lookup_here {follow : Bool} (h : Reaches t cwd p top)
    (hs : steps p = p.moves ++ [.here]) :
    t.lookup cwd follow p = match p.refusal? with
      | some e => .error e
      | none => .ok (top, (t.node? top).getD (.dir 0o755)) := by
  obtain ⟨links, hl⟩ := h.leads
  rw [Tree.lookup, resolve_eq]
  cases p.refusal? with
  | some e => rfl
  | none =>
      simp only
      rw [hs, hl.walk_append (List.cons_ne_nil _ _), walk, walk]

theorem mkdir_ne_notFound (h : Reaches t cwd p top) (hp : p.bytes ≠ []) (mode : Mode) :
    t.mkdir cwd p mode ≠ .error .notFound := by
  have hr := Path.refusal?_ne_notFound (trimSlashes_ne_nil hp)
  rw [h.mkdir]
  cases hp : (trimSlashes p).refusal? with
  | none => simp
  | some e =>
      intro he
      exact hr (hp.trans (congrArg some (Except.error.inj he)))

end Reaches

theorem reaches_of_lookup {mode : Mode} (h : t.lookup cwd true p = .ok (top, .dir mode))
    (hd : t.node? top = some (.dir mode)) : Reaches t cwd p top ∧ p.refusal? = none := by
  rw [Tree.lookup, resolve_eq] at h
  cases hr : p.refusal? with
  | some e => simp [hr] at h
  | none =>
      rw [hr] at h
      simp only at h
      split at h
      · rename_i loc n hw
        obtain ⟨rfl, rfl⟩ := Prod.mk.inj (Except.ok.inj h)
        refine ⟨⟨?_, mode, hd⟩, rfl⟩
        obtain ⟨links, hl⟩ := leads_of_walk hw
        exact leads_moves_of_leads_steps hl
      · contradiction
      · contradiction

theorem Reaches.copyFile {src : Path} (h : Reaches t cwd src top) :
    t.copyFile cwd src p = .error (src.refusal?.getD .notRegular) := by
  obtain ⟨mode, hm⟩ := h.dir
  rw [Tree.copyFile, h.lookup, hm]
  cases src.refusal? <;> rfl

/-! ### Calls below a directory -/

namespace Below

theorem trimSlashes_eq (h : Below t cwd top p ns) : trimSlashes p = p := by
  obtain ⟨lead, _, hsteps, _⟩ := h.route
  exact trimSlashes_of_steps h.ne_nil hsteps

theorem resolve_false (h : Below t cwd top p ns) :
    t.resolve cwd false p = (t.arrive top p ns).map (spotBelow top ns) :=
  h.resolve fun hf => absurd hf Bool.false_ne_true

/-! ### Looking -/

theorem lookup {follow : Bool} (h : Below t cwd top p ns)
    (hlast : follow = true → ∀ target, t.node? (top ++ ns) ≠ some (.link target)) :
    t.lookup cwd follow p = match t.arrive top p ns with
      | .error e => .error e
      | .ok none => .error .notFound
      | .ok (some n) => .ok (top ++ ns, n) := by
  rw [Tree.lookup, h.resolve hlast]
  rcases t.arrive top p ns with e | found
  · rfl
  · cases found <;> rfl

theorem lookup_false (h : Below t cwd top p ns) :
    t.lookup cwd false p = match t.arrive top p ns with
      | .error e => .error e
      | .ok none => .error .notFound
      | .ok (some n) => .ok (top ++ ns, n) :=
  h.lookup fun hf => absurd hf Bool.false_ne_true

/-! ### Making something -/

theorem mkdir (h : Below t cwd top p ns) (mode : Mode) :
    t.mkdir cwd p mode = match t.arrive top p ns with
      | .error e => .error e
      | .ok (some _) => .error .exists
      | .ok none => .ok (t.put (top ++ ns) (.dir (umasked mode))) := by
  rw [Tree.mkdir, h.trimSlashes_eq, h.resolve_false]
  rcases t.arrive top p ns with e | found
  · rfl
  · cases found with
    | some n => rfl
    | none =>
        rw [← append_dropLast_concat top h.ne_nil]
        rfl

theorem eq_of_mkdir {t' : Tree} {mode : Mode} (h : Below t cwd top p ns)
    (hok : t.mkdir cwd p mode = .ok t') :
    t.arrive top p ns = .ok none ∧ t' = t.put (top ++ ns) (.dir (umasked mode)) := by
  rw [h.mkdir] at hok
  split at hok
  · contradiction
  · contradiction
  · rename_i ha
    exact ⟨ha, (Except.ok.inj hok).symm⟩

/-- Right below a directory nothing is missing on the way. -/
theorem mkdir_ne_notFound {n : Name} (h : Below t cwd top p [n]) (hp : p.bytes ≠ [])
    (mode : Mode) :
    t.mkdir cwd p mode ≠ .error .notFound := by
  rw [h.mkdir, arrive]
  have hr := Path.refusal?_ne_notFound hp
  cases hp : p.refusal? with
  | some e =>
      intro he
      exact hr (hp.trans (congrArg some (Except.error.inj he)))
  | none =>
      simp only
      rw [descend]
      by_cases hlong : maxName < n.length
      · simp [hlong]
      · rw [if_neg hlong, if_pos rfl]
        cases t.node? (top ++ [n]) <;> simp

theorem createNew (h : Below t cwd top p ns) (content : Bytes) :
    t.createNew cwd p content = match t.arrive top p ns with
      | .error e => .error e
      | .ok (some _) => .error .exists
      | .ok none => .ok ((t.addBody ⟨umasked 0o666, content⟩).2.put (top ++ ns)
          (.file t.bodies.length)) := by
  rw [Tree.createNew, h.resolve_false]
  rcases t.arrive top p ns with e | found
  · rfl
  · cases found with
    | some n => rfl
    | none =>
        rw [← append_dropLast_concat top h.ne_nil]
        rfl

theorem openFile (h : Below t cwd top p ns) (mode : Mode)
    (hlast : ∀ target, t.node? (top ++ ns) ≠ some (.link target)) :
    t.openFile cwd p mode = match t.arrive top p ns with
      | .error e => .error e
      | .ok (some (.file id)) => .ok (id, t)
      | .ok (some _) => .error .isDirectory
      | .ok none => .ok (t.bodies.length, (t.addBody ⟨umasked mode, []⟩).2.put (top ++ ns)
          (.file t.bodies.length)) := by
  rw [Tree.openFile, h.resolve fun _ => hlast]
  cases ha : t.arrive top p ns with
  | error e => rfl
  | ok found =>
      cases found with
      | some n =>
          cases n with
          | dir mode => rfl
          | file id => rfl
          | link target => exact absurd (node?_of_arrive h.ne_nil ha) (hlast target)
      | none =>
          rw [← append_dropLast_concat top h.ne_nil]
          rfl

theorem symlink (h : Below t cwd top p ns) (target : Path) :
    t.symlink cwd target p = match target.refusal?, t.arrive top p ns with
      | some e, _ => .error e
      | none, .error e => .error e
      | none, .ok (some _) => .error .exists
      | none, .ok none => .ok (t.put (top ++ ns) (.link target)) := by
  rw [Tree.symlink, h.resolve_false]
  unfold Path.refusal?
  by_cases hzero : 0 ∈ target.bytes
  · rw [if_pos hzero, if_pos hzero]
    rfl
  · rw [if_neg hzero, if_neg hzero]
    by_cases hnil : target.bytes = []
    · rw [if_pos hnil]
      simp only [hnil]
      rfl
    · by_cases hlong : maxPath < target.bytes.length
      · simp only [if_neg hnil, if_pos hlong]
        rfl
      · simp only [if_neg hnil, if_neg hlong]
        rcases t.arrive top p ns with e | found
        · rfl
        · cases found with
          | some n => rfl
          | none =>
              rw [← append_dropLast_concat top h.ne_nil]
              rfl

theorem link {src : Path} {ns' : List Name} (h' : Below t cwd top src ns')
    (h : Below t cwd top p ns) :
    t.link cwd src p = match t.arrive top src ns', t.arrive top p ns with
      | .error e, _ => .error e
      | .ok none, _ => .error .notFound
      | .ok (some _), .error e => .error e
      | .ok (some _), .ok (some _) => .error .exists
      | .ok (some (.dir _)), .ok none => .error .notPermitted
      | .ok (some n), .ok none => .ok (t.put (top ++ ns) n) := by
  rw [Tree.link, h'.lookup_false, h.resolve_false]
  rcases t.arrive top src ns' with e | found'
  · rfl
  · cases found' with
    | none => rfl
    | some n' =>
        rcases t.arrive top p ns with e | found
        · rfl
        · cases found with
          | some n => cases n' <;> rfl
          | none =>
              rw [← append_dropLast_concat top h.ne_nil]
              cases n' <;> rfl

/-- There is no second name for a directory, nor a copy of one. -/
theorem link_dir {src : Path} (h' : Reaches t cwd src top)
    (hs : steps src = src.moves ++ [.here]) (h : Below t cwd top p ns) :
    t.link cwd src p = match src.refusal?, t.arrive top p ns with
      | some e, _ => .error e
      | none, .error e => .error e
      | none, .ok (some _) => .error .exists
      | none, .ok none => .error .notPermitted := by
  obtain ⟨mode, hm⟩ := h'.dir
  rw [Tree.link, h'.lookup_here hs, h.resolve_false, hm]
  cases src.refusal? with
  | some e => rfl
  | none =>
      rcases t.arrive top p ns with e | found
      · rfl
      · cases found <;> rfl

theorem copyFile {src : Path} {ns' : List Name} (h' : Below t cwd top src ns')
    (hlast' : ∀ target, t.node? (top ++ ns') ≠ some (.link target)) :
    t.copyFile cwd src p = match t.arrive top src ns' with
      | .error e => .error e
      | .ok (some (.file source)) =>
        match t.openFile cwd p (t.mode source) with
        | .error e => .error e
        | .ok (id, t') => .ok ((t'.setContent id []).setBody id
            ⟨t.mode source, (t'.setContent id []).content source⟩)
      | .ok none => .error .notFound
      | .ok (some _) => .error .notRegular := by
  rw [Tree.copyFile, h'.lookup fun _ => hlast']
  rcases t.arrive top src ns' with e | found'
  · rfl
  · cases found' with
    | none => rfl
    | some n' =>
        cases n' with
        | dir mode => rfl
        | link target => rfl
        | file source =>
            change (t.openFile cwd p (t.mode source) >>= fun x =>
              Except.ok ((x.2.setContent x.1 []).setBody x.1
                ⟨t.mode source, (x.2.setContent x.1 []).content source⟩)) = _
            dsimp only
            rcases t.openFile cwd p (t.mode source) with e | ⟨id, t'⟩ <;> rfl

/-! ### Changing what is there -/

theorem unlink (h : Below t cwd top p ns) :
    t.unlink cwd p = match t.arrive top p ns with
      | .error e => .error e
      | .ok none => .error .notFound
      | .ok (some (.dir _)) => .error .isDirectory
      | .ok (some _) => .ok (t.remove (top ++ ns)) := by
  rw [Tree.unlink, h.lookup_false]
  rcases t.arrive top p ns with e | found
  · rfl
  · cases found with
    | none => rfl
    | some n => cases n <;> rfl

theorem chmod (h : Below t cwd top p ns) (mode : Mode)
    (hlast : ∀ target, t.node? (top ++ ns) ≠ some (.link target)) :
    t.chmod cwd p mode = match t.arrive top p ns with
      | .error e => .error e
      | .ok none => .error .notFound
      | .ok (some (.dir _)) => .ok (t.put (top ++ ns) (.dir mode))
      | .ok (some (.file id)) => .ok (t.setBody id ⟨mode, t.content id⟩)
      | .ok (some (.link _)) => .error .loop := by
  rw [Tree.chmod, h.lookup fun _ => hlast]
  rcases t.arrive top p ns with e | found
  · rfl
  · cases found with
    | none => rfl
    | some n => cases n <;> rfl

theorem removeAll (h : Below t cwd top p ns) :
    t.removeAll cwd p = match t.arrive top p ns with
      | .error e => .error e
      | .ok none => .error .notFound
      | .ok (some (.dir _)) => .ok (t.prune (top ++ ns))
      | .ok (some (.file _)) => .error .notDirectory
      | .ok (some (.link _)) => .ok (t.remove (top ++ ns)) := by
  rw [Tree.removeAll, h.lookup_false]
  rcases t.arrive top p ns with e | found
  · rfl
  · cases found with
    | none => rfl
    | some n => cases n <;> rfl

/-- Moving an entry of a directory to another one. -/
theorem renameDir {src : Path} {n m : Name} {mode : Mode} (h' : Below t cwd top src [n])
    (h : Below t cwd top p [m]) (hne : n ≠ m)
    (ha : t.arrive top src [n] = .ok (some (.dir mode))) :
    t.renameDir cwd src p = match t.arrive top p [m] with
      | .error e => .error e
      | .ok none => .ok (t.move (top ++ [n]) (top ++ [m]))
      | .ok (some (.dir _)) =>
        if t.isVacantBelow (top ++ [m]) then .ok (t.move (top ++ [n]) (top ++ [m]))
        else .error .notEmpty
      | .ok (some _) => .error .notDirectory := by
  have hother : top ++ [m] ≠ top ++ [n] := by
    intro he
    exact hne (List.cons.inj (List.append_cancel_left he)).1.symm
  -- The new place is an entry beside the old one, so it is not within what is moved.
  have hwithin : isWithin (top ++ [n]) (top ++ [m]) = false := isWithin_sibling hne
  rw [Tree.renameDir, h'.lookup_false, ha, h.trimSlashes_eq, h.resolve_false]
  rcases t.arrive top p [m] with e | found
  · rfl
  · cases found with
    | none =>
        change (if isWithin (top ++ [n]) (top ++ []) then _ else
          Except.ok (t.move (top ++ [n]) (top ++ [] ++ [m]))) = _
        rw [List.append_nil, not_isWithin_entry]
        rfl
    | some node =>
        cases node with
        | dir mode' =>
            change (if top ++ [m] = top ++ [n] then _ else _) = _
            rw [if_neg hother, hwithin]
            by_cases hv : t.isVacantBelow (top ++ [m]) = true
            · rw [hv]
              rfl
            · rw [Bool.not_eq_true] at hv
              rw [hv]
              rfl
        | file id => rfl
        | link target => rfl

end Below

end LlvmBootstrap.Tree
