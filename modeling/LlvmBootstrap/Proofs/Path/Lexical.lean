import LlvmBootstrap.Proofs.Path.Above
import LlvmBootstrap.Proofs.Path.Escaping
import LlvmBootstrap.Proofs.Tree.Visits

/-!
Resolving `..` in the text of a path is resolving it in the tree, as long as no links are met.
The walk keeps the names it has gone down as a stack, just as `normalizeFrom` does: a name is
one more directory, and `..` is the directory before. So where every part of the way is there,
a path leads to the place of the names that are left of it, and on the way there it is never
above the directory it started from.
-/

namespace LlvmBootstrap

namespace Path

variable {p : Path} {stack ns : List Name} {cs ds : List Component}

theorem normalizeFrom_append (stack : List Name) (cs ds : List Component) :
    normalizeFrom stack (cs ++ ds) =
      (normalizeFrom stack cs).bind fun ns => normalizeFrom ns.reverse ds := by
  fun_induction normalizeFrom stack cs with
  | case1 stack => simp
  | case2 stack n cs ih => exact ih
  | case3 stack cs ih => exact ih
  | case4 cs => rfl
  | case5 cs top below ih => exact ih
  | case6 => rfl

theorem isAbsolute_of_normalize? (h : p.normalize? = some ns) : p.isAbsolute = false := by
  rw [← Bool.not_eq_true]
  intro habs
  rw [normalize?_eq_none_iff.mpr (.inl habs)] at h
  contradiction

/-- A leading `.` and one at the end say nothing. -/
theorem normalizeFrom_moves (h : p.isAbsolute = false) :
    normalizeFrom [] p.moves = p.normalize? := by
  obtain ⟨lead, hlead, hcomps⟩ := components_eq p
  rw [normalize?, hcomps]
  rcases hlead with ⟨-, habs⟩ | ⟨rfl, -⟩ | ⟨rfl, -⟩
  · rw [h] at habs
    contradiction
  · rfl
  · rfl

theorem normalizeFrom_steps (h : p.isAbsolute = false) :
    normalizeFrom [] (Tree.steps p) = p.normalize? := by
  rw [← normalizeFrom_moves h]
  rcases steps_eq_moves_or p with hs | hs
  · rw [hs]
  · rw [hs, normalizeFrom_append]
    cases hm : normalizeFrom [] p.moves with
    | none => rfl
    | some ns => simp [normalizeFrom]

theorem moves_ofNames (h : ∀ n ∈ ns, IsPlain n) : (ofNames ns).moves = ns.map .name := by
  by_cases hne : ns = []
  · subst hne
    rfl
  · rw [moves, pieces_ofNames hne fun n hn => (h n hn).not_slash,
      filterMap_component?_of_isPlain h]

theorem steps_ofNames (h : ∀ n ∈ ns, IsPlain n) : Tree.steps (ofNames ns) = ns.map .name := by
  by_cases hne : ns = []
  · subst hne
    rfl
  · have hlast : (pieces (ofNames ns).bytes).getLast? = some (ns.getLast hne) := by
      rw [pieces_ofNames hne fun n hn => (h n hn).not_slash, List.getLast?_eq_some_getLast hne]
    rw [steps_eq_moves hlast (h _ (List.getLast_mem hne)), moves_ofNames h]

/-- The names that are left are a path with nothing to resolve. -/
theorem components_ofNames (h : ∀ n ∈ ns, IsPlain n) :
    (ofNames ns).components = ns.map .name := by
  cases ns with
  | nil => rfl
  | cons n rest =>
      have hn := h n (List.mem_cons_self ..)
      have hpieces := pieces_ofNames (List.cons_ne_nil n rest) fun m hm => (h m hm).not_slash
      have hrest := filterMap_component?_of_isPlain fun m hm => h m (List.mem_cons_of_mem n hm)
      rw [components, hpieces]
      dsimp only
      rw [isAbsolute_ofNames h, if_neg Bool.false_ne_true, if_neg hn.ne_dot,
        component?_of_isPlain hn, hrest]
      rfl

theorem normalize?_ofNames (h : ∀ n ∈ ns, IsPlain n) : (ofNames ns).normalize? = some ns := by
  rw [← normalizeFrom_moves (isAbsolute_ofNames h), moves_ofNames h, normalizeFrom_names]
  rfl

/-- A path may be resolved before another one is put behind it. -/
theorem normalize?_join (h : p.normalize? = some ns) (q : Path) :
    (p / q).normalize? = (ofNames ns / q).normalize? := by
  have hplain := isPlain_of_normalize? h
  have habs := isAbsolute_of_normalize? h
  cases hq : q.isAbsolute with
  | true => rw [join_of_isAbsolute hq, join_of_isAbsolute hq]
  | false =>
      have hp : (p / q).isAbsolute = false := (isAbsolute_join p hq).trans habs
      have hn : (ofNames ns / q).isAbsolute = false :=
        (isAbsolute_join _ hq).trans (isAbsolute_ofNames hplain)
      rw [← normalizeFrom_moves hp, ← normalizeFrom_moves hn, moves_join p hq, moves_join _ hq,
        normalizeFrom_append, normalizeFrom_append, normalizeFrom_moves habs, h,
        moves_ofNames hplain,
        normalizeFrom_names]
      rfl

/-! ### Behind another path -/

/-- The last piece is empty only behind a separator. -/
theorem getLast?_eq_slash {bs : Bytes} (h : (pieces bs).getLast? = some []) (hne : bs ≠ []) :
    bs.getLast? = some slash := by
  induction bs with
  | nil => contradiction
  | cons b bs ih =>
      have hrest : (pieces bs).getLast? = some [] → (b = slash ∨ bs ≠ []) →
          (b :: bs).getLast? = some slash := by
        rintro hlast (rfl | hbs)
        · by_cases hbs : bs = []
          · rw [hbs]
            rfl
          · rw [List.getLast?_cons_of_ne_nil hbs, ih hlast hbs]
        · rw [List.getLast?_cons_of_ne_nil hbs, ih hlast hbs]
      by_cases hb : b = slash
      · rw [hb, pieces_cons_slash, List.getLast?_cons_of_ne_nil (pieces_ne_nil bs)] at h
        exact hrest h (.inl hb)
      · obtain ⟨first, rest, hp⟩ := List.exists_cons_of_ne_nil (pieces_ne_nil bs)
        rw [pieces_cons_of_ne hb, hp, List.headD_cons, List.tail_cons] at h
        cases rest with
        | nil => simp at h
        | cons m ms =>
            refine hrest (by rwa [hp]) (.inr ?_)
            rintro rfl
            simp [pieces] at hp

/-- A path that is written at all asks for a step. -/
theorem steps_ne_nil (hne : p.bytes ≠ []) : Tree.steps p ≠ [] := by
  intro hnil
  obtain ⟨hmoves, hend⟩ := List.append_eq_nil_iff.mp hnil
  have hlast := List.getLast?_eq_some_getLast (pieces_ne_nil p.bytes)
  obtain ⟨hslash, hdot⟩ : p.bytes.getLast? ≠ some slash ∧
      (pieces p.bytes).getLast? ≠ some dot := by
    simpa using hend
  have hnone : component? ((pieces p.bytes).getLast (pieces_ne_nil p.bytes)) = none :=
    List.filterMap_eq_nil_iff.mp hmoves _ (List.getLast_mem _)
  unfold component? at hnone
  split at hnone
  · rename_i hempty
    rcases hempty with hempty | hempty
    · exact hslash (getLast?_eq_slash (hempty ▸ hlast) hne)
    · exact hdot (hempty ▸ hlast)
  · split at hnone <;> contradiction

/-- The steps behind another path are the steps of the path itself. -/
theorem steps_join (base : Path) (habs : p.isAbsolute = false) (hne : p.bytes ≠ []) :
    Tree.steps (base / p) = base.moves ++ Tree.steps p := by
  have hlast : (base / p).bytes.getLast? = p.bytes.getLast? := by
    rcases bytes_join_of_not_isAbsolute base habs with ⟨hb, -⟩ | ⟨hb, -⟩
    · rw [hb, List.getLast?_append_of_ne_nil _ hne]
    · rw [hb, List.getLast?_append_of_ne_nil _ (List.cons_ne_nil _ _),
        List.getLast?_cons_of_ne_nil hne]
  have hmoves := moves_join base habs
  rw [moves, moves, moves] at hmoves
  rw [Tree.steps, Tree.steps, hlast, getLast?_pieces_join base habs, hmoves, List.append_assoc]
  rfl

/-- The names that are left are among those that the components give. -/
theorem sublist_of_normalizeFrom (h : normalizeFrom stack cs = some ns) :
    (ns.map Component.name).Sublist (stack.reverse.map .name ++ cs) := by
  fun_induction normalizeFrom stack cs with
  | case1 stack =>
      rw [← Option.some.inj h, List.append_nil]
  | case2 stack n cs ih =>
      have hsub := ih h
      rwa [List.reverse_cons, List.map_append, List.append_assoc] at hsub
  | case3 stack cs ih =>
      exact (ih h).trans ((List.Sublist.refl _).append (List.sublist_cons_self ..))
  | case4 cs => contradiction
  | case5 cs top below ih =>
      refine (ih h).trans (List.Sublist.append ?_ (List.sublist_cons_self ..))
      rw [List.reverse_cons, List.map_append]
      exact List.sublist_append_left ..
  | case6 => contradiction

/-- What is left of a path is written with octets of the path, and no more of them. -/
theorem ofNames_le (h : p.normalize? = some ns) :
    (ofNames ns).bytes.length ≤ p.bytes.length ∧ (0 ∈ (ofNames ns).bytes → 0 ∈ p.bytes) := by
  by_cases hne : ns = []
  · subst hne
    exact ⟨Nat.zero_le _, nofun⟩
  · have hplain := isPlain_of_normalize? h
    have hpieces := pieces_ofNames hne fun n hn => (hplain n hn).not_slash
    have hsub : (pieces (ofNames ns).bytes).Sublist (pieces p.bytes) := by
      have htext := ((sublist_of_normalizeFrom h).map ofComponents.text).trans
        (text_components_sublist p)
      rw [List.map_map] at htext
      rw [hpieces]
      simpa [Function.comp_def, ofComponents.text] using htext
    refine ⟨?_, fun hmem => ?_⟩
    · have hspan := span_le_of_sublist hsub
      rw [span_pieces, span_pieces] at hspan
      omega
    · have hslash : (0 : UInt8) ≠ slash := by decide
      obtain ⟨n, hn, hb⟩ := (mem_pieces_iff hslash).mp hmem
      exact (mem_pieces_iff hslash).mpr ⟨n, hsub.subset hn, hb⟩

/-- A path that the system takes it also takes with `..` resolved in it. -/
theorem refusal?_join_ofNames {base : Path} (hbase : base.bytes ≠ [])
    (h : p.normalize? = some ns) (hok : (base / p).refusal? = none) :
    (base / ofNames ns).refusal? = none := by
  obtain ⟨hlen, hzero⟩ := ofNames_le h
  have habs := isAbsolute_of_normalize? h
  have habs' := isAbsolute_ofNames (isPlain_of_normalize? h)
  -- Both paths are joined to the base with or without a slash between, and the shorter one
  -- fits where the longer does.
  obtain ⟨hmem, -, hle⟩ := refusal?_eq_none_iff.mp hok
  change 0 ∉ (base.join p).bytes at hmem
  change (base.join p).bytes.length ≤ _ at hle
  change (base.join (ofNames ns)).refusal? = none
  rw [join, habs, if_neg Bool.false_ne_true] at hmem hle
  rw [refusal?_eq_none_iff, join, habs', if_neg Bool.false_ne_true]
  split_ifs at hmem hle ⊢ with hcond
  · rw [List.mem_append, not_or] at hmem
    rw [List.length_append] at hle
    refine ⟨?_, List.append_ne_nil_of_left_ne_nil hbase _, ?_⟩
    · rw [List.mem_append, not_or]
      exact ⟨hmem.1, mt hzero hmem.2⟩
    · rw [List.length_append]
      omega
  · rw [List.mem_append, List.mem_cons, not_or, not_or] at hmem
    rw [List.length_append, List.length_cons] at hle
    refine ⟨?_, List.append_ne_nil_of_left_ne_nil hbase _, ?_⟩
    · rw [List.mem_append, List.mem_cons, not_or, not_or]
      exact ⟨hmem.1, hmem.2.1, mt hzero hmem.2.2⟩
    · rw [List.length_append, List.length_cons]
      omega

end Path

namespace Tree

variable {t : Tree} {dir : Location} {p : Path} {ns stack : List Name} {n : Name}
  {cs : List Component} (follow : Bool) (links : Nat)

/-- Each part of a way, the whole aside, leads from `dir` to a directory. -/
def Opens (t : Tree) (dir : Location) (cs : List Component) : Prop :=
  ∀ pre, pre <+: cs → pre ≠ cs →
    ∃ loc mode, t.walk true maxLinks dir pre = .ok (.found loc (.dir mode))

/-- Where some names below `dir` come to: what stands there, or the name that is missing. -/
def landing (t : Tree) (dir : Location) (ns : List Name) : Except Errno Spot :=
  if ∃ n ∈ ns.getLast?, maxName < n.length then .error .nameTooLong
  else .ok (spotBelow dir ns (t.node? (dir ++ ns)))

def Linkless (t : Tree) (dir : Location) : Prop :=
  ∀ rel target, t.node? (dir ++ rel) ≠ some (.link target)

/-- Each of some names is that of a directory in the one before, the first one in `dir`. -/
structure Trodden (t : Tree) (dir : Location) (ns : List Name) : Prop where
  short : ∀ n ∈ ns, n.length ≤ maxName
  dirs : ∀ pre, pre <+: ns → ∃ mode, t.node? (dir ++ pre) = some (.dir mode)

namespace Trodden

theorem nil (hd : ∃ mode, t.node? dir = some (.dir mode)) : Trodden t dir [] where
  short := nofun
  dirs pre hpre := by
    rw [List.prefix_nil.mp hpre, List.append_nil]
    exact hd

theorem concat (h : Trodden t dir ns) (hshort : n.length ≤ maxName)
    (hn : ∃ mode, t.node? (dir ++ (ns ++ [n])) = some (.dir mode)) :
    Trodden t dir (ns ++ [n]) where
  short m hm := by
    rcases List.mem_append.mp hm with hm | hm
    · exact h.short m hm
    · rw [List.mem_singleton.mp hm]
      exact hshort
  dirs pre hpre := by
    rcases List.prefix_concat_iff.mp hpre with rfl | hpre
    · exact hn
    · exact h.dirs pre hpre

theorem of_prefix {pre : List Name} (h : Trodden t dir ns) (hpre : pre <+: ns) :
    Trodden t dir pre :=
  ⟨fun n hn => h.short n (hpre.subset hn), fun pre' hpre' => h.dirs pre' (hpre'.trans hpre)⟩

/-- The way down along the names goes from directory to directory. -/
theorem leads (h : Trodden t dir ns) :
    Leads t links dir (ns.map .name) links (dir ++ ns) := by
  induction ns using List.reverseRecOn with
  | nil =>
      rw [List.append_nil]
      exact .done links dir
  | append_singleton ns n ih =>
      obtain ⟨mode, hmode⟩ := h.dirs _ List.prefix_rfl
      rw [← List.append_assoc] at hmode ⊢
      rw [List.map_append]
      exact (ih (h.of_prefix (List.prefix_append ..))).append
        (.dir (h.short n (by simp)) hmode (.done ..))

theorem landing_eq (h : Trodden t dir ns) :
    t.landing dir ns = .ok (.found (dir ++ ns) ((t.node? (dir ++ ns)).getD (.dir 0o755))) := by
  have hshort : ¬ ∃ n ∈ ns.getLast?, maxName < n.length := by
    rintro ⟨n, hn, hlong⟩
    exact Nat.not_lt.mpr (h.short n (List.mem_of_getLast? hn)) hlong
  obtain ⟨mode, hmode⟩ := h.dirs ns List.prefix_rfl
  rw [landing, if_neg hshort, hmode]
  rfl

end Trodden

/-- A last name that is no link's is looked for where the walk is. -/
theorem walk_last (hl : ∀ target, t.node? (dir ++ (ns ++ [n])) ≠ some (.link target)) :
    t.walk follow links (dir ++ ns) [.name n] = t.landing dir (ns ++ [n]) := by
  have hlast : (∃ m ∈ (ns ++ [n]).getLast?, maxName < m.length) ↔ maxName < n.length := by simp
  rw [walk, landing]
  simp only [hlast]
  split
  · rfl
  · rw [← List.append_assoc] at hl ⊢
    cases hn : t.node? (dir ++ ns ++ [n]) with
    | none => simp [spotBelow]
    | some node =>
        cases node with
        | link target => exact absurd hn (hl target)
        | dir mode => simp [spotBelow]
        | file id => simp [spotBelow]

/-- A walk along names comes to their place if no more than the last of them is missing. -/
theorem walk_names_eq (hl : t.Linkless dir) (h : Trodden t dir ns.dropLast) :
    t.walk follow links dir (ns.map .name) = t.landing dir ns := by
  by_cases hne : ns = []
  · subst hne
    have hland := h.landing_eq
    rw [List.dropLast_nil, List.append_nil] at hland
    rw [hland, List.map_nil, walk]
  · have hconcat := List.dropLast_concat_getLast hne
    have hlast : ∀ target, t.node? (dir ++ (ns.dropLast ++ [ns.getLast hne])) ≠
        some (.link target) :=
      hl _
    rw [← hconcat, List.map_append, List.map_singleton,
      (h.leads links).walk_append (List.cons_ne_nil _ _)]
    exact walk_last follow links hlast

namespace Opens

/-- A name that more comes behind is that of a directory. -/
theorem tail_name (h : Opens t dir (.name n :: cs)) (hne : cs ≠ [])
    (hl : ∀ target, t.node? (dir ++ [n]) ≠ some (.link target)) :
    n.length ≤ maxName ∧ (∃ mode, t.node? (dir ++ [n]) = some (.dir mode)) ∧
      Opens t (dir ++ [n]) cs := by
  obtain ⟨loc, mode, hone⟩ := h [.name n] (List.cons_prefix_cons.mpr ⟨rfl, List.nil_prefix⟩)
    (by simpa using hne.symm)
  rw [walk] at hone
  split at hone
  · contradiction
  · rename_i hshort
    cases hn : t.node? (dir ++ [n]) with
    | none => simp [hn] at hone
    | some node =>
        cases node with
        | link target => exact absurd hn (hl target)
        | file id => simp [hn] at hone
        | dir mode' =>
            refine ⟨Nat.le_of_not_lt hshort, ⟨mode', rfl⟩, fun pre hpre hproper => ?_⟩
            by_cases hnil : pre = []
            · exact ⟨dir ++ [n], mode', by rw [hnil, walk, hn, Option.getD_some]⟩
            · obtain ⟨loc', mode'', hwalk⟩ := h (.name n :: pre)
                (List.cons_prefix_cons.mpr ⟨rfl, hpre⟩) (by simpa using hproper)
              rw [walk, if_neg hshort, hn] at hwalk
              simp only [if_neg hnil] at hwalk
              exact ⟨loc', mode'', hwalk⟩

theorem tail_here (h : Opens t dir (.here :: cs)) : Opens t dir cs := by
  intro pre hpre hproper
  obtain ⟨loc, mode, hwalk⟩ := h (.here :: pre) (List.cons_prefix_cons.mpr ⟨rfl, hpre⟩)
    (by simpa using hproper)
  rw [walk] at hwalk
  exact ⟨loc, mode, hwalk⟩

theorem tail_up (h : Opens t dir (.up :: cs)) : Opens t dir.dropLast cs := by
  intro pre hpre hproper
  obtain ⟨loc, mode, hwalk⟩ := h (.up :: pre) (List.cons_prefix_cons.mpr ⟨rfl, hpre⟩)
    (by simpa using hproper)
  rw [walk] at hwalk
  exact ⟨loc, mode, hwalk⟩

end Opens

/-- The walk goes down and up as the stack of names does. -/
theorem walk_of_normalizeFrom (hl : t.Linkless dir) (h : Path.normalizeFrom stack cs = some ns)
    (ht : Trodden t dir stack.reverse) (hopen : Opens t (dir ++ stack.reverse) cs) :
    t.walk follow links (dir ++ stack.reverse) cs = t.landing dir ns ∧
    Trodden t dir ns.dropLast := by
  -- Component by component: the stack names the place the walk has come to, and all
  -- directories on it have been passed.
  fun_induction Path.normalizeFrom stack cs with
  | case1 stack =>
      rw [← Option.some.inj h, ht.landing_eq, walk]
      exact ⟨rfl, ht.of_prefix (List.dropLast_prefix _)⟩
  | case2 stack n cs ih =>
      have hlast : ∀ target, t.node? (dir ++ stack.reverse ++ [n]) ≠ some (.link target) := by
        intro target
        rw [List.append_assoc]
        exact hl _ target
      by_cases hne : cs = []
      · subst hne
        obtain rfl : stack.reverse ++ [n] = ns := by simpa [Path.normalizeFrom] using h
        rw [List.dropLast_concat]
        exact ⟨walk_last follow links (hl _), ht⟩
      · obtain ⟨hshort, ⟨mode, hn⟩, hrest⟩ := hopen.tail_name hne hlast
        rw [walk, if_neg (Nat.not_lt.mpr hshort), hn]
        simp only [if_neg hne]
        rw [List.append_assoc, ← List.reverse_cons] at hrest hn ⊢
        refine ih h ?_ hrest
        rw [List.reverse_cons] at hn ⊢
        exact ht.concat hshort ⟨mode, hn⟩
  | case3 stack cs ih =>
      rw [walk]
      exact ih h ht hopen.tail_here
  | case4 cs => contradiction
  | case5 cs top below ih =>
      -- The walk leaves the directory it has come to last, which is the top of the stack.
      have hup : (dir ++ (top :: below).reverse).dropLast = dir ++ below.reverse := by
        rw [List.reverse_cons, ← List.append_assoc, List.dropLast_concat]
      have hrest := hopen.tail_up
      rw [hup] at hrest
      rw [walk, hup]
      refine ih h (ht.of_prefix ?_) hrest
      rw [List.reverse_cons]
      exact List.prefix_append ..
  | case6 => contradiction

/-- A walk along what does not climb above `dir` stays there, also
where something is in its way. -/
theorem isWithin_of_normalizeFrom (hl : t.Linkless dir)
    (h : Path.normalizeFrom stack cs = some ns) :
    ∀ loc ∈ t.visits links (dir ++ stack.reverse) cs, isWithin dir loc = true := by
  fun_induction Path.normalizeFrom stack cs with
  | case1 stack => simp [visits]
  | case2 stack n cs ih =>
      rw [visits]
      split
      · simp
      · split
        · simp [List.append_assoc]
        · simp [List.append_assoc]
        · rw [List.forall_mem_cons, List.append_assoc, ← List.reverse_cons]
          exact ⟨isWithin_append .., ih h⟩
        · rename_i target hn
          rw [List.append_assoc] at hn
          exact absurd hn (hl _ target)
  | case3 stack cs ih =>
      rw [visits, List.forall_mem_cons]
      exact ⟨isWithin_append .., ih h⟩
  | case4 cs => contradiction
  | case5 cs top below ih =>
      have hup : (dir ++ (top :: below).reverse).dropLast = dir ++ below.reverse := by
        rw [List.reverse_cons, ← List.append_assoc, List.dropLast_concat]
      rw [visits, hup, List.forall_mem_cons]
      exact ⟨isWithin_append .., ih h⟩
  | case6 => contradiction

/-- Behind a path to `dir`, a relative path is walked along from there. -/
theorem Reaches.resolve_join {cwd : Location} {base : Path} (h : Reaches t cwd base dir)
    (hbase : base.bytes ≠ []) (habs : p.isAbsolute = false)
    (hok : (base / p).refusal? = none) :
    ∃ links, t.resolve cwd follow (base / p) = t.walk follow links dir (steps p) := by
  obtain ⟨links, hlead⟩ := h.leads
  have hstart : (base / p).start cwd = base.start cwd := by
    rw [Path.start, Path.start, Path.isAbsolute_join base habs]
  refine ⟨links, ?_⟩
  rw [resolve_eq, hok, hstart]
  by_cases hne : p.bytes = []
  · obtain rfl : p = Path.ofNames [] := congrArg Path.mk hne
    have hmoves : (base / Path.ofNames []).moves = base.moves := by
      rw [Path.moves_join base rfl]
      exact List.append_nil _
    simp only [Path.steps_join_nil hbase, hmoves, hlead.walk_append (List.cons_ne_nil _ _)]
    rw [walk]
    rfl
  · simp only [Path.steps_join base habs hne, hlead.walk_append (Path.steps_ne_nil hne)]

end Tree

namespace Path

variable {p : Path} {ns : List Name} {t : Tree} {dir : Location}

/-- Where the way is open, a path leads to the place of the names that
are left of it, and so do they. -/
theorem walk_of_normalize? {cs : List Component} (hd : ∃ mode, t.node? dir = some (.dir mode))
    (hl : t.Linkless dir) (h : normalizeFrom [] cs = some ns) (hopen : t.Opens dir cs)
    (follow : Bool) (links : Nat) : t.walk follow links dir cs = t.landing dir ns ∧
      t.walk follow links dir (ns.map .name) = t.landing dir ns := by
  have hstart : t.Opens (dir ++ ([] : List Name).reverse) cs := by simpa using hopen
  obtain ⟨hwalk, htrodden⟩ := Tree.walk_of_normalizeFrom follow links hl h (.nil hd) hstart
  rw [List.reverse_nil, List.append_nil] at hwalk
  exact ⟨hwalk, Tree.walk_names_eq follow links hl htrodden⟩

/-- Resolving the text of a path. Nothing is left of it exactly if it is absolute or climbs
above its start; else some names are, in which there is nothing more to resolve, also if a path
is put behind. Where a directory has no links below, the path and the names lead to the same
from it, object or missing name, as long as the parts of the path lead to directories, and
neither way leaves the directory. The path may be read by its components or by the steps of a
walk, which asks for a directory in front of a separator at the end; it may also stand behind
any path to the directory. -/
theorem normalize?_resolves (p : Path) :
    (p.normalize? = none ↔ p.Escapes) ∧
    ∀ ns, p.normalize? = some ns →
      (ofNames ns).components = ns.map .name ∧ (ofNames ns).normalize? = some ns ∧
      (∀ q : Path, (p / q).normalize? = (ofNames ns / q).normalize?) ∧
      ∀ (t : Tree) (dir : Location) (mode : Mode), t.node? dir = some (.dir mode) →
        t.Linkless dir →
        (∀ cs ∈ [p.components, Tree.steps p, Tree.steps (ofNames ns)], ∀ links,
          ∀ loc ∈ t.visits links dir cs, Tree.isWithin dir loc = true) ∧
        (∀ cs ∈ [p.components, Tree.steps p], t.Opens dir cs → ∀ follow links,
          t.walk follow links dir cs = t.landing dir ns ∧
            t.walk follow links dir (Tree.steps (ofNames ns)) = t.landing dir ns) ∧
        (t.Opens dir (Tree.steps p) → ∀ cwd base follow,
          t.lookup cwd true base = .ok (dir, .dir mode) →
          (base / p).refusal? = none → t.resolve cwd follow (base / p) = t.landing dir ns ∧
            t.resolve cwd follow (base / ofNames ns) = t.landing dir ns) := by
  refine ⟨normalize?_eq_none_iff, fun ns h => ?_⟩
  have hplain := isPlain_of_normalize? h
  have habs := isAbsolute_of_normalize? h
  have hsteps : normalizeFrom [] (Tree.steps p) = some ns := (normalizeFrom_steps habs).trans h
  have hnames : normalizeFrom [] (Tree.steps (ofNames ns)) = some ns := by
    rw [normalizeFrom_steps (isAbsolute_ofNames hplain), normalize?_ofNames hplain]
  refine ⟨components_ofNames hplain, normalize?_ofNames hplain, normalize?_join h,
    fun t dir mode hd hl => ⟨fun cs hcs links => ?_, fun cs hcs hopen follow links => ?_,
      fun hopen cwd base follow hlook hok => ?_⟩⟩
  · have hall : normalizeFrom [] cs = some ns := by
      simp only [List.mem_cons, List.not_mem_nil, or_false] at hcs
      rcases hcs with rfl | rfl | rfl
      · exact h
      · exact hsteps
      · exact hnames
    have hin := Tree.isWithin_of_normalizeFrom links hl hall
    rwa [List.reverse_nil, List.append_nil] at hin
  · have hall : normalizeFrom [] cs = some ns := by
      simp only [List.mem_cons, List.not_mem_nil, or_false] at hcs
      rcases hcs with rfl | rfl
      · exact h
      · exact hsteps
    rw [steps_ofNames hplain]
    exact walk_of_normalize? ⟨mode, hd⟩ hl hall hopen follow links
  · obtain ⟨hr, hbase⟩ := Tree.reaches_of_lookup hlook hd
    have hne := (refusal?_eq_none_iff.mp hbase).2.1
    obtain ⟨links, hp⟩ := hr.resolve_join follow hne habs hok
    obtain ⟨links', hq⟩ := hr.resolve_join follow hne (isAbsolute_ofNames hplain)
      (refusal?_join_ofNames hne h hok)
    rw [hp, hq, steps_ofNames hplain]
    exact ⟨(walk_of_normalize? ⟨mode, hd⟩ hl hsteps hopen follow links).1,
      (walk_of_normalize? ⟨mode, hd⟩ hl hsteps hopen follow links').2⟩

def twoBranches : Tree :=
  ((Tree.empty.put [[0x64]] (.dir 0o755)).put [[0x64], [0x61]] (.dir 0o755)).put
    [[0x64], [0x62]] (.dir 0o755)

theorem linkless_twoBranches : twoBranches.Linkless [[0x64]] := by
  intro rel target h
  have hmem := SortedMap.get?_eq_some_iff.mp (h : twoBranches.nodes.get? ([0x64] :: rel) = _)
  have hall : ∀ e ∈ twoBranches.nodes.entries, e.2 = .dir 0o755 := by decide
  have hnode := hall _ hmem
  contradiction

theorem opens_twoBranches :
    twoBranches.Opens [[0x64]] [.name [0x61], .up, .name [0x62], .name [0x63]] := by
  have ha : twoBranches.node? [[0x64], [0x61]] = some (.dir 0o755) := by decide
  have hb : twoBranches.node? [[0x64], [0x62]] = some (.dir 0o755) := by decide
  have hd : twoBranches.node? [[0x64]] = some (.dir 0o755) := by decide
  intro pre hpre hproper
  have hmem := (List.mem_inits pre _).mpr hpre
  simp only [List.inits, List.map, List.mem_cons, List.not_mem_nil, or_false] at hmem
  rcases hmem with rfl | rfl | rfl | rfl | rfl
  · exact ⟨[[0x64]], 0o755, by simp [Tree.walk, hd]⟩
  · exact ⟨[[0x64], [0x61]], 0o755, by simp [Tree.walk, ha, Tree.maxName]⟩
  · exact ⟨[[0x64]], 0o755, by simp [Tree.walk, ha, hd, Tree.maxName]⟩
  · exact ⟨[[0x64], [0x62]], 0o755, by simp [Tree.walk, ha, hb, Tree.maxName]⟩
  · contradiction

theorem normalize?_resolves_upAndDown :
    let p : Path := "./a/.././b//c"
    let base : Path := "/d"
    p.normalize? = some [[0x62], [0x63]] ∧ twoBranches.node? [[0x64]] = some (.dir 0o755) ∧
      twoBranches.Linkless [[0x64]] ∧ twoBranches.Opens [[0x64]] (Tree.steps p) ∧
      twoBranches.lookup [] true base = .ok ([[0x64]], .dir 0o755) ∧
      (base / p).refusal? = none ∧
      ∀ follow,
        twoBranches.resolve [] follow (base / p) = .ok (.vacant [[0x64], [0x62]] [0x63]) ∧
        twoBranches.resolve [] follow (base / ofNames [[0x62], [0x63]]) =
          .ok (.vacant [[0x64], [0x62]] [0x63]) := by
  intro p base
  have hp : p.normalize? = some [[0x62], [0x63]] := by decide
  have hd : twoBranches.node? [[0x64]] = some (.dir 0o755) := by decide
  have hopen : twoBranches.Opens [[0x64]] (Tree.steps p) := by
    rw [show Tree.steps p = [.name [0x61], .up, .name [0x62], .name [0x63]] by decide]
    exact opens_twoBranches
  have hlook : twoBranches.lookup [] true base = .ok ([[0x64]], .dir 0o755) := by
    have hsteps : Tree.steps base = [.name [0x64]] := by decide
    have hstart : base.start [] = [] := by decide
    rw [Tree.lookup, Tree.resolve_eq, show base.refusal? = none by decide, hsteps, hstart]
    simp [Tree.walk, hd, Tree.maxName]
  have hok : (base / p).refusal? = none := by decide
  obtain ⟨-, -, -, htree⟩ := (normalize?_resolves p).2 _ hp
  obtain ⟨-, -, hjoin⟩ := htree twoBranches [[0x64]] _ hd linkless_twoBranches
  exact ⟨hp, hd, linkless_twoBranches, hopen, hlook, hok,
    fun follow => hjoin hopen [] base follow hlook hok⟩

end Path

end LlvmBootstrap
