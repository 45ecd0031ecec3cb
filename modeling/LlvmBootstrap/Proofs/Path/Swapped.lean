import LlvmBootstrap.Proofs.Archive.Touches
import LlvmBootstrap.Proofs.Machine.Files
import LlvmBootstrap.Proofs.Path.Above

/-!
Paths that differ in one name, at the same place and of the same length. They are refused
alike, and what the one asks for below a directory of the one name the other asks for below
that of the other name.
-/

namespace LlvmBootstrap.Path

structure Interchange (x x' : Name) : Prop where
  plain : IsPlain x
  plain' : IsPlain x'
  length_eq : x'.length = x.length
  text : 0 ∉ x
  text' : 0 ∉ x'

theorem Interchange.symm {x x' : Name} (h : Interchange x x') : Interchange x' x :=
  ⟨h.plain', h.plain, h.length_eq.symm, h.text', h.text⟩

/-- `q'` is `q` with the name `x'` in place of `x`, which is asked for
behind the moves `base`. -/
inductive Swapped (base : List Component) (x x' : Name) (q q' : Path) : Prop
  | intro (ps ss : List Name) (hq : pieces q.bytes = ps ++ x :: ss)
      (hq' : pieces q'.bytes = ps ++ x' :: ss) (hps : ps.filterMap component? = base)
      (hss : ss = [[]] ∨ ss.getLast? ≠ some [])

variable {base : List Component} {x x' n : Name} {p q q' r : Path} {ns : List Name}

/-! ### Pieces -/

theorem isAbsolute_iff_pieces :
    p.isAbsolute = true ↔ ∃ ss, ss ≠ [] ∧ pieces p.bytes = [] :: ss := by
  obtain ⟨bs⟩ := p
  cases bs with
  | nil => simp [isAbsolute, pieces]
  | cons b bs =>
      by_cases hb : b = slash
      · simp [isAbsolute, hb, pieces_cons_slash, pieces_ne_nil]
      · simp [isAbsolute, hb, pieces_cons_of_ne hb]

/-- Only a separator has an empty piece at the end. -/
theorem getLast?_of_pieces {bs : Bytes} (hne : bs ≠ []) (h : (pieces bs).getLast? = some []) :
    bs.getLast? = some slash := by
  induction bs with
  | nil => contradiction
  | cons b bs ih =>
      have hrest : bs ≠ [] → (pieces bs).getLast? = some [] →
          (b :: bs).getLast? = some slash :=
        fun hbs hp => by rw [List.getLast?_cons_of_ne_nil hbs, ih hbs hp]
      by_cases hb : b = slash
      · rw [hb, pieces_cons_slash, List.getLast?_cons_of_ne_nil (pieces_ne_nil bs)] at h
        by_cases hbs : bs = []
        · rw [hbs, hb, List.getLast?_singleton]
        · exact hrest hbs h
      · rw [pieces_cons_of_ne hb] at h
        by_cases htail : (pieces bs).tail = []
        · rw [htail, List.getLast?_singleton] at h
          exact absurd (Option.some.inj h) (List.cons_ne_nil _ _)
        · rw [List.getLast?_cons_of_ne_nil htail] at h
          refine hrest (fun hbs => ?_) ?_
          · rw [hbs] at htail
            exact htail rfl
          · rwa [← List.cons_head_tail (pieces_ne_nil bs), List.getLast?_cons_of_ne_nil htail]

theorem steps_eq_of_pieces (hne : p.bytes ≠ []) :
    Tree.steps p = p.moves ++
      if (pieces p.bytes).getLast? = some [] ∨ (pieces p.bytes).getLast? = some dot
      then [.here] else [] := by
  have hiff : p.bytes.getLast? = some slash ↔ (pieces p.bytes).getLast? = some [] := by
    refine ⟨fun h => ?_, getLast?_of_pieces hne⟩
    obtain ⟨a, ha⟩ := List.getLast?_eq_some_iff.mp h
    rw [ha, pieces_append_slash, pieces, List.getLast?_concat]
  rw [Tree.steps, moves]
  simp only [hiff]

/-! ### Swapped paths -/

namespace Swapped

theorem symm (h : Swapped base x x' q q') : Swapped base x' x q' q := by
  obtain ⟨ps, ss, hq, hq', hps, hss⟩ := h
  exact ⟨ps, ss, hq', hq, hps, hss⟩

theorem length_eq (hx : Interchange x x') (h : Swapped base x x' q q') :
    q'.bytes.length = q.bytes.length := by
  obtain ⟨ps, ss, hq, hq', -, -⟩ := h
  have hspan := span_pieces q.bytes
  have hspan' := span_pieces q'.bytes
  rw [hq, span, List.map_append, List.map_cons, List.sum_append, List.sum_cons] at hspan
  rw [hq', span, List.map_append, List.map_cons, List.sum_append, List.sum_cons,
    hx.length_eq] at hspan'
  omega

theorem ne_nil (hx : Interchange x x') (h : Swapped base x x' q q') : q.bytes ≠ [] := by
  obtain ⟨ps, ss, hq, -, -, -⟩ := h
  intro hnil
  rw [hnil, pieces] at hq
  have hmem : x ∈ [([] : Name)] := hq ▸ List.mem_append_right _ (List.mem_cons_self ..)
  exact hx.plain.ne_nil (List.mem_singleton.mp hmem)

theorem zero_mem (hx : Interchange x x') (h : Swapped base x x' q q') (hz : 0 ∈ q.bytes) :
    0 ∈ q'.bytes := by
  obtain ⟨ps, ss, hq, hq', -, -⟩ := h
  have hne : (0 : UInt8) ≠ slash := by decide
  rw [mem_pieces_iff hne, hq] at hz
  rw [mem_pieces_iff hne, hq']
  obtain ⟨n, hn, hz⟩ := hz
  rcases List.mem_append.mp hn with hn | hn
  · exact ⟨n, List.mem_append_left _ hn, hz⟩
  · rcases List.mem_cons.mp hn with rfl | hn
    · exact absurd hz hx.text
    · exact ⟨n, List.mem_append_right _ (List.mem_cons_of_mem _ hn), hz⟩

theorem refusal_eq (hx : Interchange x x') (h : Swapped base x x' q q') :
    q'.refusal? = q.refusal? := by
  have hzero : 0 ∈ q'.bytes ↔ 0 ∈ q.bytes := ⟨h.symm.zero_mem hx.symm, h.zero_mem hx⟩
  simp only [refusal?, hzero, h.ne_nil hx, h.symm.ne_nil hx.symm, h.length_eq hx]

theorem moves_eq (hx : Interchange x x') (h : Swapped base x x' q q') :
    ∃ rest, q.moves = base ++ .name x :: rest ∧ q'.moves = base ++ .name x' :: rest := by
  obtain ⟨ps, ss, hq, hq', hps, -⟩ := h
  refine ⟨ss.filterMap component?, ?_, ?_⟩
  · rw [moves, hq, List.filterMap_append, hps, List.filterMap_cons,
      component?_of_isPlain hx.plain]
  · rw [moves, hq', List.filterMap_append, hps, List.filterMap_cons,
      component?_of_isPlain hx.plain']

theorem isAbsolute_of (hx : Interchange x x') (h : Swapped base x x' q q')
    (habs : q.isAbsolute = true) :
    q'.isAbsolute = true := by
  obtain ⟨ps, behind, hq, hq', -, -⟩ := h
  obtain ⟨ss, hne, hss⟩ := isAbsolute_iff_pieces.mp habs
  rw [hss] at hq
  rw [isAbsolute_iff_pieces, hq']
  cases ps with
  | nil => exact absurd (List.cons.inj hq).1.symm hx.plain.ne_nil
  | cons p ps =>
      refine ⟨ps ++ x' :: behind, by simp, ?_⟩
      rw [List.cons_append, ← (List.cons.inj hq).1]

theorem isAbsolute_eq (hx : Interchange x x') (h : Swapped base x x' q q') :
    q'.isAbsolute = q.isAbsolute :=
  Bool.eq_iff_iff.mpr ⟨h.symm.isAbsolute_of hx.symm, h.isAbsolute_of hx⟩

/-- What is asked for behind the moves is the same. -/
theorem steps_eq (hx : Interchange x x') (h : Swapped base x x' q q') :
    ∃ rest, Tree.steps q = q.moves ++ rest ∧ Tree.steps q' = q'.moves ++ rest := by
  have hne := h.ne_nil hx
  have hne' := h.symm.ne_nil hx.symm
  obtain ⟨ps, ss, hq, hq', -, -⟩ := h
  refine ⟨_, steps_eq_of_pieces hne, ?_⟩
  rw [steps_eq_of_pieces hne', hq, hq', List.getLast?_append_cons, List.getLast?_append_cons]
  by_cases hss : ss = []
  · have hlast : ∀ y, IsPlain y →
        ¬ ((y :: ss).getLast? = some [] ∨ (y :: ss).getLast? = some dot) := by
      intro y hy
      rw [hss, List.getLast?_singleton]
      simp [hy.ne_nil, hy.ne_dot]
    rw [if_neg (hlast x hx.plain), if_neg (hlast x' hx.plain')]
  · rw [List.getLast?_cons_of_ne_nil hss, List.getLast?_cons_of_ne_nil hss]

theorem getLast?_ne_slash (hx : Interchange x x') {ps ss : List Name}
    (hq : pieces q.bytes = ps ++ x :: ss) (hss : ss.getLast? ≠ some []) :
    q.bytes.getLast? ≠ some slash := by
  intro h
  obtain ⟨a, ha⟩ := List.getLast?_eq_some_iff.mp h
  have hlast := congrArg List.getLast? hq
  rw [ha, pieces_append_slash, pieces, List.getLast?_concat,
    List.getLast?_append_cons] at hlast
  by_cases hnil : ss = []
  · rw [hnil, List.getLast?_singleton] at hlast
    exact hx.plain.ne_nil (Option.some.inj hlast).symm
  · rw [List.getLast?_cons_of_ne_nil hnil] at hlast
    exact hss hlast.symm

/-- A path that ends in a separator without it. -/
theorem exists_trimmed (hx : Interchange x x') {ps : List Name}
    (hq : pieces q.bytes = ps ++ [x, []]) :
    pieces (Tree.trimSlashes q).bytes = ps ++ [x] := by
  have hslash : q.bytes.getLast? = some slash := by
    refine getLast?_of_pieces (fun hnil => ?_) ?_
    · rw [hnil] at hq
      simpa [pieces] using congrArg List.length hq
    · rw [hq]
      simp
  obtain ⟨b, hb⟩ := List.getLast?_eq_some_iff.mp hslash
  rw [hb, pieces_append_slash, pieces, show [x, []] = [x] ++ [[]] from rfl,
    ← List.append_assoc] at hq
  -- Without its last slash the path ends in the name, and a name has no slash to trim.
  have hpieces := List.append_inj_left' hq rfl
  have hlast : (⟨b⟩ : Path).bytes.getLast? ≠ some slash :=
    getLast?_ne_slash hx hpieces (by simp)
  have hne : b ≠ [] := by
    rintro rfl
    have hmem : x ∈ pieces [] := hpieces ▸ List.mem_append_right _ (List.mem_singleton_self _)
    exact hx.plain.ne_nil (List.mem_singleton.mp hmem)
  have htrim : Tree.trimSlashes q = ⟨b⟩ := by
    rw [Tree.trimSlashes, hb, if_neg]
    · obtain ⟨c, bs, hbs⟩ := List.exists_cons_of_ne_nil (mt List.reverse_eq_nil_iff.mp hne)
      have hc : c ≠ slash := by
        rintro rfl
        refine hlast ?_
        rw [← List.head?_reverse, hbs, List.head?_cons]
      rw [List.reverse_append, List.reverse_singleton, List.singleton_append,
        List.dropWhile_cons_of_pos (by simp), hbs,
        List.dropWhile_cons_of_neg (by simpa using hc), ← hbs,
        List.reverse_reverse]
    · intro hall
      refine hlast ?_
      rw [List.getLast?_eq_some_getLast hne]
      have := List.all_eq_true.mp hall _ (List.mem_append_left _ (List.getLast_mem hne))
      exact congrArg some (of_decide_eq_true this)
  rw [htrim]
  exact hpieces

theorem trimmed (hx : Interchange x x') (h : Swapped base x x' q q') :
    (Tree.trimSlashes q').refusal? = (Tree.trimSlashes q).refusal? := by
  have hrefusal := h.refusal_eq hx
  obtain ⟨ps, ss, hq, hq', hps, rfl | hss⟩ := h
  · have hswapped : Swapped base x x' (Tree.trimSlashes q) (Tree.trimSlashes q') :=
      .intro ps [] (exists_trimmed hx hq) (exists_trimmed hx.symm hq') hps (.inr (by simp))
    exact hswapped.refusal_eq hx
  · rw [Tree.trimSlashes_of_getLast? (getLast?_ne_slash hx hq hss),
      Tree.trimSlashes_of_getLast? (getLast?_ne_slash hx.symm hq' hss)]
    exact hrefusal

/-- Below the directories of the two names swapped paths ask for the same. -/
theorem shifted {d d' : Path} (hx : Interchange x x') (hd : Swapped base x x' d d')
    (hmoves : d.moves = base ++ [.name x]) (h : Swapped base x x' q q') :
    Shifted d d' q q' where
  refusal := h.refusal_eq hx
  trimmed := h.trimmed hx
  names ns hns := by
    obtain ⟨rest, hq, hq'⟩ := h.moves_eq hx
    obtain ⟨restd, hd₁, hd₂⟩ := hd.moves_eq hx
    obtain ⟨more, hs, hs'⟩ := h.steps_eq hx
    obtain rfl : restd = [] := by
      rw [hmoves] at hd₁
      exact (List.cons.inj (List.append_cancel_left hd₁)).2.symm
    have hrest : rest = ns.map .name := by
      have := hns.moves_eq
      rw [hq, hd₁, List.append_assoc] at this
      exact (List.cons.inj (List.append_cancel_left this)).2
    refine ⟨?_, ?_, fun hne => ⟨?_, h.symm.ne_nil hx.symm⟩⟩
    · rw [hq', hd₂, hrest, List.append_assoc, List.singleton_append]
    · rw [h.isAbsolute_eq hx, hd.isAbsolute_eq hx, hns.isAbsolute_eq]
    · rw [(hns.last hne).1] at hs
      rw [hs', List.append_right_eq_self.mp hs.symm, List.append_nil]
  here hhere := by
    obtain ⟨more, hs, hs'⟩ := h.steps_eq hx
    rw [hs', List.append_cancel_left (hs.symm.trans hhere)]

end Swapped

/-! ### Below a directory -/

theorem bytes_join_of_getLast? (hne : p.bytes ≠ []) (hlast : p.bytes.getLast? ≠ some slash)
    (hq : q.isAbsolute = false) : (p / q).bytes = p.bytes ++ slash :: q.bytes := by
  rcases bytes_join_of_not_isAbsolute p hq with ⟨-, h | h⟩ | ⟨h, -⟩
  · exact absurd h hne
  · exact absurd h hlast
  · exact h

/-- The same directory with an entry of either name. -/
theorem exists_pieces_entry (r : Path) : ∃ ps, ps.filterMap component? = r.moves ∧
    ∀ n, IsPlain n → pieces (r / (⟨n⟩ : Path)).bytes = ps ++ [n] := by
  by_cases hne : r.bytes = []
  · refine ⟨[], by simp [moves, hne, pieces, component?], fun n hn => ?_⟩
    rcases bytes_join_of_not_isAbsolute r (isAbsolute_name hn) with ⟨hb, -⟩ | ⟨-, h⟩
    · rw [hb, hne]
      exact pieces_of_not_mem hn.not_slash
    · exact absurd hne h
  · by_cases hlast : r.bytes.getLast? = some slash
    · obtain ⟨a, ha⟩ := List.getLast?_eq_some_iff.mp hlast
      refine ⟨pieces a, ?_, fun n hn => ?_⟩
      · rw [moves, ha, pieces_append_slash, List.filterMap_append]
        simp [pieces, component?]
      · have hb : (r / (⟨n⟩ : Path)).bytes = r.bytes ++ n := by
          show (r.join ⟨n⟩).bytes = _
          rw [join, isAbsolute_name hn, if_neg Bool.false_ne_true, if_pos (.inr hlast)]
        rw [hb, ha, List.append_assoc, List.singleton_append, pieces_append_slash,
          pieces_of_not_mem hn.not_slash]
    · refine ⟨pieces r.bytes, rfl, fun n hn => ?_⟩
      rw [bytes_join_of_getLast? hne hlast (isAbsolute_name hn), pieces_append_slash,
        pieces_of_not_mem hn.not_slash]

theorem moves_entry (r : Path) (hn : IsPlain n) :
    (r / (⟨n⟩ : Path)).moves = r.moves ++ [.name n] := by
  obtain ⟨ps, hps, hpieces⟩ := exists_pieces_entry r
  rw [moves, hpieces n hn, List.filterMap_append, hps]
  simp [component?_of_isPlain hn]

theorem components_entry (r : Path) (hn : IsPlain n) :
    (r / (⟨n⟩ : Path)).components = r.components ++ [.name n] := by
  by_cases hne : r.bytes = []
  · have hb : r / (⟨n⟩ : Path) = ⟨n⟩ := by
      show r.join ⟨n⟩ = _
      rw [join, isAbsolute_name hn, if_neg Bool.false_ne_true, if_pos (.inl hne), hne,
        List.nil_append]
    rw [hb, components_eq_nil hne, components, pieces_of_not_mem hn.not_slash]
    simp [isAbsolute_name hn, hn.ne_dot, component?_of_isPlain hn]
  · rw [components_join hne (isAbsolute_name hn)]
    simp [moves, pieces_of_not_mem hn.not_slash, component?_of_isPlain hn]

section

variable {d d' : Path} (hx : Interchange x x') (hd : d = r / (⟨x⟩ : Path))
  (hd' : d' = r / (⟨x'⟩ : Path))

include hx hd hd'

theorem swapped_entry : Swapped r.moves x x' d d' := by
  obtain ⟨ps, hps, hpieces⟩ := exists_pieces_entry r
  exact .intro ps [] (hd ▸ hpieces x hx.plain) (hd' ▸ hpieces x' hx.plain') hps
    (.inr (by simp))

theorem shifted_of_swapped (h : Swapped r.moves x x' q q') : Shifted d d' q q' :=
  (swapped_entry hx hd hd').shifted hx (hd ▸ moves_entry r hx.plain) h

end

/-- A path that ends in a name does not end in a separator. -/
theorem getLast?_entry (q : Path) (hn : IsPlain n) :
    (q / (⟨n⟩ : Path)).bytes.getLast? ≠ some slash := by
  intro h
  obtain ⟨ps, -, hpieces⟩ := exists_pieces_entry q
  obtain ⟨a, ha⟩ := List.getLast?_eq_some_iff.mp h
  have hlast := congrArg List.getLast? (hpieces n hn)
  rw [ha, pieces_append_slash, pieces, List.getLast?_concat, List.getLast?_concat] at hlast
  exact hn.ne_nil (Option.some.inj hlast).symm

/-- Down along names. -/
theorem Swapped.entry (hx : Interchange x x') (hn : IsPlain n) (h : Swapped base x x' q q')
    (hlast : q.bytes.getLast? ≠ some slash) (hlast' : q'.bytes.getLast? ≠ some slash) :
    Swapped base x x' (q / (⟨n⟩ : Path)) (q' / (⟨n⟩ : Path)) := by
  have hb := bytes_join_of_getLast? (h.ne_nil hx) hlast (isAbsolute_name hn)
  have hb' := bytes_join_of_getLast? (h.symm.ne_nil hx.symm) hlast' (isAbsolute_name hn)
  obtain ⟨ps, ss, hq, hq', hps, -⟩ := h
  refine .intro ps (ss ++ [n]) ?_ ?_ hps (.inr ?_)
  · rw [hb, pieces_append_slash, hq, pieces_of_not_mem hn.not_slash, List.append_assoc,
      List.cons_append]
  · rw [hb', pieces_append_slash, hq', pieces_of_not_mem hn.not_slash, List.append_assoc,
      List.cons_append]
  · rw [List.getLast?_concat]
    exact fun hnil => hn.ne_nil (Option.some.inj hnil)

/-- The path of some names in a directory of either name. -/
theorem swapped_ofNames (hx : Interchange x x') (hns : ∀ n ∈ ns, IsPlain n) :
    Swapped r.moves x x' (r / (⟨x⟩ : Path) / ofNames ns) (r / (⟨x'⟩ : Path) / ofNames ns) := by
  obtain ⟨ps, hps, hpieces⟩ := exists_pieces_entry r
  have habs := isAbsolute_ofNames hns
  have hjoin : ∀ {y y'}, Interchange y y' → pieces (r / (⟨y⟩ : Path) / ofNames ns).bytes =
      ps ++ y :: pieces (ofNames ns).bytes := fun {y y'} hy => by
    have hne : (r / (⟨y⟩ : Path)).bytes ≠ [] := (swapped_entry hy rfl rfl).ne_nil hy
    rw [bytes_join_of_getLast? hne (getLast?_entry r hy.plain) habs, pieces_append_slash,
      hpieces y hy.plain, List.append_assoc, List.singleton_append]
  refine .intro ps _ (hjoin hx) (hjoin hx.symm) hps ?_
  by_cases hnil : ns = []
  · exact .inl (by rw [hnil]; rfl)
  · rw [pieces_ofNames hnil fun n hn => (hns n hn).not_slash,
      List.getLast?_eq_some_getLast hnil]
    exact .inr fun h => (hns _ (List.getLast_mem hnil)).ne_nil (Option.some.inj h)

/-- The same with the text made from the components. -/
theorem swapped_ofComponents (r : Path) (hx : Interchange x x') (hns : ∀ n ∈ ns, IsPlain n) :
    Swapped r.moves x x' (ofComponents (r.components ++ (x :: ns).map .name))
      (ofComponents (r.components ++ (x' :: ns).map .name)) := by
  obtain ⟨lead, hlead, hcomps⟩ := components_eq r
  have hlead' : lead = [.root] ∨ lead = [.here] ∨ lead = [] :=
    hlead.imp And.left (Or.imp And.left And.left)
  have hproper : ∀ y, IsPlain y →
      ∀ c ∈ r.moves ++ (y :: ns).map Component.name, IsProper c ∧ c ≠ .root :=
    fun y hy _ => isProper_of_mem_moves_append (List.forall_mem_cons.mpr ⟨hy, hns⟩)
  have hpieces : ∀ y, IsPlain y →
      pieces (ofComponents (r.components ++ (y :: ns).map .name)).bytes =
        (lead ++ r.moves).map ofComponents.text ++ y :: ns := by
    intro y hy
    rw [hcomps, List.append_assoc,
      (ofComponents_lead_append (by simp) hlead' (hproper y hy)).1]
    simp [ofComponents.text, Function.comp_def]
  refine .intro _ ns (hpieces x hx.plain) (hpieces x' hx.plain') ?_ (.inr fun h => ?_)
  · -- What leads a path gives no component when its text is read back, unless it is the root.
    have hmoves : r.moves.filter isMove = r.moves := filter_isMove_filterMap _
    have hall : ∀ c ∈ lead ++ r.moves, IsProper c := by
      intro c hc
      rw [← hcomps] at hc
      exact isProper_of_mem_components hc
    rw [filterMap_component?_text hall, List.filter_append, hmoves]
    rcases hlead' with rfl | rfl | rfl <;> rfl
  · obtain ⟨ms, hms⟩ := List.getLast?_eq_some_iff.mp h
    exact (hns [] (hms ▸ List.mem_append_right _ (List.mem_singleton_self _))).ne_nil rfl

/-- Above the directory of a name the paths are not of anything in it. -/
theorem shifted_of_isAbove {d d' : Path} (hne : d.moves ≠ []) (h : IsAbove q d) :
    Shifted d d' q q where
  refusal := rfl
  trimmed := rfl
  names ns hns := by
    have hlen := h.moves.length_le
    rw [hns.moves_eq, List.length_append, List.length_dropLast] at hlen
    have := List.length_pos_of_ne_nil hne
    omega
  here := id

theorem components_entry_ofNames (r : Path) (hn : IsPlain n) (hns : ∀ n ∈ ns, IsPlain n) :
    (r / (⟨n⟩ : Path) / ofNames ns).components = r.components ++ (n :: ns).map .name := by
  have habs := isAbsolute_ofNames hns
  have hmoves : (ofNames ns).moves = ns.map .name := by
    by_cases hnil : ns = []
    · rw [hnil]
      rfl
    · rw [moves, pieces_ofNames hnil fun n hn => (hns n hn).not_slash,
        filterMap_component?_of_isPlain hns]
  have hne : (r / (⟨n⟩ : Path)).bytes ≠ [] := fun hnil => by
    have hcomps := components_entry r hn
    rw [components_eq_nil hnil] at hcomps
    simp at hcomps
  rw [components_join hne habs, components_entry r hn, hmoves, List.append_assoc]
  rfl

/-- The paths above some names in a directory of either name, pair by pair. -/
theorem shifted_ancestors (r : Path) (hx : Interchange x x') (hns : ∀ n ∈ ns, IsPlain n) :
    List.Forall₂ (Shifted (r / (⟨x⟩ : Path)) (r / (⟨x'⟩ : Path)))
      (Program.ancestors (r / (⟨x⟩ : Path) / ofNames ns))
      (Program.ancestors (r / (⟨x'⟩ : Path) / ofNames ns)) := by
  have hentry := swapped_entry (r := r) hx rfl rfl
  have hupper : List.Forall₂ (Shifted (r / (⟨x⟩ : Path)) (r / (⟨x'⟩ : Path)))
      (upper (r / (⟨x⟩ : Path)).isAbsolute (r.components ++ (x :: ns).map .name))
      (upper (r / (⟨x⟩ : Path)).isAbsolute (r.components ++ (x' :: ns).map .name)) := by
    induction ns using List.reverseRecOn with
    | nil =>
        -- above the directories themselves the paths are the same
        have heq : upper (r / (⟨x⟩ : Path)).isAbsolute (r.components ++ [.name x']) =
            upper (r / (⟨x⟩ : Path)).isAbsolute (r.components ++ [.name x]) := by
          rw [upper_concat, upper_concat]
        have habove : ∀ q ∈ upper (r / (⟨x⟩ : Path)).isAbsolute (r.components ++ [.name x]),
            Shifted (r / (⟨x⟩ : Path)) (r / (⟨x'⟩ : Path)) q q := by
          intro q hq
          rw [← components_entry r hx.plain] at hq
          refine shifted_of_isAbove ?_ (isAbove_of_mem_ancestors hq)
          rw [moves_entry r hx.plain]
          exact List.concat_ne_nil _ _
        rw [List.map_singleton, List.map_singleton, heq]
        exact List.forall₂_same.mpr habove
    | append_singleton ns n ih =>
        have hns' : ∀ m ∈ ns, IsPlain m := fun m hm => hns m (List.mem_append_left _ hm)
        rw [← List.cons_append, ← List.cons_append, List.map_append, List.map_append,
          ← List.append_assoc, ← List.append_assoc, List.map_singleton,
          upper_concat, upper_concat]
        refine List.rel_append ?_ (ih hns')
        have hlen : ∀ y, (r.components ++ (y :: ns).map Component.name).length =
            r.components.length + (ns.length + 1) := by simp
        rw [hlen x, hlen x']
        split
        · exact .nil
        · exact .cons (shifted_of_swapped hx rfl rfl (swapped_ofComponents r hx hns')) .nil
  have habs : ∀ {y y'}, Interchange y y' →
      (r / (⟨y⟩ : Path) / ofNames ns).isAbsolute = (r / (⟨y⟩ : Path)).isAbsolute :=
    fun {y y'} hy => (extends_ofNames (r / (⟨y⟩ : Path)) hns).isAbsolute_eq
  have hancestors {y y'} (hy : Interchange y y') :
      Program.ancestors (r / (⟨y⟩ : Path) / ofNames ns) =
        upper (r / (⟨y⟩ : Path)).isAbsolute (r.components ++ (y :: ns).map .name) := by
    rw [← components_entry_ofNames r hy.plain hns, ← habs hy]
    rfl
  rw [hancestors hx, hancestors hx.symm, hentry.isAbsolute_eq hx]
  exact hupper

end LlvmBootstrap.Path
