import Mathlib
import LlvmBootstrap.Machine.Files
import LlvmBootstrap.Proofs.Tree.Closed

/-!
The paths above a path. Each asks for a leading part of what the path asks for and is written
with some of its pieces, so where the path leads to a directory, so does each path above it.
-/

namespace LlvmBootstrap

namespace Path

/-! ### Pieces -/

/-- The octets of some pieces with one separator behind each. -/
def span (ns : List Name) : Nat := (ns.map fun n => n.length + 1).sum

@[simp] theorem span_cons (n : Name) (ns : List Name) :
    span (n :: ns) = n.length + 1 + span ns := by
  simp [span]

theorem span_le_of_sublist {ns ms : List Name} (h : ns.Sublist ms) : span ns ≤ span ms := by
  induction h with
  | slnil => exact Nat.le_refl _
  | cons n _ ih =>
      rw [span_cons]
      omega
  | cons_cons n _ ih =>
      rw [span_cons, span_cons]
      omega

theorem span_pieces (bs : Bytes) : span (pieces bs) = bs.length + 1 := by
  induction bs with
  | nil => rfl
  | cons b bs ih =>
      by_cases hb : b = slash
      · rw [hb, pieces_cons_slash, span_cons, ih]
        simp only [List.length_nil, List.length_cons]
        omega
      · rw [pieces_cons_of_ne hb]
        cases hp : pieces bs with
        | nil => exact absurd hp (pieces_ne_nil bs)
        | cons p ps =>
            rw [hp, span_cons] at ih
            simp only [List.headD_cons, List.tail_cons, span_cons, List.length_cons]
            omega

/-- What a path is written with, besides separators, is in its pieces. -/
theorem mem_pieces_iff {bs : Bytes} {b : UInt8} (hb : b ≠ slash) :
    b ∈ bs ↔ ∃ n ∈ pieces bs, b ∈ n := by
  induction bs with
  | nil => simp [pieces]
  | cons c bs ih =>
      by_cases hc : c = slash
      · rw [hc, pieces_cons_slash, List.mem_cons, ih]
        simp [hb]
      · rw [pieces_cons_of_ne hc, List.mem_cons, ih]
        cases hp : pieces bs with
        | nil => exact absurd hp (pieces_ne_nil bs)
        | cons p ps => simp [or_assoc]

theorem refusal?_of_pieces_sublist {p q : Path} (h : (pieces q.bytes).Sublist (pieces p.bytes))
    (hne : q.bytes ≠ []) (hp : p.refusal? = none) : q.refusal? = none := by
  obtain ⟨hzero, -, hlen⟩ := refusal?_eq_none_iff.mp hp
  have hslash : (0 : UInt8) ≠ slash := by decide
  refine refusal?_eq_none_iff.mpr ⟨fun hmem => hzero ?_, hne, ?_⟩
  · obtain ⟨n, hn, hb⟩ := (mem_pieces_iff hslash).mp hmem
    exact (mem_pieces_iff hslash).mpr ⟨n, h.subset hn, hb⟩
  · have hspan := span_le_of_sublist h
    rw [span_pieces, span_pieces] at hspan
    omega

/-! ### The text of components -/

theorem text_of_component? {n : Name} {c : Component} (h : component? n = some c) :
    ofComponents.text c = n := by
  unfold component? at h
  split at h
  · contradiction
  · split at h
    · rename_i hup
      rw [← Option.some.inj h, hup]
      rfl
    · rw [← Option.some.inj h]
      rfl

theorem text_filterMap_sublist (ps : List Name) :
    ((ps.filterMap component?).map ofComponents.text).Sublist ps := by
  induction ps with
  | nil => exact .slnil
  | cons n ps ih =>
      rw [List.filterMap_cons]
      cases hc : component? n with
      | none => exact ih.cons n
      | some c =>
          rw [List.map_cons, text_of_component? hc]
          exact ih.cons_cons n

/-- The components of a path are written as some of its pieces, in order. -/
theorem text_components_sublist (p : Path) :
    (p.components.map ofComponents.text).Sublist (pieces p.bytes) := by
  obtain ⟨first, rest, hp⟩ := List.exists_cons_of_ne_nil (pieces_ne_nil p.bytes)
  unfold components
  rw [hp]
  dsimp only
  rw [List.map_append]
  -- Only the first piece may become something that is no name: the
  -- root where it is empty, or a dot.
  have hlead : ((if p.isAbsolute = true then [Component.root]
      else if first = dot then [Component.here]
      else (component? first).toList).map ofComponents.text).Sublist [first] := by
    split
    · rename_i habs
      have hfirst : first = [] := by
        obtain ⟨b, bs, hb⟩ : ∃ b bs, p.bytes = b :: bs := by
          refine List.exists_cons_of_ne_nil fun hnil => ?_
          rw [isAbsolute, hnil] at habs
          contradiction
        rw [isAbsolute, hb] at habs
        obtain rfl : b = slash := by simpa using habs
        rw [hb, pieces_cons_slash] at hp
        exact (List.cons.inj hp).1.symm
      rw [hfirst]
      exact .refl _
    · split
      · rename_i hdot
        rw [hdot]
        exact .refl _
      · have hone := text_filterMap_sublist [first]
        rw [List.filterMap_cons] at hone
        cases hc : component? first with
        | none => exact List.nil_sublist _
        | some c =>
            rw [hc] at hone
            exact hone
  exact hlead.append (text_filterMap_sublist rest)

/-- Components of a path behind its root. -/
theorem text_of_prefix {p : Path} {lead cs : List Component}
    (hpre : lead ++ cs <+: p.components) (hroot : .root ∉ cs) :
    ∀ n ∈ cs.map ofComponents.text, n ≠ [] ∧ slash ∉ n := by
  intro n hn
  obtain ⟨c, hc, rfl⟩ := List.mem_map.mp hn
  have hproper := isProper_of_mem_components (hpre.subset (List.mem_append_right lead hc))
  exact isPlain_text hproper fun h => hroot (h ▸ hc)

/-! ### The paths above -/

/-- `q` asks for a leading part of what `p` asks for. -/
structure IsOnWay (q p : Path) : Prop where
  moves : q.moves <+: p.moves
  isAbsolute_eq : q.isAbsolute = p.isAbsolute

/-- `q` asks for less than `p`, but in the same way, and is refused no sooner. -/
structure IsAbove (q p : Path) : Prop where
  moves : q.moves <+: p.moves.dropLast
  isAbsolute_eq : q.isAbsolute = p.isAbsolute
  refusal : p.refusal? = none → q.refusal? = none

theorem IsOnWay.refl (p : Path) : IsOnWay p p := ⟨List.prefix_rfl, rfl⟩

theorem IsAbove.isOnWay {p q : Path} (h : IsAbove q p) : IsOnWay q p :=
  ⟨h.moves.trans (List.dropLast_prefix _), h.isAbsolute_eq⟩

/-- What is above an entry of a directory is on the way to the directory. -/
theorem IsAbove.isOnWay_of_extends {p q q' : Path} {n : Name} (h : IsAbove q' q)
    (hq : Extends p [n] q) : IsOnWay q' p := by
  refine ⟨?_, h.isAbsolute_eq.trans hq.isAbsolute_eq⟩
  have hmoves := h.moves
  rwa [hq.moves_eq, List.map_singleton, List.dropLast_concat] at hmoves

/-- The last component of a path is a move, if it has any. -/
theorem filter_isMove_dropLast_components (p : Path) :
    p.components.dropLast.filter isMove <+: p.moves.dropLast := by
  obtain ⟨lead, hlead, hcomps⟩ := components_eq p
  have hmoves : ∀ cs : List Component, cs <+: p.moves → cs.filter isMove = cs := fun cs hcs =>
    List.filter_eq_self.mpr fun c hc =>
      List.filter_eq_self.mp (filter_isMove_filterMap _) c (hcs.subset hc)
  rw [hcomps]
  by_cases hnil : p.moves = []
  · rw [hnil, List.append_nil]
    rcases hlead with ⟨rfl, -⟩ | ⟨rfl, -⟩ | ⟨rfl, -⟩ <;> exact List.nil_prefix
  · rw [List.dropLast_append_of_ne_nil hnil, List.filter_append,
      hmoves _ (List.dropLast_prefix _)]
    rcases hlead with ⟨rfl, -⟩ | ⟨rfl, -⟩ | ⟨rfl, -⟩ <;> exact List.prefix_rfl

theorem isAbove_of_pieces {p q : Path} {cs : List Component}
    (hpre : cs <+: p.components.dropLast) (hpieces : pieces q.bytes = cs.map ofComponents.text)
    (hne : q.bytes ≠ []) (habs : q.isAbsolute = p.isAbsolute) : IsAbove q p := by
  have hpre' : cs <+: p.components := hpre.trans (List.dropLast_prefix _)
  refine ⟨?_, habs, refusal?_of_pieces_sublist ?_ hne⟩
  · rw [moves, hpieces, filterMap_component?_text fun c hc =>
      isProper_of_mem_components (hpre'.subset hc)]
    exact (hpre.filter _).trans (filter_isMove_dropLast_components p)
  · rw [hpieces]
    exact (hpre'.sublist.map _).trans (text_components_sublist p)

/-- A leading part of the components, the root alone aside. -/
theorem isAbove_ofComponents_take {p : Path} {n : Nat} (hn : n ≠ 0)
    (hlt : n < p.components.length) (hroot : ¬ (n = 1 ∧ p.isAbsolute = true)) :
    IsAbove (ofComponents (p.components.take n)) p := by
  have hshort : p.components.take n <+: p.components.dropLast := by
    rw [List.dropLast_eq_take]
    exact List.take_prefix_take_left (Nat.le_sub_one_of_lt hlt)
  have hpre : p.components.take n <+: p.components := List.take_prefix ..
  have hlen : (p.components.take n).length = n := List.length_take_of_le (Nat.le_of_lt hlt)
  obtain ⟨lead, hlead, hcomps⟩ := components_eq p
  -- The root is written as a slash in front, so an absolute path is taken apart behind it.
  cases habs : p.isAbsolute with
  | true =>
      obtain rfl : lead = [.root] := by simpa [habs] using hlead
      obtain ⟨k, rfl⟩ : ∃ k, n = k + 1 := Nat.exists_eq_succ_of_ne_zero hn
      have htake : p.components.take (k + 1) = [.root] ++ p.moves.take k := by rw [hcomps]; rfl
      have hnot : .root ∉ p.moves.take k :=
        fun h => root_not_mem_moves p (List.mem_of_mem_take h)
      have hne : p.moves.take k ≠ [] := by
        intro hnil
        rw [htake, hnil] at hlen
        exact hroot ⟨hlen.symm, habs⟩
      rw [htake] at hpre hshort ⊢
      refine isAbove_of_pieces hshort ?_ (List.cons_ne_nil _ _) habs.symm
      have htext := text_of_prefix hpre hnot
      rw [List.singleton_append, ofComponents, pieces_cons_slash,
        pieces_ofNames (mt List.map_eq_nil_iff.mp hne) fun n hn => (htext n hn).2]
      rfl
  | false =>
      have hnot : .root ∉ p.components.take n := by
        intro h
        have hmem := hpre.subset h
        rw [hcomps, List.mem_append] at hmem
        rcases hmem with hmem | hmem
        · rcases hlead with ⟨-, h⟩ | ⟨rfl, -⟩ | ⟨rfl, -⟩
          · rw [habs] at h
            contradiction
          · simp at hmem
          · simp at hmem
        · exact root_not_mem_moves p hmem
      have hne : p.components.take n ≠ [] := by
        intro hnil
        rw [hnil] at hlen
        exact hn hlen.symm
      have hpre' : [] ++ p.components.take n <+: p.components := hpre
      have htext := text_of_prefix hpre' hnot
      have hpieces := pieces_ofNames (mt List.map_eq_nil_iff.mp hne) fun n hn => (htext n hn).2
      rw [ofComponents_eq_ofNames hne hnot]
      refine isAbove_of_pieces hshort hpieces (fun hnil => ?_)
        ((ofNames_not_isAbsolute htext).trans habs.symm)
      rw [hnil] at hpieces
      exact (htext [] (hpieces ▸ List.mem_singleton.mpr rfl)).1 rfl

theorem isAbove_of_mem_ancestors {p q : Path} (h : q ∈ Program.ancestors p) : IsAbove q p := by
  unfold Program.ancestors at h
  obtain ⟨n, hn, hq⟩ := List.mem_filterMap.mp h
  have hlt : n < p.components.length := by simpa using hn
  split at hq
  · contradiction
  · rename_i hcond
    obtain ⟨h0, h1⟩ := not_or.mp hcond
    rw [← Option.some.inj hq]
    exact isAbove_ofComponents_take h0 hlt h1

end Path

namespace Tree

variable {t : Tree} {cwd loc : Location} {p q : Path}

/-- On the way to a directory there are directories. -/
theorem Reaches.of_isOnWay (hc : t.Closed)
    (hd : ∃ mode, t.node? (p.start cwd) = some (.dir mode)) (h : Reaches t cwd p loc)
    (hq : q.IsOnWay p) : ∃ loc', Reaches t cwd q loc' := by
  obtain ⟨links, hl⟩ := h.leads
  obtain ⟨rest, hrest⟩ := hq.moves
  rw [← hrest] at hl
  obtain ⟨links', loc', hl', -⟩ := hl.of_append
  have hstart := Path.start_eq hq.isAbsolute_eq cwd
  exact ⟨loc', ⟨links', hstart ▸ hl'⟩, hl'.dir_of_closed hc hd⟩

/-- Where a path leads to a directory, so does each path above it. -/
theorem isDir_of_isAbove (hc : t.Closed)
    (hd : ∃ mode, t.node? (p.start cwd) = some (.dir mode)) (hq : q.IsAbove p)
    (h : t.isDir cwd p = true) : t.isDir cwd q = true := by
  obtain ⟨loc, hr⟩ := Reaches.of_isDir hc hd h
  obtain ⟨loc', hr'⟩ := hr.of_isOnWay hc hd hq.isOnWay
  exact hr'.isDir (hq.refusal (isDir_iff.mp h).1)

end Tree

end LlvmBootstrap
