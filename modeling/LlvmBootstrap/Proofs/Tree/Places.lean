import LlvmBootstrap.Tree.Change

/-!
What stands at each place of a tree after each way of changing it. A change touches the place
it names, or all places below it; `node?_move` says this of moving a whole directory.
-/

namespace LlvmBootstrap.SortedMap

variable {κ ν : Type} [Ord κ] [Std.LawfulEqOrd κ]

theorem compare_eq_iff {k k' : κ} : compare k k' = .eq ↔ k = k' :=
  ⟨Std.LawfulEqOrd.eq_of_compare, fun h => h ▸ Std.ReflCmp.compare_self⟩

theorem mem_of_find {k : κ} {v : ν} {es : List (κ × ν)} (h : find k es = some v) :
    (k, v) ∈ es := by
  induction es with
  | nil => simp [find] at h
  | cons e es ih =>
      unfold find at h
      split at h
      · rename_i hk
        rw [Std.LawfulEqOrd.eq_of_compare hk, ← Option.some.inj h]
        exact List.mem_cons_self ..
      · exact List.mem_cons_of_mem _ (ih h)

theorem find_of_mem {k : κ} {v : ν} {es : List (κ × ν)}
    (hes : es.Pairwise fun a b => a.1 ≠ b.1) (h : (k, v) ∈ es) : find k es = some v := by
  induction es with
  | nil => simp at h
  | cons e es ih =>
      rcases List.mem_cons.mp h with rfl | h
      · simp [find]
      · have hne : e.1 ≠ k := List.rel_of_pairwise_cons hes h
        have hcmp : compare k e.1 ≠ .eq := fun hk => hne (compare_eq_iff.mp hk).symm
        rw [find, if_neg hcmp]
        exact ih hes.of_cons h

theorem keys_distinct (m : SortedMap κ ν) : m.entries.Pairwise fun a b => a.1 ≠ b.1 := by
  refine m.rising.imp fun {a b} h heq => ?_
  rw [compare_eq_iff.mpr heq] at h
  contradiction

theorem get?_eq_some_iff {m : SortedMap κ ν} {k : κ} {v : ν} :
    m.get? k = some v ↔ (k, v) ∈ m.entries :=
  ⟨mem_of_find, find_of_mem m.keys_distinct⟩

theorem get?_filter_eq_some_iff {m : SortedMap κ ν} {p : κ → ν → Bool} {k : κ} {v : ν} :
    (m.filter p).get? k = some v ↔ m.get? k = some v ∧ p k v = true := by
  simp only [get?_eq_some_iff, filter, List.mem_filter]

/-- Keeping the entries whose keys pass a test. -/
theorem get?_filter_key (m : SortedMap κ ν) (p : κ → Bool) (k : κ) :
    (m.filter fun k _ => p k).get? k = if p k then m.get? k else none := by
  apply Option.ext
  intro v
  rw [get?_eq_some_iff]
  by_cases hp : p k = true
  · simp [filter, hp, get?_eq_some_iff]
  · simp [filter, hp]

/-- Entries with distinct keys put into a map stand before those it had. -/
theorem get?_insertAll [Std.TransOrd κ] (m : SortedMap κ ν) {es : List (κ × ν)}
    (hes : es.Pairwise fun a b => a.1 ≠ b.1) (k : κ) :
    (m.insertAll es).get? k = (find k es).or (m.get? k) := by
  induction es generalizing m with
  | nil => rfl
  | cons e es ih =>
      change ((m.insert e.1 e.2).insertAll es).get? k = _
      rw [ih _ hes.of_cons, find]
      by_cases hk : k = e.1
      · subst hk
        have hrest : find e.1 es = none := by
          cases hf : find e.1 es with
          | none => rfl
          | some v => exact absurd rfl (List.rel_of_pairwise_cons hes (mem_of_find hf) :)
        simp [hrest]
      · have hcmp : compare k e.1 ≠ .eq := fun h => hk (compare_eq_iff.mp h)
        rw [if_neg hcmp, get?_insert_of_ne _ _ hk]

end LlvmBootstrap.SortedMap

namespace LlvmBootstrap.Tree

/-! ### Places below a place -/

theorem isWithin_iff {top loc : Location} :
    isWithin top loc = true ↔ ∃ rel, loc = top ++ rel := by
  rw [isWithin, List.isPrefixOf_iff_prefix]
  exact exists_congr fun rel => eq_comm

theorem isWithin_eq_false_iff {top loc : Location} :
    isWithin top loc = false ↔ ∀ rel, loc ≠ top ++ rel := by
  rw [← Bool.not_eq_true, isWithin_iff, not_exists]

@[simp] theorem isWithin_append (top rel : Location) : isWithin top (top ++ rel) = true :=
  isWithin_iff.mpr ⟨rel, rfl⟩

@[simp] theorem isWithin_self (top : Location) : isWithin top top = true :=
  isWithin_iff.mpr ⟨[], (List.append_nil _).symm⟩

theorem isWithin_trans {a b c : Location} (hab : isWithin a b = true)
    (hbc : isWithin b c = true) :
    isWithin a c = true := by
  obtain ⟨rel, rfl⟩ := isWithin_iff.mp hab
  obtain ⟨rel', rfl⟩ := isWithin_iff.mp hbc
  rw [List.append_assoc]
  exact isWithin_append ..

/-- Of two entries of one directory, neither lies below the other. -/
theorem isWithin_sibling {top : Location} {n m : Name} {rel : Location} (h : n ≠ m) :
    isWithin (top ++ [n]) (top ++ m :: rel) = false := by
  rw [isWithin_eq_false_iff]
  rintro rel' he
  rw [List.append_assoc, List.append_cancel_left_eq] at he
  exact h (List.cons.inj he).1.symm

theorem isWithin_nil {top : Location} (h : top ≠ []) : isWithin top [] = false := by
  rw [isWithin_eq_false_iff]
  rintro rel he
  exact h (List.append_eq_nil_iff.mp he.symm).1

theorem isWithin_dropLast {top loc : Location} (h : isWithin top loc = true)
    (hne : loc ≠ top) :
    isWithin top loc.dropLast = true := by
  obtain ⟨rel, rfl⟩ := isWithin_iff.mp h
  have hrel : rel ≠ [] := by
    rintro rfl
    simp at hne
  rw [List.dropLast_append_of_ne_nil hrel]
  exact isWithin_append ..

/-- No way up leads into a directory. -/
theorem not_isWithin_dropLast {top loc : Location} (h : isWithin top loc = false) :
    isWithin top loc.dropLast = false := by
  rw [isWithin_eq_false_iff] at h ⊢
  intro rel hrel
  by_cases hnil : loc = []
  · subst hnil
    exact h rel hrel
  · refine h (rel ++ [loc.getLast hnil]) ?_
    rw [← List.append_assoc, ← hrel, List.dropLast_concat_getLast]

/-- A step down leads into an entry by the entry's name alone. -/
theorem not_isWithin_concat {top loc : Location} {x n : Name}
    (h : isWithin (top ++ [x]) loc = false) (hne : n ≠ x) :
    isWithin (top ++ [x]) (loc ++ [n]) = false := by
  rw [isWithin_eq_false_iff] at h ⊢
  intro rel hrel
  by_cases hnil : rel = []
  · rw [hnil, List.append_nil] at hrel
    exact hne (List.cons.inj (List.append_inj' hrel rfl).2).1
  · rw [← List.dropLast_concat_getLast hnil, ← List.append_assoc] at hrel
    exact h _ (List.append_inj' hrel rfl).1

theorem length_le_of_isWithin {top loc : Location} (h : isWithin top loc = true) :
    top.length ≤ loc.length := by
  obtain ⟨rel, rfl⟩ := isWithin_iff.mp h
  simp

/-- A directory is not within any of its entries. -/
theorem not_isWithin_entry (top : Location) (n : Name) :
    isWithin (top ++ [n]) top = false := by
  rw [← Bool.not_eq_true]
  intro h
  have hlen := length_le_of_isWithin h
  rw [List.length_append, List.length_singleton] at hlen
  omega

/-! ### What stands where -/

@[simp] theorem node?_nil (t : Tree) : t.node? [] = some (.dir 0o755) := rfl

theorem node?_eq_get? (t : Tree) {loc : Location} (h : loc ≠ []) :
    t.node? loc = t.nodes.get? loc := by
  cases loc with
  | nil => contradiction
  | cons a l => rfl

theorem node?_put (t : Tree) {loc : Location} (n : Node) (h : loc ≠ []) (loc' : Location) :
    (t.put loc n).node? loc' = if loc' = loc then some n else t.node? loc' := by
  by_cases he : loc' = loc
  · rw [he, node?_put_self t n h, if_pos rfl]
  · rw [node?_put_of_ne t n he, if_neg he]

theorem node?_remove (t : Tree) {loc : Location} (h : loc ≠ []) (loc' : Location) :
    (t.remove loc).node? loc' = if loc' = loc then none else t.node? loc' := by
  by_cases he : loc' = loc
  · rw [he, node?_eq_get? _ h, if_pos rfl]
    exact SortedMap.get?_erase_self ..
  · rw [node?_remove_of_ne t he, if_neg he]

theorem node?_put_below (t : Tree) (n : Node) (top : Location) {ns : Location} (h : ns ≠ [])
    (rel : Location) :
    (t.put (top ++ ns) n).node? (top ++ rel) =
      if rel = ns then some n else t.node? (top ++ rel) := by
  simp only [node?_put t n (List.append_ne_nil_of_right_ne_nil top h),
    List.append_cancel_left_eq]

theorem node?_remove_below (t : Tree) (top : Location) {ns : Location} (h : ns ≠ [])
    (rel : Location) :
    (t.remove (top ++ ns)).node? (top ++ rel) =
      if rel = ns then none else t.node? (top ++ rel) := by
  simp only [node?_remove t (List.append_ne_nil_of_right_ne_nil top h),
    List.append_cancel_left_eq]

@[simp] theorem node?_setBody (t : Tree) (id : FileId) (b : FileBody) (loc : Location) :
    (t.setBody id b).node? loc = t.node? loc := by
  cases loc <;> rfl

@[simp] theorem node?_setContent (t : Tree) (id : FileId) (bs : Bytes) (loc : Location) :
    (t.setContent id bs).node? loc = t.node? loc := node?_setBody ..

@[simp] theorem node?_addBody (t : Tree) (b : FileBody) (loc : Location) :
    (t.addBody b).2.node? loc = t.node? loc := by
  cases loc <;> rfl

@[simp] theorem bodies_put (t : Tree) (loc : Location) (n : Node) :
    (t.put loc n).bodies = t.bodies := rfl

@[simp] theorem bodies_remove (t : Tree) (loc : Location) :
    (t.remove loc).bodies = t.bodies := rfl

@[simp] theorem bodies_prune (t : Tree) (loc : Location) :
    (t.prune loc).bodies = t.bodies := rfl

@[simp] theorem bodies_move (t : Tree) (src dst : Location) :
    (t.move src dst).bodies = t.bodies := rfl

@[simp] theorem bodies_setBody (t : Tree) (id : FileId) (b : FileBody) :
    (t.setBody id b).bodies = t.bodies.set id b := rfl

@[simp] theorem bodies_addBody (t : Tree) (b : FileBody) :
    (t.addBody b).2.bodies = t.bodies ++ [b] := rfl

theorem node?_prune (t : Tree) {top : Location} (h : top ≠ []) (loc : Location) :
    (t.prune top).node? loc = if isWithin top loc then none else t.node? loc := by
  by_cases hl : loc = []
  · rw [hl, isWithin_nil h]
    rfl
  · rw [node?_eq_get? _ hl, node?_eq_get? _ hl]
    refine (SortedMap.get?_filter_key t.nodes (fun l => !isWithin top l) loc).trans ?_
    cases isWithin top loc <;> rfl

theorem isVacantBelow_iff {t : Tree} {top : Location} :
    t.isVacantBelow top = true ↔ ∀ rel, rel ≠ [] → t.node? (top ++ rel) = none := by
  unfold isVacantBelow
  rw [List.all_eq_true]
  constructor
  · intro h rel hrel
    have hne : top ++ rel ≠ [] := List.append_ne_nil_of_right_ne_nil top hrel
    cases hn : t.node? (top ++ rel) with
    | none => rfl
    | some n =>
        rw [node?_eq_get? _ hne, SortedMap.get?_eq_some_iff] at hn
        simpa [hrel] using h _ hn
  · intro h e he
    rw [Bool.not_eq_true', ← Bool.not_eq_true, Bool.and_eq_true, isWithin_iff]
    rintro ⟨⟨rel, hrel⟩, hne⟩
    have hnil : rel ≠ [] := by
      rintro rfl
      simp [hrel] at hne
    have hget : t.nodes.get? (top ++ rel) = some e.2 :=
      SortedMap.get?_eq_some_iff.mpr (by rw [← hrel]; exact he)
    have := h rel hnil
    rw [node?_eq_get? _ (List.append_ne_nil_of_right_ne_nil top hnil), hget] at this
    contradiction

def moved (t : Tree) (src dst : Location) : List (Location × Node) :=
  (t.nodes.entries.filter fun e => isWithin src e.1).map fun e =>
    (dst ++ e.1.drop src.length, e.2)

theorem moved_distinct (t : Tree) (src dst : Location) :
    (t.moved src dst).Pairwise fun a b => a.1 ≠ b.1 := by
  rw [moved, List.pairwise_map]
  refine List.Pairwise.imp_of_mem ?_ (t.nodes.keys_distinct.filter _)
  intro a b ha hb hne heq
  obtain ⟨ra, hra⟩ := isWithin_iff.mp (List.mem_filter.mp ha).2
  obtain ⟨rb, hrb⟩ := isWithin_iff.mp (List.mem_filter.mp hb).2
  refine hne ?_
  rw [hra, hrb] at heq ⊢
  simpa using heq

theorem find_moved (t : Tree) (src dst loc : Location) :
    SortedMap.find loc (t.moved src dst) =
      if isWithin dst loc then t.nodes.get? (src ++ loc.drop dst.length) else none := by
  apply Option.ext
  intro n
  constructor
  · intro h
    obtain ⟨e, he, heq⟩ := List.mem_map.mp (SortedMap.mem_of_find h)
    obtain ⟨hmem, hw⟩ := List.mem_filter.mp he
    obtain ⟨rel, hrel⟩ := isWithin_iff.mp hw
    obtain ⟨rfl, rfl⟩ := Prod.mk.inj heq
    rw [hrel, List.drop_left, isWithin_append, if_pos rfl, List.drop_left, ← hrel]
    exact SortedMap.get?_eq_some_iff.mpr hmem
  · intro h
    by_cases hw : isWithin dst loc = true
    · obtain ⟨rel, rfl⟩ := isWithin_iff.mp hw
      rw [if_pos hw, List.drop_left, SortedMap.get?_eq_some_iff] at h
      refine SortedMap.find_of_mem (t.moved_distinct src dst) (List.mem_map.mpr
        ⟨_, List.mem_filter.mpr ⟨h, isWithin_append ..⟩, ?_⟩)
      simp
    · rw [if_neg hw] at h
      contradiction

/-- A move takes all below `src` to below `dst`, where nothing else is left. -/
theorem node?_move (t : Tree) {src dst : Location} (hs : src ≠ []) (hd : dst ≠ [])
    (loc : Location) :
    (t.move src dst).node? loc =
      if isWithin dst loc then t.node? (src ++ loc.drop dst.length)
      else if isWithin src loc then none else t.node? loc := by
  by_cases hl : loc = []
  · rw [hl, isWithin_nil hd, isWithin_nil hs]
    rfl
  · have hrest : ((t.prune src).prune dst).node? loc =
        if isWithin dst loc then none else if isWithin src loc then none else t.node? loc := by
      rw [node?_prune _ hd, node?_prune _ hs]
    rw [node?_eq_get? _ hl] at hrest ⊢
    refine (SortedMap.get?_insertAll _ (t.moved_distinct src dst) loc).trans ?_
    rw [find_moved, hrest]
    by_cases hw : isWithin dst loc = true
    · rw [if_pos hw, if_pos hw, if_pos hw, Option.or_none,
        node?_eq_get? _ (List.append_ne_nil_of_left_ne_nil hs _)]
    · rw [if_neg hw, if_neg hw, if_neg hw, Option.none_or]

end LlvmBootstrap.Tree
