import LlvmBootstrap.Proofs.Tree.Walk
import LlvmBootstrap.Proofs.Tree.Places

/-!
The places a walk goes through. Where every link below a directory is relative, the only way
out of the directory is `..` from the directory itself; whether any walk of a link comes to do
that can be told from each link's own target, since the targets met on the way are told of by
the links they belong to.
-/

namespace LlvmBootstrap.Tree

/-- The directories that a walk is in and the names it looks at, links
followed at the end as well. -/
def visits (t : Tree) (links : Nat) (cur : Location) : List Component → List Location
  | [] => [cur]
  | .root :: cs => cur :: visits t links [] cs
  | .here :: cs => cur :: visits t links cur cs
  | .up :: cs => cur :: visits t links cur.dropLast cs
  | .name n :: cs =>
    if maxName < n.length then [cur] else
    match t.node? (cur ++ [n]) with
    | none | some (.file _) => [cur, cur ++ [n]]
    | some (.dir _) => cur :: visits t links (cur ++ [n]) cs
    | some (.link target) =>
      match links with
      | 0 => [cur, cur ++ [n]]
      | links + 1 =>
          cur :: (cur ++ [n]) :: visits t links (target.start cur) (steps target ++ cs)
termination_by cs => (links, cs.length)

variable {t : Tree} {links links' k : Nat} {cur loc top : Location} {cs cs' : List Component}

theorem mem_visits_self (t : Tree) (links : Nat) (cur : Location) (cs : List Component) :
    cur ∈ visits t links cur cs := by
  cases cs with
  | nil => simp [visits]
  | cons c cs =>
      cases c with
      | root => simp [visits]
      | here => simp [visits]
      | up => simp [visits]
      | name n =>
          rw [visits]
          split
          · simp
          · split
            · simp
            · simp
            · simp
            · split <;> simp

/-- Where a walk ends it has been. -/
theorem mem_visits_of_found {n : Node} (h : walk t true links cur cs = .ok (.found loc n)) :
    loc ∈ visits t links cur cs := by
  -- Along the walk. The place it ends at is the last one visited.
  fun_induction walk t true links cur cs with
  | case1 links cur =>
      rw [← (Spot.found.inj (Except.ok.inj h)).1]
      exact mem_visits_self ..
  | case2 links cur cs ih =>
      rw [visits]
      exact List.mem_cons_of_mem _ (ih h)
  | case3 links cur cs ih =>
      rw [visits]
      exact List.mem_cons_of_mem _ (ih h)
  | case4 links cur cs ih =>
      rw [visits]
      exact List.mem_cons_of_mem _ (ih h)
  | case5 => contradiction
  | case6 => simp at h
  | case7 => contradiction
  | case8 links cur n hlen mode node =>
      rw [← (Spot.found.inj (Except.ok.inj h)).1, visits, if_neg hlen, node]
      simp [visits]
  | case9 links cur n cs hlen mode node hcs ih =>
      rw [visits, if_neg hlen, node]
      exact List.mem_cons_of_mem _ (ih h)
  | case10 links cur n hlen id node =>
      rw [← (Spot.found.inj (Except.ok.inj h)).1, visits, if_neg hlen, node]
      simp
  | case11 => contradiction
  | case12 links cur n cs hlen target node hlast => simp at hlast
  | case13 => contradiction
  | case14 cur n cs hlen target node hcs links ih =>
      rw [visits, if_neg hlen, node]
      exact List.mem_cons_of_mem _ (List.mem_cons_of_mem _ (ih h))

/-- A walk that ends at a missing name has looked at it. -/
theorem mem_visits_of_vacant {dir : Location} {m : Name}
    (h : walk t true links cur cs = .ok (.vacant dir m)) :
    dir ++ [m] ∈ visits t links cur cs := by
  -- Along the walk. A place where nothing stands is visited as well.
  fun_induction walk t true links cur cs with
  | case1 => simp at h
  | case2 links cur cs ih =>
      rw [visits]
      exact List.mem_cons_of_mem _ (ih h)
  | case3 links cur cs ih =>
      rw [visits]
      exact List.mem_cons_of_mem _ (ih h)
  | case4 links cur cs ih =>
      rw [visits]
      exact List.mem_cons_of_mem _ (ih h)
  | case5 => contradiction
  | case6 links cur n hlen node =>
      obtain ⟨rfl, rfl⟩ := Spot.vacant.inj (Except.ok.inj h)
      rw [visits, if_neg hlen, node]
      simp
  | case7 => contradiction
  | case8 => simp at h
  | case9 links cur n cs hlen mode node hcs ih =>
      rw [visits, if_neg hlen, node]
      exact List.mem_cons_of_mem _ (ih h)
  | case10 => simp at h
  | case11 => contradiction
  | case12 => simp at h
  | case13 => contradiction
  | case14 cur n cs hlen target node hcs links ih =>
      rw [visits, if_neg hlen, node]
      exact List.mem_cons_of_mem _ (List.mem_cons_of_mem _ (ih h))

theorem Leads.visits_subset (h : Leads t links cur cs links' loc) :
    visits t links' loc cs' ⊆ visits t links cur (cs ++ cs') := by
  induction h with
  | done => exact fun _ h => h
  | root _ ih =>
      rw [List.cons_append, visits]
      exact fun _ h => List.mem_cons_of_mem _ (ih h)
  | here _ ih =>
      rw [List.cons_append, visits]
      exact fun _ h => List.mem_cons_of_mem _ (ih h)
  | up _ ih =>
      rw [List.cons_append, visits]
      exact fun _ h => List.mem_cons_of_mem _ (ih h)
  | dir short node _ ih =>
      rw [List.cons_append, visits, if_neg (Nat.not_lt.mpr short), node]
      exact fun _ h => List.mem_cons_of_mem _ (ih h)
  | link short node _ ih =>
      rw [List.cons_append, visits, if_neg (Nat.not_lt.mpr short), node]
      rw [List.append_assoc] at ih
      exact fun _ h => List.mem_cons_of_mem _ (List.mem_cons_of_mem _ (ih h))

/-- With more links left at the start more are left in the end. -/
theorem Leads.more (h : Leads t links cur cs links' loc) (k : Nat) :
    Leads t (links + k) cur cs (links' + k) loc := by
  induction h with
  | done links cur => exact .done _ cur
  | root _ ih => exact .root ih
  | here _ ih => exact .here ih
  | up _ ih => exact .up ih
  | dir short node _ ih => exact .dir short node ih
  | link short node _ ih =>
      rw [Nat.add_right_comm]
      exact .link short node ih

/-! ### Links that stay below a directory -/

/-- Following a link in the directory `dir` comes to the place `top` and goes up from there. -/
def ClimbsOut (t : Tree) (top dir : Location) (target : Path) : Prop :=
  ∃ before behind links, steps target = before ++ .up :: behind ∧
    Leads t maxLinks dir before links top

def StaysBelow (t : Tree) (top dir : Location) (target : Path) : Prop :=
  ∀ loc ∈ visits t maxLinks (target.start dir) (steps target), isWithin top loc = true

def KeepsBelow (t : Tree) (top : Location) (links : Nat) (cur : Location)
    (cs : List Component) :
    Prop :=
  ∀ before behind links', cs = before ++ .up :: behind → ¬ Leads t links cur before links' top

theorem KeepsBelow.rest {c : Component} {cur' : Location}
    (h : KeepsBelow t top links cur (c :: cs))
    (hc : ∀ before links', Leads t links cur' before links' top →
      Leads t links cur (c :: before) links' top) : KeepsBelow t top links cur' cs := by
  rintro before behind links' rfl hl
  exact h (c :: before) behind links' rfl (hc before links' hl)

/-- A walk that is inside and keeps below goes through places inside alone, if the links inside
are relative and none of them climbs out. -/
theorem isWithin_of_mem_visits
    (hlinks : ∀ dir n target, isWithin top dir = true →
      t.node? (dir ++ [n]) = some (.link target) →
      target.isAbsolute = false ∧ ¬ ClimbsOut t top dir target)
    (hbudget : links ≤ maxLinks) (hcur : isWithin top cur = true) (hroot : Component.root ∉ cs)
    (hkeep : KeepsBelow t top links cur cs) :
    ∀ loc ∈ visits t links cur cs, isWithin top loc = true := by
  have hname : ∀ {dir : Location} (n : Name), isWithin top dir = true →
      isWithin top (dir ++ [n]) = true :=
    fun n hd => isWithin_trans hd (isWithin_append _ [n])
  fun_induction visits t links cur cs with
  | case1 links cur => simpa using hcur
  | case2 => simp at hroot
  | case3 links cur cs ih =>
      rw [List.forall_mem_cons]
      exact ⟨hcur, ih hbudget hcur (List.not_mem_of_not_mem_cons hroot)
        (hkeep.rest fun _ _ hl => .here hl)⟩
  | case4 links cur cs ih =>
      have hne : cur ≠ top := by
        rintro rfl
        exact hkeep [] cs links rfl (.done ..)
      rw [List.forall_mem_cons]
      exact ⟨hcur, ih hbudget (isWithin_dropLast hcur hne) (List.not_mem_of_not_mem_cons hroot)
        (hkeep.rest fun _ _ hl => .up hl)⟩
  | case5 => simpa using hcur
  | case6 links cur n cs hlen node => simpa using ⟨hcur, hname n hcur⟩
  | case7 links cur n cs hlen id node => simpa using ⟨hcur, hname n hcur⟩
  | case8 links cur n cs hlen mode node ih =>
      rw [List.forall_mem_cons]
      exact ⟨hcur, ih hbudget (hname n hcur) (List.not_mem_of_not_mem_cons hroot)
        (hkeep.rest fun _ _ hl => .dir (Nat.le_of_not_lt hlen) node hl)⟩
  | case9 cur n cs hlen target node => simpa using ⟨hcur, hname n hcur⟩
  | case10 cur n cs hlen target node links ih =>
      obtain ⟨hrel, hclimb⟩ := hlinks cur n target hcur node
      have hstart : target.start cur = cur := by
        rw [Path.start, hrel]
        rfl
      rw [hstart] at ih ⊢
      rw [List.forall_mem_cons, List.forall_mem_cons]
      refine ⟨hcur, hname n hcur, ih (by omega) hcur ?_ ?_⟩
      · rw [List.mem_append, not_or]
        exact ⟨Path.root_not_mem_steps target, List.not_mem_of_not_mem_cons hroot⟩
      · -- A climb is either one of the link's own target or one of the walk it was met on.
        rintro before behind links' hsplit hl
        have hwalk : ∀ mid, cs = mid ++ .up :: behind →
            ¬ Leads t links cur (steps target ++ mid) links' top := by
          intro mid hcs hmid
          refine hkeep (.name n :: mid) behind links' (by rw [hcs, List.cons_append]) ?_
          refine .link (Nat.le_of_not_lt hlen) node ?_
          rwa [hstart]
        rcases List.append_eq_append_iff.mp hsplit with ⟨mid, rfl, hcs⟩ | ⟨mid, hs, hu⟩
        · exact hwalk mid hcs hl
        · rcases List.cons_eq_append_iff.mp hu with ⟨rfl, hcs⟩ | ⟨mid, rfl, -⟩
          · rw [List.append_nil] at hs
            refine hwalk [] hcs ?_
            rwa [List.append_nil, hs]
          · refine hclimb ⟨before, mid, links' + (maxLinks - links), hs, ?_⟩
            have hmore := hl.more (maxLinks - links)
            rwa [Nat.add_sub_cancel' (by omega)] at hmore

/-- A link that climbs out leaves the directory, unless that is the top of the tree. -/
theorem not_staysBelow_of_climbsOut {dir : Location} {target : Path} (hne : top ≠ [])
    (hrel : target.isAbsolute = false) (h : ClimbsOut t top dir target) :
    ¬ StaysBelow t top dir target := by
  obtain ⟨before, behind, links, hsteps, hl⟩ := h
  intro hstay
  have hup : top.dropLast ∈ visits t links top (.up :: behind) := by
    rw [visits]
    exact List.mem_cons_of_mem _ (mem_visits_self ..)
  have hmem := hl.visits_subset hup
  rw [← hsteps] at hmem
  have hin := hstay top.dropLast (by rwa [Path.start, hrel, if_neg Bool.false_ne_true])
  have hlen := length_le_of_isWithin hin
  rw [List.length_dropLast] at hlen
  have := List.length_pos_iff.mpr hne
  omega

/-- Where every link inside is relative, all of them stay inside
exactly if none of them climbs out. -/
theorem staysBelow_iff (hne : top ≠ [])
    (hrel : ∀ dir n target, isWithin top dir = true →
      t.node? (dir ++ [n]) = some (.link target) →
      target.isAbsolute = false) :
    (∀ dir n target, isWithin top dir = true → t.node? (dir ++ [n]) = some (.link target) →
      StaysBelow t top dir target) ↔
    ∀ dir n target, isWithin top dir = true → t.node? (dir ++ [n]) = some (.link target) →
      ¬ ClimbsOut t top dir target := by
  constructor
  · intro hstay dir n target hdir hlink hclimb
    exact not_staysBelow_of_climbsOut hne (hrel dir n target hdir hlink) hclimb
      (hstay dir n target hdir hlink)
  · intro hclimb dir n target hdir hlink
    have hstart : target.start dir = dir := by
      rw [Path.start, hrel dir n target hdir hlink]
      rfl
    unfold StaysBelow
    rw [hstart]
    refine isWithin_of_mem_visits ?_ (Nat.le_refl _) hdir (Path.root_not_mem_steps target) ?_
    · exact fun dir n target hd hl => ⟨hrel dir n target hd hl, hclimb dir n target hd hl⟩
    · intro before behind links hsteps hl
      exact hclimb dir n target hdir hlink ⟨before, behind, links, hsteps, hl⟩

end LlvmBootstrap.Tree
