import LlvmBootstrap.Proofs.Path.Moves
import LlvmBootstrap.Proofs.Tree.Places

/-!
Walks in two parts. `Leads` says how a walk goes through directories and links to the directory
where its last part begins; it stays possible as long as those directories and links stay,
whatever else becomes of the tree. Where no link is met on the last part, that part is a plain
descent.
-/

namespace LlvmBootstrap

namespace Path

def refusal? (p : Path) : Option Errno :=
  if 0 ∈ p.bytes then some .zeroInPath
  else if p.bytes = [] then some .notFound
  else if Tree.maxPath < p.bytes.length then some .nameTooLong
  else none

theorem refusal?_eq_none_iff {p : Path} :
    p.refusal? = none ↔ 0 ∉ p.bytes ∧ p.bytes ≠ [] ∧ p.bytes.length ≤ Tree.maxPath := by
  rw [refusal?]
  split
  · simp [*]
  · split
    · simp [*]
    · split
      · simp [*]
      · simp [*] at *
        assumption

theorem refusal?_ne_notFound {p : Path} (h : p.bytes ≠ []) : p.refusal? ≠ some .notFound := by
  rw [refusal?, if_neg h]
  split
  · simp
  · split <;> simp

/-- Where there can be a path to what is in a directory, there can be one to the directory. -/
theorem refusal?_of_join {p q : Path} (hq : q.isAbsolute = false) (hne : p.bytes ≠ [])
    (h : (p / q).refusal? = none) : p.refusal? = none := by
  obtain ⟨hzero, -, hlen⟩ := refusal?_eq_none_iff.mp h
  obtain ⟨rest, hrest⟩ : ∃ rest, (p / q).bytes = p.bytes ++ rest :=
    (bytes_join_of_not_isAbsolute p hq).elim (fun hb => ⟨_, hb.1⟩) fun hb => ⟨_, hb.1⟩
  rw [hrest, List.mem_append, not_or] at hzero
  rw [hrest, List.length_append] at hlen
  exact refusal?_eq_none_iff.mpr ⟨hzero.1, hne, Nat.le_of_add_right_le hlen⟩

def start (p : Path) (cwd : Location) : Location := if p.isAbsolute then [] else cwd

theorem start_eq {p q : Path} (h : q.isAbsolute = p.isAbsolute) (cwd : Location) :
    q.start cwd = p.start cwd := by
  rw [start, start, h]

end Path

namespace Tree

theorem resolve_eq (t : Tree) (cwd : Location) (follow : Bool) (p : Path) :
    t.resolve cwd follow p = match p.refusal? with
      | some e => .error e
      | none => t.walk follow maxLinks (p.start cwd) (steps p) := by
  unfold resolve Path.refusal? Path.start
  split
  · rfl
  · split
    · rfl
    · split <;> rfl

theorem refusal?_of_resolve {t : Tree} {cwd : Location} {follow : Bool} {p : Path} {s : Spot}
    (h : t.resolve cwd follow p = .ok s) : p.refusal? = none := by
  rw [resolve_eq] at h
  cases hp : p.refusal? with
  | none => rfl
  | some e =>
      rw [hp] at h
      contradiction

/-! ### The way to a directory -/

/-- Walking from `cur` along some components, with `links` links to be followed at most, ends
at the directory `loc`, and so many links are left. -/
inductive Leads (t : Tree) : Nat → Location → List Component → Nat → Location → Prop
  | done (links : Nat) (cur : Location) : Leads t links cur [] links cur
  | root {links links' : Nat} {cur loc : Location} {cs : List Component}
      (rest : Leads t links [] cs links' loc) : Leads t links cur (.root :: cs) links' loc
  | here {links links' : Nat} {cur loc : Location} {cs : List Component}
      (rest : Leads t links cur cs links' loc) : Leads t links cur (.here :: cs) links' loc
  | up {links links' : Nat} {cur loc : Location} {cs : List Component}
      (rest : Leads t links cur.dropLast cs links' loc) :
      Leads t links cur (.up :: cs) links' loc
  | dir {links links' : Nat} {cur loc : Location} {n : Name}
      {cs : List Component} {mode : Mode}
      (short : n.length ≤ maxName) (node : t.node? (cur ++ [n]) = some (.dir mode))
      (rest : Leads t links (cur ++ [n]) cs links' loc) :
      Leads t links cur (.name n :: cs) links' loc
  | link {links links' : Nat} {cur loc : Location} {n : Name} {cs : List Component}
      {target : Path}
      (short : n.length ≤ maxName) (node : t.node? (cur ++ [n]) = some (.link target))
      (rest : Leads t links (target.start cur) (steps target ++ cs) links' loc) :
      Leads t (links + 1) cur (.name n :: cs) links' loc

structure RoutesKept (t t' : Tree) : Prop where
  dirs : ∀ loc mode, t.node? loc = some (.dir mode) → ∃ mode', t'.node? loc = some (.dir mode')
  links : ∀ loc target, t.node? loc = some (.link target) → t'.node? loc = some (.link target)

theorem RoutesKept.refl (t : Tree) : RoutesKept t t :=
  ⟨fun _ mode h => ⟨mode, h⟩, fun _ _ h => h⟩

theorem RoutesKept.trans {t t' t'' : Tree} (h : RoutesKept t t') (h' : RoutesKept t' t'') :
    RoutesKept t t'' where
  dirs loc mode hm := by
    obtain ⟨mode', hm'⟩ := h.dirs loc mode hm
    exact h'.dirs loc mode' hm'
  links loc target ht := h'.links loc target (h.links loc target ht)

theorem RoutesKept.of_kept {t t' : Tree}
    (h : ∀ loc, t.node? loc ≠ none → t'.node? loc = t.node? loc) :
    RoutesKept t t' :=
  ⟨fun loc mode hm => ⟨mode, by rw [h loc (by simp [hm]), hm]⟩,
    fun loc target ht => by rw [h loc (by simp [ht]), ht]⟩

variable {t t' : Tree} {links links' links'' : Nat} {cur loc loc' : Location}
  {cs cs' : List Component} {follow : Bool}

theorem Leads.mono (hk : RoutesKept t t') (h : Leads t links cur cs links' loc) :
    Leads t' links cur cs links' loc := by
  induction h with
  | done links cur => exact .done links cur
  | root _ ih => exact .root ih
  | here _ ih => exact .here ih
  | up _ ih => exact .up ih
  | dir short node _ ih =>
      obtain ⟨mode', node'⟩ := hk.dirs _ _ node
      exact .dir short node' ih
  | link short node _ ih => exact .link short (hk.links _ _ node) ih

theorem Leads.append (h : Leads t links cur cs links' loc)
    (h' : Leads t links' loc cs' links'' loc') :
    Leads t links cur (cs ++ cs') links'' loc' := by
  induction h with
  | done => exact h'
  | root _ ih => exact .root (ih h')
  | here _ ih => exact .here (ih h')
  | up _ ih => exact .up (ih h')
  | dir short node _ ih => exact .dir short node (ih h')
  | link short node _ ih =>
      refine .link short node ?_
      have h := ih h'
      rwa [List.append_assoc] at h

/-- The way along two parts in turn, found from the way along both. -/
theorem Leads.of_append {links₀ : Nat} {cur₀ loc₀ : Location}
    (h : Leads t links₀ cur₀ (cs ++ cs') links'' loc₀) :
    ∃ links' loc, Leads t links₀ cur₀ cs links' loc ∧ Leads t links' loc cs' links'' loc₀ := by
  generalize hall : cs ++ cs' = all at h
  -- Step by step; the way is cut where the first components have run out.
  induction h generalizing cs with
  | done links cur =>
      obtain ⟨rfl, rfl⟩ := List.append_eq_nil_iff.mp hall
      exact ⟨_, _, .done .., .done ..⟩
  | root rest ih =>
      rcases List.append_eq_cons_iff.mp hall with ⟨rfl, rfl⟩ | ⟨cs, rfl, rfl⟩
      · exact ⟨_, _, .done .., .root rest⟩
      · obtain ⟨_, _, h, h'⟩ := ih rfl
        exact ⟨_, _, .root h, h'⟩
  | here rest ih =>
      rcases List.append_eq_cons_iff.mp hall with ⟨rfl, rfl⟩ | ⟨cs, rfl, rfl⟩
      · exact ⟨_, _, .done .., .here rest⟩
      · obtain ⟨_, _, h, h'⟩ := ih rfl
        exact ⟨_, _, .here h, h'⟩
  | up rest ih =>
      rcases List.append_eq_cons_iff.mp hall with ⟨rfl, rfl⟩ | ⟨cs, rfl, rfl⟩
      · exact ⟨_, _, .done .., .up rest⟩
      · obtain ⟨_, _, h, h'⟩ := ih rfl
        exact ⟨_, _, .up h, h'⟩
  | dir short node rest ih =>
      rcases List.append_eq_cons_iff.mp hall with ⟨rfl, rfl⟩ | ⟨cs, rfl, rfl⟩
      · exact ⟨_, _, .done .., .dir short node rest⟩
      · obtain ⟨_, _, h, h'⟩ := ih rfl
        exact ⟨_, _, .dir short node h, h'⟩
  | link short node rest ih =>
      rcases List.append_eq_cons_iff.mp hall with ⟨rfl, rfl⟩ | ⟨cs, rfl, rfl⟩
      · exact ⟨_, _, .done .., .link short node rest⟩
      · obtain ⟨_, _, h, h'⟩ := ih (List.append_assoc ..)
        exact ⟨_, _, .link short node h, h'⟩

/-- A walk goes on where its first part leads. -/
theorem Leads.walk_append (h : Leads t links cur cs links' loc) (hne : cs' ≠ []) :
    walk t follow links cur (cs ++ cs') = walk t follow links' loc cs' := by
  induction h with
  | done => rfl
  | root _ ih => rw [List.cons_append, walk, ih]
  | here _ ih => rw [List.cons_append, walk, ih]
  | up _ ih => rw [List.cons_append, walk, ih]
  | @dir _ _ _ _ n cs _ short node _ ih =>
      have hcs : cs ++ cs' ≠ [] := List.append_ne_nil_of_right_ne_nil cs hne
      rw [List.cons_append, walk, if_neg (Nat.not_lt.mpr short), node]
      simp only [if_neg hcs, ih]
  | @link _ _ cur _ n cs target short node _ ih =>
      have hcs : cs ++ cs' ≠ [] := List.append_ne_nil_of_right_ne_nil cs hne
      rw [List.cons_append, walk, if_neg (Nat.not_lt.mpr short), node]
      simp only [hcs, false_and, if_false]
      rw [← List.append_assoc]
      exact ih

/-- A walk whose last part is empty ends at the directory it leads to. -/
theorem Leads.walk_dir {mode : Mode} (h : Leads t links cur cs links' loc)
    (hd : t.node? loc = some (.dir mode)) :
    walk t true links cur cs = .ok (.found loc (.dir mode)) := by
  induction h with
  | done => rw [walk, hd, Option.getD_some]
  | root _ ih => rw [walk, ih hd]
  | here _ ih => rw [walk, ih hd]
  | up _ ih => rw [walk, ih hd]
  | @dir _ _ cur _ n cs _ short node rest ih =>
      rw [walk, if_neg (Nat.not_lt.mpr short), node]
      by_cases hcs : cs = []
      · subst hcs
        cases rest
        rw [node] at hd
        simp only [if_true]
        rw [Option.some.inj hd]
      · simp only [if_neg hcs, ih hd]
  | link short node _ ih =>
      rw [walk, if_neg (Nat.not_lt.mpr short), node]
      simp only [Bool.not_true, Bool.false_eq_true, and_false, if_false]
      exact ih hd

/-- A walk that does not follow a link at the end finds the directory or the link to it. -/
theorem Leads.exists_walk {mode : Mode} (h : Leads t links cur cs links' loc)
    (hd : t.node? loc = some (.dir mode)) (follow : Bool) :
    ∃ loc' n, walk t follow links cur cs = .ok (.found loc' n) := by
  induction h with
  | done links cur => exact ⟨cur, _, by rw [walk]⟩
  | root _ ih => rw [walk]; exact ih hd
  | here _ ih => rw [walk]; exact ih hd
  | up _ ih => rw [walk]; exact ih hd
  | @dir _ _ cur _ n cs _ short node rest ih =>
      rw [walk, if_neg (Nat.not_lt.mpr short), node]
      by_cases hcs : cs = []
      · exact ⟨cur ++ [n], _, if_pos hcs⟩
      · simp only [if_neg hcs]
        exact ih hd
  | @link _ _ cur _ n cs target short node _ ih =>
      rw [walk, if_neg (Nat.not_lt.mpr short), node]
      by_cases hcs : cs = [] ∧ (!follow) = true
      · exact ⟨cur ++ [n], _, if_pos hcs⟩
      · simp only [if_neg hcs]
        exact ih hd

theorem leads_of_walk {mode : Mode}
    (h : walk t true links cur cs = .ok (.found loc (.dir mode))) :
    ∃ links', Leads t links cur cs links' loc := by
  fun_induction walk t true links cur cs with
  | case1 links cur =>
      obtain ⟨rfl, -⟩ := Spot.found.inj (Except.ok.inj h)
      exact ⟨links, .done links cur⟩
  | case2 links cur cs ih =>
      obtain ⟨links', hl⟩ := ih h
      exact ⟨links', .root hl⟩
  | case3 links cur cs ih =>
      obtain ⟨links', hl⟩ := ih h
      exact ⟨links', .here hl⟩
  | case4 links cur cs ih =>
      obtain ⟨links', hl⟩ := ih h
      exact ⟨links', .up hl⟩
  | case5 => contradiction
  | case6 => simp at h
  | case7 => contradiction
  | case8 links cur n hlen mode' node =>
      obtain ⟨rfl, -⟩ := Spot.found.inj (Except.ok.inj h)
      exact ⟨links, .dir (Nat.le_of_not_lt hlen) node (.done ..)⟩
  | case9 links cur n cs hlen mode' node hcs ih =>
      obtain ⟨links', hl⟩ := ih h
      exact ⟨links', .dir (Nat.le_of_not_lt hlen) node hl⟩
  | case10 => simp at h
  | case11 => contradiction
  | case12 => simp at h
  | case13 => contradiction
  | case14 cur n cs hlen target node hcs links ih =>
      obtain ⟨links', hl⟩ := ih h
      exact ⟨links', .link (Nat.le_of_not_lt hlen) node hl⟩

/-! ### Names without links -/

def Unlinked (t : Tree) (top : Location) (ns : List Name) : Prop :=
  ∀ pre, pre <+: ns → pre ≠ [] → ∀ target, t.node? (top ++ pre) ≠ some (.link target)

/-- What stands where some names lead down from `cur`, or why the way there is not open. A link
in the middle ends the descent. -/
def descend (t : Tree) (cur : Location) : List Name → Except Errno (Option Node)
  | [] => .ok (t.node? cur)
  | n :: ns =>
    if maxName < n.length then .error .nameTooLong else
    if ns = [] then .ok (t.node? (cur ++ [n])) else
    match t.node? (cur ++ [n]) with
    | some (.dir _) => descend t (cur ++ [n]) ns
    | none => .error .notFound
    | some (.file _) => .error .notDirectory
    | some (.link _) => .error .loop

def spotBelow (top : Location) (ns : List Name) : Option Node → Spot
  | some n => .found (top ++ ns) n
  | none => .vacant (top ++ ns.dropLast) (ns.getLast?.getD [])

theorem spotBelow_cons (top : Location) (n : Name) {ns : List Name} (hne : ns ≠ []) :
    spotBelow (top ++ [n]) ns = spotBelow top (n :: ns) := by
  obtain ⟨m, ms, rfl⟩ := List.exists_cons_of_ne_nil hne
  funext found
  cases found <;> simp [spotBelow]

theorem Unlinked.tail {top : Location} {n : Name} {ns : List Name}
    (h : Unlinked t top (n :: ns)) : Unlinked t (top ++ [n]) ns := by
  intro pre hpre _
  rw [List.append_assoc]
  exact h (n :: pre) (List.cons_prefix_cons.mpr ⟨rfl, hpre⟩) (by simp)

theorem Unlinked.head {top : Location} {n : Name} {ns : List Name}
    (h : Unlinked t top (n :: ns)) (target : Path) :
    t.node? (top ++ [n]) ≠ some (.link target) :=
  h [n] (List.cons_prefix_cons.mpr ⟨rfl, List.nil_prefix⟩) (by simp) target

theorem walk_names {ns : List Name} (hne : ns ≠ []) (h : Unlinked t cur ns.dropLast)
    (hlast : follow = true → ∀ target, t.node? (cur ++ ns) ≠ some (.link target)) :
    walk t follow links cur (ns.map .name) = (descend t cur ns).map (spotBelow cur ns) := by
  -- Name by name. With a file or nothing in the way both end with the same error, and a link
  -- is there at the last name at most.
  induction ns generalizing cur with
  | nil => contradiction
  | cons n ns ih =>
      rw [List.map_cons, walk, descend]
      by_cases hlong : maxName < n.length
      · rw [if_pos hlong, if_pos hlong]
        rfl
      · rw [if_neg hlong, if_neg hlong]
        cases ns with
        | nil =>
            cases hn : t.node? (cur ++ [n]) with
            | none => simp [Except.map, spotBelow]
            | some node =>
                cases node with
                | dir mode => simp [Except.map, spotBelow]
                | file id => simp [Except.map, spotBelow]
                | link target =>
                    cases follow with
                    | false => simp [Except.map, spotBelow]
                    | true => exact absurd hn (hlast rfl target)
        | cons m ms =>
            rw [List.dropLast_cons_of_ne_nil (List.cons_ne_nil _ _)] at h
            have hrest := ih (List.cons_ne_nil _ _) h.tail fun hf target => by
              rw [List.append_assoc]
              exact hlast hf target
            cases hn : t.node? (cur ++ [n]) with
            | none => simp [Except.map]
            | some node =>
                cases node with
                | dir mode =>
                    rw [spotBelow_cons cur n (List.cons_ne_nil _ _)] at hrest
                    simpa using hrest
                | file id => simp [Except.map]
                | link target => exact absurd hn (h.head target)

theorem unlinked_nil (t : Tree) (top : Location) : Unlinked t top [] := by
  intro pre hpre hne
  exact absurd (List.prefix_nil.mp hpre) hne

theorem Unlinked.concat {top : Location} {n : Name} {ns : List Name} (h : Unlinked t top ns)
    (hn : ∀ target, t.node? (top ++ (ns ++ [n])) ≠ some (.link target)) :
    Unlinked t top (ns ++ [n]) := by
  intro pre hpre hne
  rcases List.prefix_concat_iff.mp hpre with rfl | hpre
  · exact hn
  · exact h pre hpre hne

/-- `p` leads to the directory `top` and from there down along `ns`, without a link on the way
down except perhaps at the end. -/
structure Below (t : Tree) (cwd : Location) (top : Location) (p : Path)
    (ns : List Name) : Prop where
  route : ∃ lead links, steps p = lead ++ ns.map .name ∧
    Leads t maxLinks (p.start cwd) lead links top
  ne_nil : ns ≠ []
  unlinked : Unlinked t top ns.dropLast

/-- `descend` behind the checks of the path itself. -/
def arrive (t : Tree) (top : Location) (p : Path) (ns : List Name) :
    Except Errno (Option Node) :=
  match p.refusal? with
  | some e => .error e
  | none => t.descend top ns

theorem Below.resolve {cwd top : Location} {p : Path} {ns : List Name}
    (h : Below t cwd top p ns)
    (hlast : follow = true → ∀ target, t.node? (top ++ ns) ≠ some (.link target)) :
    t.resolve cwd follow p = (t.arrive top p ns).map (spotBelow top ns) := by
  obtain ⟨lead, links, hsteps, hleads⟩ := h.route
  rw [resolve_eq, arrive]
  cases p.refusal? with
  | some e => rfl
  | none =>
      simp only
      rw [hsteps, hleads.walk_append (mt List.map_eq_nil_iff.mp h.ne_nil)]
      exact walk_names h.ne_nil h.unlinked hlast

theorem descend_eq_ok {top : Location} {ns : List Name} {found : Option Node} (hne : ns ≠ [])
    (h : t.descend top ns = .ok found) :
    t.node? (top ++ ns) = found ∧ (∀ n ∈ ns, n.length ≤ maxName) ∧
      ∀ pre, pre <+: ns.dropLast → pre ≠ [] →
        ∃ mode, t.node? (top ++ pre) = some (.dir mode) := by
  induction ns generalizing top with
  | nil => contradiction
  | cons n ns ih =>
      rw [descend] at h
      split at h
      · contradiction
      · rename_i hlong
        cases ns with
        | nil =>
            refine ⟨Except.ok.inj h, by simpa using hlong, ?_⟩
            rintro pre hpre hnil
            exact absurd (List.prefix_nil.mp hpre) hnil
        | cons m ms =>
            cases hn : t.node? (top ++ [n]) with
            | none => simp [hn] at h
            | some node =>
                cases node with
                | file id => simp [hn] at h
                | link target => simp [hn] at h
                | dir mode =>
                    rw [hn] at h
                    obtain ⟨hfound, hshort, hpre⟩ := ih (List.cons_ne_nil _ _) h
                    rw [List.append_assoc] at hfound
                    refine ⟨hfound, ?_, ?_⟩
                    · rintro x hx
                      rcases List.mem_cons.mp hx with rfl | hx
                      · exact Nat.le_of_not_lt hlong
                      · exact hshort x hx
                    · rintro (_ | ⟨x, pre⟩) hp hnil
                      · contradiction
                      · obtain ⟨rfl, hrest⟩ := List.cons_prefix_cons.mp hp
                        by_cases hpre' : pre = []
                        · exact ⟨mode, hpre' ▸ hn⟩
                        · obtain ⟨mode', h'⟩ := hpre pre hrest hpre'
                          rw [List.append_assoc] at h'
                          exact ⟨mode', h'⟩

/-- A way down on which something is not found ends at a place where nothing stands. -/
theorem vacant_of_descend {top : Location} {ns : List Name} (hne : ns ≠ [])
    (h : t.descend top ns = .error .notFound) :
    ∃ pre, pre <+: ns ∧ t.node? (top ++ pre) = none := by
  induction ns generalizing top with
  | nil => contradiction
  | cons n ns ih =>
      rw [descend] at h
      split at h
      · simp at h
      · split at h
        · simp at h
        · rename_i hnil
          cases hn : t.node? (top ++ [n]) with
          | none => exact ⟨[n], List.cons_prefix_cons.mpr ⟨rfl, List.nil_prefix⟩, hn⟩
          | some node =>
              cases node with
              | file id => simp [hn] at h
              | link target => simp [hn] at h
              | dir mode =>
                  rw [hn] at h
                  obtain ⟨pre, hpre, hnone⟩ := ih hnil h
                  rw [List.append_assoc] at hnone
                  exact ⟨n :: pre, List.cons_prefix_cons.mpr ⟨rfl, hpre⟩, hnone⟩

/-- Where a walk ends does not depend on what is in the files. -/
theorem walk_congr {follow : Bool} {cs : List Component}
    (h : ∀ loc, t'.node? loc = t.node? loc) :
    walk t' follow links cur cs = walk t follow links cur cs := by
  fun_induction walk t follow links cur cs <;> rw [walk] <;> grind

theorem lookup_congr {follow : Bool} {cwd cwd' : Location} {p : Path}
    (h : ∀ loc, t'.node? loc = t.node? loc) (hstart : p.start cwd' = p.start cwd) :
    t'.lookup cwd' follow p = t.lookup cwd follow p := by
  rw [lookup, lookup, resolve_eq, resolve_eq, hstart, walk_congr h]

end Tree

end LlvmBootstrap
