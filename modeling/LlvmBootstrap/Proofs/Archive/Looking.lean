import LlvmBootstrap.Proofs.Archive.Acting
import LlvmBootstrap.Proofs.Archive.Placing
import LlvmBootstrap.Proofs.Machine.MadeDirs
import LlvmBootstrap.Proofs.Tree.Removal

/-!
The walk that looks for links on the way down to a member. How it ends is told by the first
name on the way that names no directory, in any tree; and where it meets no link, all that is
done afterwards with the path to the member happens where the names say.
-/

namespace LlvmBootstrap

/-- One name after another, or all of them at once. -/
theorem Path.join_ofNames_cons (p : Path) {n : Name} {ns : List Name} (hn : IsPlain n)
    (hne : ns ≠ []) (hns : ∀ m ∈ ns, IsPlain m) :
    p / (⟨n⟩ : Path) / ofNames ns = p / ofNames (n :: ns) := by
  have hcons : ofNames (n :: ns) = ⟨n ++ slash :: (ofNames ns).bytes⟩ := by
    obtain ⟨m, ms, rfl⟩ := List.exists_cons_of_ne_nil hne
    simp [ofNames, List.intercalate]
  rw [hcons, join_join p (isAbsolute_name hn) (isAbsolute_ofNames hns) hn.ne_nil fun h =>
    hn.not_slash (List.mem_of_getLast? h)]

namespace Archive

open LlvmBootstrap.Tree Program

/-- What some names below `dest` name, a link at the end not followed. -/
def objectBelow (t : Tree) (cwd : Location) (dest : Path) (ns : List Name) :
    Except Errno (Location × Node) :=
  t.lookup cwd false (dest / Path.ofNames ns)

/-- `pre` is the shortest part of the way down along `names` that names no directory. -/
structure FirstOther (object : List Name → Except Errno (Location × Node))
    (names pre : List Name) :
    Prop where
  ne_nil : pre ≠ []
  isPrefix : pre <+: names
  above : ∀ init, init ≠ [] → init <+: pre → init ≠ pre →
    ∃ loc mode, object init = .ok (loc, .dir mode)
  other : ∀ loc mode, object pre ≠ .ok (loc, .dir mode)

/-- How the walk along `names` ends, told by what the parts of the way name. -/
inductive Course (object : List Name → Except Errno (Location × Node)) (t : Tree)
    (top : Location) (names : List Name) : Except Errno Bool → Prop
  | clear (dirs : ∀ pre, pre ≠ [] → pre <+: names → ∃ loc mode,
      object pre = .ok (loc, .dir mode))
      (free : Unlinked t top names) : Course object t top names (.ok false)
  | missing {pre : List Name} (first : FirstOther object names pre)
      (here : object pre = .error .notFound)
      (free : Unlinked t top names) : Course object t top names (.ok false)
  | file {id : FileId} (first : FirstOther object names names)
      (here : object names = .ok (top ++ names, .file id)) (free : Unlinked t top names) :
      Course object t top names (.ok false)
  | link {pre : List Name} {target : Path} (first : FirstOther object names pre)
      (here : object pre = .ok (top ++ pre, .link target)) :
      Course object t top names (.ok true)
  | below {pre : List Name} {id : FileId} {e : Errno} (first : FirstOther object names pre)
      (here : object pre = .ok (top ++ pre, .file id)) (more : pre ≠ names) :
      Course object t top names (.error e)
  | refused {pre : List Name} {e : Errno} (first : FirstOther object names pre)
      (here : object pre = .error e) (there : e ≠ .notFound) :
      Course object t top names (.error e)

section

variable {object object' : List Name → Except Errno (Location × Node)} {t : Tree}
  {top : Location} {n : Name} {names pre pre' : List Name}
  {res : Except Errno Bool} {mode : Mode}

namespace FirstOther

theorem unique (h : FirstOther object names pre) (h' : FirstOther object names pre') :
    pre = pre' := by
  by_contra hne
  -- The shorter one would name a directory, as it stands above the longer one.
  rcases List.prefix_or_prefix_of_prefix h.isPrefix h'.isPrefix with hle | hle
  · obtain ⟨loc, mode, hdir⟩ := h'.above pre h.ne_nil hle hne
    exact h.other loc mode hdir
  · obtain ⟨loc, mode, hdir⟩ := h.above pre' h'.ne_nil hle (Ne.symm hne)
    exact h'.other loc mode hdir

theorem head (h : ∀ loc mode, object [n] ≠ .ok (loc, .dir mode)) (ns : List Name) :
    FirstOther object (n :: ns) [n] := by
  refine ⟨by simp, List.cons_prefix_cons.mpr ⟨rfl, List.nil_prefix⟩,
    fun init hnil hpre hne => ?_, h⟩
  rcases List.prefix_cons_iff.mp hpre with rfl | ⟨rest, rfl, hrest⟩
  · exact absurd rfl hnil
  · exact absurd (by rw [List.prefix_nil.mp hrest]) hne

/-- A directory in front of a way down. -/
theorem cons {ns : List Name} (hhead : object [n] = .ok (top ++ [n], .dir mode))
    (hobject : ∀ ms, ms ≠ [] → ms <+: ns → object' ms = object (n :: ms))
    (h : FirstOther object' ns pre) :
    FirstOther object (n :: ns) (n :: pre) := by
  refine ⟨by simp, List.cons_prefix_cons.mpr ⟨rfl, h.isPrefix⟩,
    fun init hnil hpre hne => ?_, ?_⟩
  · rcases List.prefix_cons_iff.mp hpre with rfl | ⟨rest, rfl, hrest⟩
    · exact absurd rfl hnil
    · by_cases hnil' : rest = []
      · exact ⟨_, _, hnil' ▸ hhead⟩
      · rw [← hobject rest hnil' (hrest.trans h.isPrefix)]
        exact h.above rest hnil' hrest fun heq => hne (heq ▸ rfl)
  · rw [← hobject pre h.ne_nil h.isPrefix]
    exact h.other

end FirstOther

theorem unlinked_cons {ns : List Name}
    (hn : ∀ target, t.node? (top ++ [n]) ≠ some (.link target))
    (h : Unlinked t (top ++ [n]) ns) : Unlinked t top (n :: ns) := by
  intro pre hpre hnil
  rcases List.prefix_cons_iff.mp hpre with rfl | ⟨rest, rfl, hrest⟩
  · exact absurd rfl hnil
  · by_cases hnil' : rest = []
    · exact hnil' ▸ hn
    · have hrest := h rest hrest hnil'
      rwa [List.append_assoc] at hrest

/-- Nothing stands below a place where nothing stands, no link either. -/
theorem unlinked_of_vacant (hc : t.Closed) (hn : t.node? (top ++ [n]) = none)
    (ns : List Name) :
    Unlinked t top (n :: ns) := by
  refine unlinked_cons (by simp [hn]) fun pre _ hne target => ?_
  rw [hc.node?_below (by simp [hn]) hne]
  exact nofun

/-- A directory in front of a way down does not change how the walk along it ends. -/
theorem Course.cons {ns : List Name} (hnode : t.node? (top ++ [n]) = some (.dir mode))
    (hhead : object [n] = .ok (top ++ [n], .dir mode))
    (hobject : ∀ ms, ms ≠ [] → ms <+: ns → object' ms = object (n :: ms))
    (h : Course object' t (top ++ [n]) ns res) : Course object t top (n :: ns) res := by
  have hplace : ∀ ms, top ++ [n] ++ ms = top ++ n :: ms :=
    fun ms => List.append_assoc top [n] ms
  have hfree : Unlinked t (top ++ [n]) ns → Unlinked t top (n :: ns) :=
    unlinked_cons (by simp [hnode])
  -- Each end is reached at the same place, which is one name further from here.
  cases h with
  | clear dirs free =>
      refine .clear (fun init hnil hpre => ?_) (hfree free)
      rcases List.prefix_cons_iff.mp hpre with rfl | ⟨rest, rfl, hrest⟩
      · exact absurd rfl hnil
      · by_cases hnil' : rest = []
        · exact ⟨_, mode, hnil' ▸ hhead⟩
        · rw [← hobject rest hnil' hrest]
          exact dirs rest hnil' hrest
  | missing first here free =>
      rw [hobject _ first.ne_nil first.isPrefix] at here
      exact .missing (first.cons hhead hobject) here (hfree free)
  | file first here free =>
      rw [hobject _ first.ne_nil first.isPrefix, hplace] at here
      exact .file (first.cons hhead hobject) here (hfree free)
  | link first here =>
      rw [hobject _ first.ne_nil first.isPrefix, hplace] at here
      exact .link (first.cons hhead hobject) here
  | below first here more =>
      rw [hobject _ first.ne_nil first.isPrefix, hplace] at here
      exact .below (first.cons hhead hobject) here fun heq => more (List.cons.inj heq).2
  | refused first here there =>
      rw [hobject _ first.ne_nil first.isPrefix] at here
      exact .refused (first.cons hhead hobject) here there

theorem Course.eq_true_iff (h : Course object t top names res) :
    res = .ok true ↔ ∃ pre target, FirstOther object names pre ∧
      object pre = .ok (top ++ pre, .link target) := by
  refine ⟨fun hres => ?_, ?_⟩
  · cases h with
    | @link pre target first here => exact ⟨pre, target, first, here⟩
    | _ => simp at hres
  · rintro ⟨pre, target, first', here'⟩
    cases h with
    | clear dirs =>
        obtain ⟨loc, mode, hdir⟩ := dirs pre first'.ne_nil first'.isPrefix
        exact absurd hdir (first'.other loc mode)
    | link => rfl
    | missing first here | file first here | below first here | refused first here =>
        rw [first.unique first', here'] at here
        simp at here

theorem Course.eq_false_iff (h : Course object t top names res) :
    res = .ok false ↔ ∀ pre, FirstOther object names pre → object pre = .error .notFound ∨
      pre = names ∧ ∃ id, object pre = .ok (top ++ pre, .file id) := by
  -- Only the first name that is no directory counts, and there is no more than one.
  cases h with
  | clear dirs =>
      refine ⟨fun _ pre first => ?_, fun _ => rfl⟩
      obtain ⟨loc, mode, hdir⟩ := dirs pre first.ne_nil first.isPrefix
      exact absurd hdir (first.other loc mode)
  | missing first here =>
      exact ⟨fun _ pre first' => .inl (first.unique first' ▸ here), fun _ => rfl⟩
  | file first here =>
      exact ⟨fun _ pre first' => .inr (first.unique first' ▸ ⟨rfl, _, here⟩), fun _ => rfl⟩
  | link first here =>
      refine ⟨nofun, fun hall => ?_⟩
      rcases hall _ first with hmissing | ⟨-, id, hfile⟩
      · rw [here] at hmissing
        contradiction
      · simp [here] at hfile
  | below first here more =>
      refine ⟨nofun, fun hall => ?_⟩
      rcases hall _ first with hmissing | ⟨heq, -⟩
      · rw [here] at hmissing
        contradiction
      · exact absurd heq more
  | refused first here there =>
      refine ⟨nofun, fun hall => ?_⟩
      rcases hall _ first with hmissing | ⟨-, id, hfile⟩
      · rw [here] at hmissing
        exact absurd (Except.error.inj hmissing) there
      · rw [here] at hfile
        contradiction

theorem Course.error_of_file {id : FileId} (h : Course object t top names res)
    (first : FirstOther object names pre) (hfile : object pre = .ok (top ++ pre, .file id))
    (hne : pre ≠ names) : ∃ e, res = .error e := by
  cases h with
  | clear dirs =>
      obtain ⟨loc, mode, hdir⟩ := dirs pre first.ne_nil first.isPrefix
      exact absurd hdir (first.other loc mode)
  | file first' => exact absurd (first.unique first') hne
  | missing first' here | link first' here =>
      rw [← first.unique first', hfile] at here
      simp at here
  | below => exact ⟨_, rfl⟩
  | refused => exact ⟨_, rfl⟩

theorem Course.unlinked (h : Course object t top names (.ok false)) :
    Unlinked t top names := by
  cases h with
  | clear _ free | missing _ _ free | file _ _ free => exact free

end

/-! ### The walk -/

section

variable {σ : Type} {o : Outside σ} {w : World σ} {t : Tree} {cwd top : Location}
  {dest p : Path} {n m : Name} {ns : List Name} {id : FileId}

theorem objectBelow_singleton (t : Tree) (cwd : Location) (dest : Path) (n : Name) :
    objectBelow t cwd dest [n] = t.lookup cwd false (dest / (⟨n⟩ : Path)) := by
  rw [objectBelow, Path.ofNames_singleton]

theorem objectBelow_cons (t : Tree) (cwd : Location) (dest : Path) (hn : Path.IsPlain n)
    (hne : ns ≠ []) (hns : ∀ m ∈ ns, Path.IsPlain m) :
    objectBelow t cwd (dest / (⟨n⟩ : Path)) ns = objectBelow t cwd dest (n :: ns) := by
  rw [objectBelow, Path.join_ofNames_cons dest hn hne hns]
  rfl

/-- One step of the walk. -/
theorem run_meetsLink_cons (o : Outside σ) (w : World σ) (dest : Path) (n : Name)
    (ns : List Name) :
    (meetsLink dest (n :: ns)).run.run o w =
      match w.tree.lookup w.cwd false (dest / (⟨n⟩ : Path)) with
      | .ok (_, .link _) => (.ok true, w)
      | .ok _ => (meetsLink (dest / (⟨n⟩ : Path)) ns).run.run o w
      | .error .notFound => (.ok false, w)
      | .error e => (.error e, w) := by
  have hlook : w.perform o (.look false (dest / (⟨n⟩ : Path))) =
      ((w.tree.lookup w.cwd false (dest / (⟨n⟩ : Path))).map (·.2.objectKind), w) := rfl
  rw [meetsLink]
  refine (run_bind_ok (run_make hlook) _).trans ?_
  rcases w.tree.lookup w.cwd false (dest / (⟨n⟩ : Path)) with e | ⟨loc, _ | _ | _⟩
  · cases e <;> rfl
  · rfl
  · rfl
  · rfl

/-- Below a file nothing is found missing, so that the walk does not end well there. -/
theorem run_meetsLink_past_file (hr : Reaches w.tree w.cwd dest top) (hn : Path.IsPlain n)
    (hm : Path.IsPlain m) (hnode : w.tree.node? (top ++ [n]) = some (.file id))
    (ms : List Name) :
    ∃ e, (meetsLink (dest / (⟨n⟩ : Path)) (m :: ms)).run.run o w = (.error e, w) := by
  have hext : Path.Extends dest [n, m] (dest / (⟨n⟩ : Path) / (⟨m⟩ : Path)) :=
    ((Path.Extends.refl dest).concat hn).concat hm
  have hfree : Unlinked w.tree top [n] := (unlinked_nil w.tree top).concat (by simp [hnode])
  have hb : Below w.tree w.cwd top (dest / (⟨n⟩ : Path) / (⟨m⟩ : Path)) [n, m] :=
    hr.below hext (by simp) hfree
  have hrefusal := Path.refusal?_ne_notFound (hext.last (by simp)).2
  have hlook := hb.lookup_false
  rw [run_meetsLink_cons]
  rw [arrive] at hlook
  -- A path that is refused as such is refused before the file is come to.
  cases href : (dest / (⟨n⟩ : Path) / (⟨m⟩ : Path)).refusal? with
  | some e =>
      simp only [href] at hlook
      rw [hlook]
      refine ⟨e, ?_⟩
      cases e with
      | notFound => exact absurd href hrefusal
      | _ => rfl
  | none =>
      simp only [href, descend, List.cons_ne_nil, if_false, hnode] at hlook
      by_cases hlong : maxName < n.length
      · rw [if_pos hlong] at hlook
        exact ⟨.nameTooLong, by rw [hlook]⟩
      · rw [if_neg hlong] at hlook
        exact ⟨.notDirectory, by rw [hlook]⟩

/-- The walk leaves the world as it is. -/
theorem course_meetsLink (hc : w.tree.Closed) (hr : Reaches w.tree w.cwd dest top)
    (hplain : ∀ n ∈ ns, Path.IsPlain n) :
    ∃ res, (meetsLink dest ns).run.run o w = (res, w) ∧
      Course (objectBelow w.tree w.cwd dest) w.tree top ns res := by
  -- The induction moves the start down: the rest is walked from the directory just found.
  induction ns generalizing dest top with
  | nil =>
      refine ⟨_, rfl, .clear (fun pre hnil hpre => ?_) (unlinked_nil w.tree top)⟩
      exact absurd (List.prefix_nil.mp hpre) hnil
  | cons n ns ih =>
      obtain ⟨hn, hns⟩ := List.forall_mem_cons.mp hplain
      have hext : Path.Extends dest [n] (dest / (⟨n⟩ : Path)) :=
        (Path.Extends.refl dest).concat hn
      have hb : Below w.tree w.cwd top (dest / (⟨n⟩ : Path)) [n] := hr.belowEntry hext
      have hlook : objectBelow w.tree w.cwd dest [n] =
          w.tree.lookup w.cwd false (dest / (⟨n⟩ : Path)) :=
        objectBelow_singleton ..
      have hbelow := hb.lookup_false
      rw [run_meetsLink_cons]
      rw [← hlook] at hbelow ⊢
      cases ha : w.tree.arrive top (dest / (⟨n⟩ : Path)) [n] with
      | error e =>
          -- One name down, no refusal says that something is not there.
          have hne : e ≠ .notFound := by
            rintro rfl
            refine hb.mkdir_ne_notFound (hext.last (by simp)).2 0 ?_
            rw [hb.mkdir, ha]
          simp only [ha] at hbelow
          rw [hbelow]
          refine ⟨.error e, ?_, .refused (.head (by simp [hbelow]) ns) hbelow hne⟩
          cases e <;> first | rfl | contradiction
      | ok found =>
          obtain ⟨-, hshort, hnode⟩ := arrive_single_iff.mp ha
          simp only [ha] at hbelow
          rw [hbelow]
          rcases found with _ | mode | id | target
          · exact ⟨_, rfl,
              .missing (.head (by simp [hbelow]) ns) hbelow (unlinked_of_vacant hc hnode ns)⟩
          · obtain ⟨res, hrun, hcourse⟩ := ih (hr.entry hext hshort hnode) hns
            refine ⟨res, hrun, hcourse.cons hnode hbelow fun ms hne hpre => ?_⟩
            exact objectBelow_cons _ _ dest hn hne fun m hm => hns m (hpre.subset hm)
          · have hfirst : FirstOther (objectBelow w.tree w.cwd dest) (n :: ns) [n] :=
              .head (by simp [hbelow]) ns
            cases ns with
            | nil =>
                exact ⟨_, rfl,
                  .file hfirst hbelow ((unlinked_nil w.tree top).concat (by simp [hnode]))⟩
            | cons m ms =>
                obtain ⟨e, hrun⟩ :=
                  run_meetsLink_past_file (o := o) (m := m) hr hn (hns m (by simp)) hnode ms
                exact ⟨_, hrun, .below hfirst hbelow (by simp)⟩
          · exact ⟨_, rfl, .link (.head (by simp [hbelow]) ns) hbelow⟩

end

/-! ### What is done with the path afterwards -/

section

variable {σ : Type} {o : Outside σ} {w : World σ} {t : Tree} {cwd cur loc top : Location}
  {dest p : Path} {ns : List Name} {links links' : Nat} {mode : Mode}

/-- A path is resolved by going down from `top` along some names, and in no other way. -/
def ResolvesDown (t : Tree) (cwd top : Location) (p : Path) (ns : List Name) : Prop :=
  ∀ follow, t.resolve cwd follow p = (t.arrive top p ns).map (spotBelow top ns)

theorem resolvesDown_of_unlinked (hr : Reaches t cwd dest top) (hdest : dest.bytes ≠ [])
    (hplain : ∀ n ∈ ns, Path.IsPlain n) (hu : Unlinked t top ns) :
    ResolvesDown t cwd top (dest / Path.ofNames ns) ns := by
  intro follow
  have hext := Path.extends_ofNames dest hplain
  by_cases hne : ns = []
  · subst hne
    -- The separator at the end asks for the directory itself.
    obtain ⟨links, hl⟩ := (reaches_top hr hext).leads
    obtain ⟨mode, hm⟩ := hr.dir
    rw [resolve_eq, arrive, Path.steps_join_nil hdest]
    cases (dest / Path.ofNames []).refusal? with
    | some e => rfl
    | none =>
        simp only [descend, hm]
        rw [hl.walk_append (List.cons_ne_nil _ _), walk, walk, hm]
        simp [Except.map, spotBelow]
  · exact (hr.below hext hne hu.dropLast).resolve fun _ => hu.last hne

/-- Where no link is met, a way along names ends where the names say. -/
theorem eq_of_leads_names (hu : Unlinked t cur ns)
    (h : Leads t links cur (ns.map .name) links' loc) :
    loc = cur ++ ns := by
  induction ns generalizing cur with
  | nil =>
      cases h
      exact (List.append_nil _).symm
  | cons n ns ih =>
      cases h with
      | dir short node rest =>
          have hloc := ih hu.tail rest
          rwa [List.append_assoc] at hloc
      | link short node rest => exact absurd node (hu.head _)

theorem eq_of_reaches_names (hr : Reaches t cwd dest top) (hext : Path.Extends dest ns p)
    (hu : Unlinked t top ns) (h : Reaches t cwd p loc) : loc = top ++ ns := by
  obtain ⟨links, hl⟩ := hr.leads
  obtain ⟨links', hl'⟩ := h.leads
  rw [hext.moves_eq, Path.start, hext.isAbsolute_eq] at hl'
  obtain ⟨links₁, top', hfirst, hrest⟩ := hl'.of_append
  obtain rfl := hl.unique hfirst
  exact eq_of_leads_names hu hrest

def parentsMade (o : Outside σ) (w : World σ) (dest : Path) (ns : List Name) : World σ :=
  ((makeDirs (dest / Path.ofNames ns.dropLast)).run.run o w).2

/-- All that is done with the path to the names `ns` below `dest`, from the world `w` on, is
done at the place that the names say, below the directory `top`. -/
structure PlacedDown (o : Outside σ) (w : World σ) (dest : Path) (top : Location)
    (ns : List Name) :
    Prop where
  resolved : ResolvesDown w.tree w.cwd top (dest / Path.ofNames ns) ns
  parents : DirsAlong top ns.dropLast w.tree (parentsMade o w dest ns).tree
  parent : ((makeDirs (dest / Path.ofNames ns.dropLast)).run.run o w).1 = .ok () →
    ∃ mode, (parentsMade o w dest ns).tree.node? (top ++ ns.dropLast) = some (.dir mode)
  resolved_then : ResolvesDown (parentsMade o w dest ns).tree (parentsMade o w dest ns).cwd top
    (dest / Path.ofNames ns) ns
  member : ns ≠ [] → ∀ m, ∀ res w', (makeMember m (dest / Path.ofNames ns)).run.run o
    (parentsMade o w dest ns) = (res, w') →
    ActsAt (top ++ ns) (parentsMade o w dest ns).tree w'.tree ∧
      (res = .ok () → m.kind ≠ .metadata → m.kind ≠ .hardLink →
        w'.tree.node? (top ++ ns) ≠ none)
  hardLink : ns ≠ [] → ∀ src, ∀ res w', (makeHardLink src (dest / Path.ofNames ns)).run.run o
    (parentsMade o w dest ns) = (res, w') →
    ActsAt (top ++ ns) (parentsMade o w dest ns).tree w'.tree ∧
      (res = .ok () → w'.tree.node? (top ++ ns) ≠ none)

theorem placedDown_of_unlinked (hs : w.IsSound) (hr : Reaches w.tree w.cwd dest top)
    (hdest : dest.bytes ≠ []) (hplain : ∀ n ∈ ns, Path.IsPlain n)
    (hu : Unlinked w.tree top ns) : PlacedDown o w dest top ns := by
  have hupper : ∀ n ∈ ns.dropLast, Path.IsPlain n := fun n hn =>
    hplain n ((List.dropLast_prefix ns).subset hn)
  obtain ⟨hcwd, hdirs⟩ :=
    (throughout_makeDirs_along (o := o) hdest hupper hr hu.dropLast).at_end
  -- Two things are known of the run that makes the directories: what it leaves on the way, and
  -- that it ends with the parent made if it succeeds.
  obtain ⟨-, -, hmade⟩ :=
    (throughout_makeDirs (o := o) (p := dest / Path.ofNames ns.dropLast) hs).at_end
  change (parentsMade o w dest ns).cwd = w.cwd at hcwd
  change DirsAlong top ns.dropLast w.tree (parentsMade o w dest ns).tree at hdirs
  have hr₁ : Reaches (parentsMade o w dest ns).tree (parentsMade o w dest ns).cwd dest top :=
    hcwd ▸ hr.mono hdirs.newDirs.routesKept
  have hu₁ : Unlinked (parentsMade o w dest ns).tree top ns := hdirs.newDirs.unlinked hu
  have hb : ns ≠ [] → Below (parentsMade o w dest ns).tree (parentsMade o w dest ns).cwd top
      (dest / Path.ofNames ns) ns := fun hne =>
    hr₁.below (Path.extends_ofNames dest hplain) hne hu₁.dropLast
  exact {
    resolved := resolvesDown_of_unlinked hr hdest hplain hu
    parents := hdirs
    parent := fun hok => by
      obtain ⟨loc, hloc⟩ := hmade hok
      have hplace : loc = top ++ ns.dropLast :=
        eq_of_reaches_names hr₁ (Path.extends_ofNames dest hupper) hu₁.dropLast hloc
      exact hplace ▸ hloc.dir
    resolved_then := resolvesDown_of_unlinked hr₁ hdest hplain hu₁
    member := fun hne m res w' hrun => by
      have hend := (throughout_makeMember (o := o) (m := m) (hb hne) (hu₁.last hne)).at_end
      rw [hrun] at hend
      exact ⟨hend.1.toActsAt, hend.2⟩
    hardLink := fun hne src res w' hrun => by
      have hend := (throughout_makeHardLink (o := o) src (hb hne) (hu₁.last hne)).at_end
      rwa [hrun] at hend }

/-- The walk from a directory down some names. It meets a link where the first of its parts
that names no directory names a link, it meets none where that part names nothing or is the
whole way and names a file, and otherwise it fails. Where it meets none there is none, and all
that is done with the path afterwards is done at the place the names say. -/
theorem meetsLink_sound (hs : w.IsSound)
    (hdest : w.tree.lookup w.cwd true dest = .ok (top, .dir mode))
    (hplain : ∀ n ∈ ns, Path.IsPlain n) :
    ∃ res, (meetsLink dest ns).run.run o w = (res, w) ∧
      (res = .ok true ↔ ∃ pre target, FirstOther (objectBelow w.tree w.cwd dest) ns pre ∧
        objectBelow w.tree w.cwd dest pre = .ok (top ++ pre, .link target)) ∧
      (res = .ok false ↔ ∀ pre, FirstOther (objectBelow w.tree w.cwd dest) ns pre →
        objectBelow w.tree w.cwd dest pre = .error .notFound ∨
          pre = ns ∧ ∃ id, objectBelow w.tree w.cwd dest pre = .ok (top ++ pre, .file id)) ∧
      (∀ pre id, FirstOther (objectBelow w.tree w.cwd dest) ns pre → pre ≠ ns →
        objectBelow w.tree w.cwd dest pre = .ok (top ++ pre, .file id) → ∃ e, res = .error e) ∧
      (res = .ok false → Unlinked w.tree top ns ∧ PlacedDown o w dest top ns) := by
  obtain ⟨-, hwalk⟩ := lookup_eq_ok hdest
  have hdir : w.tree.node? top = some (.dir mode) :=
    node?_of_walk_found hs.closed hwalk (dir_start hs.cwd _)
  obtain ⟨hr, hrefusal⟩ := reaches_of_lookup hdest hdir
  obtain ⟨-, hbytes, -⟩ := Path.refusal?_eq_none_iff.mp hrefusal
  obtain ⟨res, hrun, hcourse⟩ := course_meetsLink (o := o) hs.closed hr hplain
  refine ⟨res, hrun, hcourse.eq_true_iff, hcourse.eq_false_iff, fun pre id hfirst hne hfile =>
    hcourse.error_of_file hfirst hfile hne, ?_⟩
  rintro rfl
  exact ⟨hcourse.unlinked, placedDown_of_unlinked hs hr hbytes hplain hcourse.unlinked⟩

end

def dirAboveLink : World Unit :=
  World.fresh
    ((bareDir.put [[0x64], [0x65]] (.dir 0o755)).put [[0x64], [0x65], [0x6C]] (.link "/s"))
    [] .empty 1 ()

/-- The way `e/x` ends at a name that is not there, and the way
`e/l/x` leads through the link. -/
theorem meetsLink_sound_dirAboveLink :
    let w := dirAboveLink
    let missing : List Name := [[0x65], [0x78]]
    let through : List Name := [[0x65], [0x6C], [0x78]]
    (w.IsSound ∧ w.tree.lookup w.cwd true "/d" = .ok ([[0x64]], .dir 0o755) ∧
      (∀ n ∈ missing, Path.IsPlain n) ∧ ∀ n ∈ through, Path.IsPlain n) ∧
    ((meetsLink "/d" missing).run.run silent w).1 = .ok false ∧
      Unlinked w.tree [[0x64]] missing ∧
      PlacedDown silent w "/d" [[0x64]] missing ∧
    ((meetsLink "/d" through).run.run silent w).1 = .ok true ∧
      ∃ pre target, FirstOther (objectBelow w.tree w.cwd "/d") through pre ∧
        objectBelow w.tree w.cwd "/d" pre = .ok ([[0x64]] ++ pre, .link target) := by
  intro w missing through
  have hs : w.IsSound := ⟨.of_entries (by cbv), 0o755, rfl⟩
  have hdest : w.tree.lookup w.cwd true "/d" = .ok ([[0x64]], .dir 0o755) := by cbv
  have hplain : ∀ n ∈ [[0x65], [0x6C], [0x78]], Path.IsPlain n := by
    intro n hn
    simp only [List.mem_cons, List.not_mem_nil, or_false] at hn
    rcases hn with rfl | rfl | rfl
    · exact ⟨by decide, by decide, by decide, by decide⟩
    · exact ⟨by decide, by decide, by decide, by decide⟩
    · exact ⟨by decide, by decide, by decide, by decide⟩
  have hplain' : ∀ n ∈ missing, Path.IsPlain n := fun n hn => hplain n (by
    simp only [missing, List.mem_cons, List.not_mem_nil, or_false] at hn ⊢
    tauto)
  obtain ⟨res, hrun, -, -, -, hplaced⟩ := meetsLink_sound (o := silent) hs hdest hplain'
  obtain ⟨res', hrun', hlink, -, -, -⟩ := meetsLink_sound (o := silent) hs hdest hplain
  have hfalse : ((meetsLink "/d" missing).run.run silent w).1 = .ok false := by cbv
  have htrue : ((meetsLink "/d" through).run.run silent w).1 = .ok true := by cbv
  rw [hrun] at hfalse
  rw [hrun'] at htrue
  obtain ⟨hfree, hdown⟩ := hplaced hfalse
  exact ⟨⟨hs, hdest, hplain', hplain⟩, by rw [hrun]; exact hfalse, hfree, hdown,
    by rw [hrun']; exact htrue, hlink.mp htrue⟩

end Archive

end LlvmBootstrap
