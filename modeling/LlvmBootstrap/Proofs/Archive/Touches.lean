import LlvmBootstrap.Machine.Program
import LlvmBootstrap.Proofs.Tree.Seen

/-!
The calls that unpacking an archive makes. Each is about a path below the destination, on a way
down that meets no link, so it neither changes nor reads anything that is not below the
destination.
-/

namespace LlvmBootstrap

/-- `q'` asks for the same below `d'` as `q` does below `d`. -/
structure Path.Shifted (d d' q q' : Path) : Prop where
  refusal : q'.refusal? = q.refusal?
  trimmed : (Tree.trimSlashes q').refusal? = (Tree.trimSlashes q).refusal?
  names : ∀ ns, Extends d ns q → Extends d' ns q'
  here : Tree.steps q = q.moves ++ [.here] → Tree.steps q' = q'.moves ++ [.here]

theorem Path.Shifted.refl (d q : Path) : Shifted d d q q :=
  ⟨rfl, rfl, fun _ h => h, fun h => h⟩

inductive Change.Shifted (d d' : Path) : Change → Change → Prop
  | mkdir {p p' : Path} (h : Path.Shifted d d' p p') : Shifted d d' (.mkdir p) (.mkdir p')
  | create {p p' : Path} (h : Path.Shifted d d' p p') (content : Bytes) :
      Shifted d d' (.create p content) (.create p' content)
  | symlink {p p' : Path} (h : Path.Shifted d d' p p') (target : Path) :
      Shifted d d' (.symlink target p) (.symlink target p')
  | link {src src' p p' : Path} (hsrc : Path.Shifted d d' src src')
      (h : Path.Shifted d d' p p') :
      Shifted d d' (.link src p) (.link src' p')
  | copy {src src' p p' : Path} (hsrc : Path.Shifted d d' src src')
      (h : Path.Shifted d d' p p') :
      Shifted d d' (.copy src p) (.copy src' p')
  | unlink {p p' : Path} (h : Path.Shifted d d' p p') : Shifted d d' (.unlink p) (.unlink p')
  | chmod {p p' : Path} (h : Path.Shifted d d' p p') (mode : Mode) :
      Shifted d d' (.chmod p mode) (.chmod p' mode)

namespace Tree

variable {L : List Name → Path → Prop} {t t₀ t' : Tree} {cwd top : Location}
  {dest p src : Path} {ns ns' : List Name}

theorem parent_of_arrive {found : Option Node} (hd : ∃ mode, t.node? top = some (.dir mode))
    (hne : ns ≠ []) (h : t.arrive top p ns = .ok found) :
    ∃ mode, t.node? (top ++ ns.dropLast) = some (.dir mode) := by
  unfold arrive at h
  split at h
  · contradiction
  · by_cases hnil : ns.dropLast = []
    · rwa [hnil, List.append_nil]
    · exact (descend_eq_ok hne h).2.2 _ List.prefix_rfl hnil

/-- Something new at a place where a way down ends. -/
theorem Confined.fill {n : Node} (h : Confined L top t₀ t)
    (hd : ∃ mode, t.node? top = some (.dir mode)) (hne : ns ≠ [])
    (ha : t.arrive top p ns = .ok none)
    (hfile : ∀ id, n = .file id → t₀.bodies.length ≤ id ∧ id < t.bodies.length)
    (hlink : ∀ target, n = .link target → L ns target) :
    Confined L top t₀ (t.put (top ++ ns) n) := by
  refine h.put hne (parent_of_arrive hd hne ha) hfile hlink (.inr (h.vacant_child ?_))
  intro mode hm
  rw [node?_of_arrive hne ha] at hm
  contradiction

theorem Confined.fillFile (h : Confined L top t₀ t)
    (hd : ∃ mode, t.node? top = some (.dir mode)) (hne : ns ≠ [])
    (ha : t.arrive top p ns = .ok none) (b : FileBody) :
    Confined L top t₀ ((t.addBody b).2.put (top ++ ns) (.file t.bodies.length)) := by
  refine (h.addBody b).put hne ?_ ?_ (fun _ hl => by contradiction) (.inr fun m => ?_)
  · simpa using parent_of_arrive hd hne ha
  · rintro id hid
    rw [← Node.file.inj hid, bodies_addBody, List.length_append]
    exact ⟨h.length_le, Nat.lt_succ_self _⟩
  · rw [node?_addBody]
    refine h.vacant_child (fun mode hm => ?_) m
    rw [node?_of_arrive hne ha] at hm
    contradiction

/-- `p` asks for the names `ns` below `dest`, and the way down from `top` meets
no link before the last of them. -/
structure Clear (t : Tree) (top : Location) (dest p : Path) (ns : List Name) : Prop where
  names : Path.Extends dest ns p
  ne_nil : ns ≠ []
  unlinked : Unlinked t top ns.dropLast

theorem Clear.below (h : Clear t top dest p ns) (hr : Reaches t cwd dest top) :
    Below t cwd top p ns := hr.below h.names h.ne_nil h.unlinked

theorem Alike.clear {t₀' t' : Tree} {top' : Location} {dest' p' : Path}
    (h : Alike L top t₀ t top' t₀' t') (hp : Path.Shifted dest dest' p p')
    (hc : Clear t top dest p ns) : Clear t' top' dest' p' ns :=
  ⟨hp.names ns hc.names, hc.ne_nil, h.unlinked hc.unlinked⟩

theorem Unlinked.last (h : Unlinked t top ns) (hne : ns ≠ []) (target : Path) :
    t.node? (top ++ ns) ≠ some (.link target) := h ns List.prefix_rfl hne target

theorem Unlinked.of_prefix {pre : List Name} (h : Unlinked t top ns) (hp : pre <+: ns) :
    Unlinked t top pre := fun q hq => h q (hq.trans hp)

theorem Unlinked.dropLast (h : Unlinked t top ns) : Unlinked t top ns.dropLast :=
  h.of_prefix (List.dropLast_prefix ns)

def NoNewLinks (t t' : Tree) : Prop :=
  ∀ loc target, t'.node? loc = some (.link target) → t.node? loc = some (.link target)

theorem NoNewLinks.unlinked (h : NoNewLinks t t') (hu : Unlinked t top ns) :
    Unlinked t' top ns :=
  fun pre hpre hne target ht => hu pre hpre hne target (h _ _ ht)

theorem NoNewLinks.clear (h : NoNewLinks t t') (hc : Clear t top dest p ns) :
    Clear t' top dest p ns := ⟨hc.names, hc.ne_nil, h.unlinked hc.unlinked⟩

theorem noNewLinks_remove (t : Tree) (loc : Location) : NoNewLinks t (t.remove loc) := by
  intro loc' target ht
  by_cases heq : loc' = loc
  · subst heq
    by_cases hnil : loc' = []
    · simp [hnil] at ht
    · simp [node?_remove t hnil] at ht
  · rwa [node?_remove_of_ne t heq] at ht

theorem noNewLinks_of_createNew {content : Bytes} (h : t.createNew cwd p content = .ok t') :
    NoNewLinks t t' := by
  unfold createNew at h
  cases hr : t.resolve cwd false p with
  | error e =>
      rw [hr] at h
      contradiction
  | ok s =>
      rw [hr] at h
      cases s with
      | found loc n => contradiction
      | vacant dir n =>
          rw [← Except.ok.inj h]
          intro loc target ht
          rw [node?_put _ _ (by simp)] at ht
          split at ht
          · simp at ht
          · exact (node?_addBody t _ loc).symm.trans ht

theorem noNewLinks_of_unlink (h : t.unlink cwd p = .ok t') : NoNewLinks t t' := by
  unfold unlink at h
  cases hr : t.lookup cwd false p with
  | error e =>
      rw [hr] at h
      contradiction
  | ok found =>
      obtain ⟨loc, n⟩ := found
      rw [hr] at h
      cases n with
      | dir mode => contradiction
      | file id =>
          rw [← Except.ok.inj h]
          exact noNewLinks_remove t loc
      | link target =>
          rw [← Except.ok.inj h]
          exact noNewLinks_remove t loc

end Tree

namespace Archive

open LlvmBootstrap.Tree

/-- The changes that unpacking makes, links as `L` says of their names and targets. -/
inductive TouchesBy (L : List Name → Path → Prop) (t : Tree) (top : Location) (dest : Path) :
    Change → Prop
  /-- The destination itself is there already. -/
  | mkdirTop {p : Path} (h : Path.Extends dest [] p) : TouchesBy L t top dest (.mkdir p)
  | mkdir {p : Path} {ns : List Name}
      (h : Clear t top dest p ns) : TouchesBy L t top dest (.mkdir p)
  | create {p : Path} {ns : List Name} (h : Clear t top dest p ns) (content : Bytes) :
      TouchesBy L t top dest (.create p content)
  | symlink {target p : Path} {ns : List Name} (h : Clear t top dest p ns) (hl : L ns target) :
      TouchesBy L t top dest (.symlink target p)
  | unlink {p : Path} {ns : List Name}
      (h : Clear t top dest p ns) : TouchesBy L t top dest (.unlink p)
  | chmod {p : Path} {ns : List Name} (h : Clear t top dest p ns) (hu : Unlinked t top ns)
      (mode : Mode) : TouchesBy L t top dest (.chmod p mode)
  | link {src p : Path} {ns' ns : List Name} (h' : Clear t top dest src ns')
      (hu' : Unlinked t top ns') (h : Clear t top dest p ns) :
      TouchesBy L t top dest (.link src p)
  /-- The destination itself as the source of a link. -/
  | linkTop {src p : Path} {ns : List Name} (h' : Path.Extends dest [] src)
      (hs : steps src = src.moves ++ [.here]) (h : Clear t top dest p ns) :
      TouchesBy L t top dest (.link src p)
  | copyTop {src p : Path} (h' : Path.Extends dest [] src) :
      TouchesBy L t top dest (.copy src p)
  | copy {src p : Path} {ns' ns : List Name} (h' : Clear t top dest src ns')
      (hu' : Unlinked t top ns') (h : Clear t top dest p ns) (hu : Unlinked t top ns) :
      TouchesBy L t top dest (.copy src p)

inductive Touches (L : List Name → Path → Prop) (t : Tree) (top : Location) (dest : Path) :
    Call → Prop
  | lookTop {p : Path} (h : Path.Extends dest [] p) : Touches L t top dest (.look true p)
  | look {p : Path} {ns : List Name} {follow : Bool} (h : Clear t top dest p ns)
      (hu : follow = true → Unlinked t top ns) : Touches L t top dest (.look follow p)
  | change {c : Change} (h : TouchesBy L t top dest c) : Touches L t top dest (.change c)

variable {L : List Name → Path → Prop} {t t₀ t' t₀' : Tree} {cwd cwd' top top' : Location}
  {dest dest' : Path} {c c' : Change}

theorem reaches_top {p : Path} (hr : Reaches t cwd dest top) (h : Path.Extends dest [] p) :
    Reaches t cwd p top :=
  hr.of_moves (by simpa using h.moves_eq) h.isAbsolute_eq

/-! ### Each change stays below the destination -/

section Confined

variable {p : Path} {ns : List Name} (hc : Confined L top t₀ t) (hr : Reaches t cwd dest top)
  (h : Clear t top dest p ns)

include hc hr h

theorem confined_of_mkdir {mode : Mode} (happ : t.mkdir cwd p mode = .ok t') :
    Confined L top t₀ t' := by
  rw [(h.below hr).mkdir] at happ
  split at happ
  · contradiction
  · contradiction
  · rename_i ha
    rw [← Except.ok.inj happ]
    exact hc.fill hr.dir h.ne_nil ha (fun _ he => by contradiction)
      (fun _ he => by contradiction)

theorem confined_of_createNew {content : Bytes} (happ : t.createNew cwd p content = .ok t') :
    Confined L top t₀ t' := by
  rw [(h.below hr).createNew] at happ
  split at happ
  · contradiction
  · contradiction
  · rename_i ha
    rw [← Except.ok.inj happ]
    exact hc.fillFile hr.dir h.ne_nil ha _

theorem confined_of_symlink {target : Path} (hl : L ns target)
    (happ : t.symlink cwd target p = .ok t') :
    Confined L top t₀ t' := by
  rw [(h.below hr).symlink] at happ
  split at happ
  · contradiction
  · contradiction
  · contradiction
  · rename_i ha
    rw [← Except.ok.inj happ]
    refine hc.fill hr.dir h.ne_nil ha (fun _ he => by contradiction) ?_
    rintro _ he
    rw [← Node.link.inj he]
    exact hl

theorem confined_of_unlink (happ : t.unlink cwd p = .ok t') : Confined L top t₀ t' := by
  rw [(h.below hr).unlink] at happ
  split at happ
  · contradiction
  · contradiction
  · contradiction
  · rename_i n hdir ha
    rw [← Except.ok.inj happ]
    refine hc.remove h.ne_nil fun mode hm => ?_
    rw [node?_of_arrive h.ne_nil ha] at hm
    exact hdir mode (Option.some.inj hm)

theorem confined_of_chmod (hu : Unlinked t top ns) {mode : Mode}
    (happ : t.chmod cwd p mode = .ok t') :
    Confined L top t₀ t' := by
  rw [(h.below hr).chmod mode (hu.last h.ne_nil)] at happ
  split at happ
  · contradiction
  · contradiction
  · rename_i ha
    rw [← Except.ok.inj happ]
    exact hc.put h.ne_nil (parent_of_arrive hr.dir h.ne_nil ha) (fun _ he => by contradiction)
      (fun _ he => by contradiction) (.inl ⟨mode, rfl⟩)
  · rename_i id ha
    rw [← Except.ok.inj happ]
    exact hc.setBody (hc.fresh _ _ h.ne_nil (node?_of_arrive h.ne_nil ha)).1 _
  · contradiction

theorem confined_of_link {src : Path} {ns' : List Name} (h' : Clear t top dest src ns')
    (hu' : Unlinked t top ns') (happ : t.link cwd src p = .ok t') : Confined L top t₀ t' := by
  rw [(h'.below hr).link (h.below hr)] at happ
  split at happ
  · contradiction
  · contradiction
  · contradiction
  · contradiction
  · contradiction
  · rename_i n _ ha' ha
    rw [← Except.ok.inj happ]
    have hn := node?_of_arrive h'.ne_nil ha'
    refine hc.fill hr.dir h.ne_nil ha ?_ ?_
    · rintro id rfl
      exact hc.fresh _ _ h'.ne_nil hn
    · rintro target rfl
      exact absurd hn (hu'.last h'.ne_nil target)

/-- A file that is opened below the destination is one that was made there, or is made now. -/
theorem confined_of_openFile (hu : Unlinked t top ns) {mode : Mode} {id : FileId}
    (hopen : t.openFile cwd p mode = .ok (id, t')) :
    Confined L top t₀ t' ∧ t₀.bodies.length ≤ id := by
  rw [(h.below hr).openFile _ (hu.last h.ne_nil)] at hopen
  split at hopen
  · contradiction
  · rename_i ha
    obtain ⟨rfl, rfl⟩ := Prod.mk.inj (Except.ok.inj hopen)
    exact ⟨hc, (hc.fresh _ _ h.ne_nil (node?_of_arrive h.ne_nil ha)).1⟩
  · contradiction
  · rename_i ha
    obtain ⟨rfl, rfl⟩ := Prod.mk.inj (Except.ok.inj hopen)
    exact ⟨hc.fillFile hr.dir h.ne_nil ha _, hc.length_le⟩

theorem confined_of_copyFile {src : Path} {ns' : List Name} (h' : Clear t top dest src ns')
    (hu' : Unlinked t top ns') (hu : Unlinked t top ns)
    (happ : t.copyFile cwd src p = .ok t') :
    Confined L top t₀ t' := by
  rw [(h'.below hr).copyFile (hu'.last h'.ne_nil)] at happ
  split at happ
  · contradiction
  · split at happ
    · contradiction
    · rename_i id t₁ hopen
      rw [← Except.ok.inj happ]
      obtain ⟨hc', hid⟩ := confined_of_openFile hc hr h hu hopen
      exact (hc'.setBody hid _).setBody hid _
  · contradiction
  · contradiction

end Confined

/-- A change below the destination stays below it. -/
theorem TouchesBy.confined (ht : TouchesBy L t top dest c) (hc : Confined L top t₀ t)
    (hr : Reaches t cwd dest top) (happ : c.apply t cwd = .ok t') : Confined L top t₀ t' := by
  cases ht with
  | mkdirTop h =>
      rw [Change.apply, (reaches_top hr h).mkdir] at happ
      contradiction
  | mkdir h => exact confined_of_mkdir hc hr h happ
  | create h => exact confined_of_createNew hc hr h happ
  | symlink h hl => exact confined_of_symlink hc hr h hl happ
  | unlink h => exact confined_of_unlink hc hr h happ
  | chmod h hu => exact confined_of_chmod hc hr h hu happ
  | link h' hu' h => exact confined_of_link hc hr h h' hu' happ
  | linkTop h' hs h =>
      rw [Change.apply, (h.below hr).link_dir (reaches_top hr h') hs] at happ
      split at happ <;> contradiction
  | copyTop h' =>
      rw [Change.apply, (reaches_top hr h').copyFile] at happ
      contradiction
  | copy h' hu' h hu => exact confined_of_copyFile hc hr h h' hu' hu happ

/-! ### The same change in two trees -/

theorem TouchesBy.shifted (ht : TouchesBy L t top dest c) : Change.Shifted dest dest c c := by
  cases ht with
  | mkdirTop | mkdir => exact .mkdir (.refl ..)
  | create _ content => exact .create (.refl ..) content
  | symlink => exact .symlink (.refl ..) _
  | unlink => exact .unlink (.refl ..)
  | chmod _ _ mode => exact .chmod (.refl ..) mode
  | link | linkTop => exact .link (.refl ..) (.refl ..)
  | copyTop | copy => exact .copy (.refl ..) (.refl ..)

theorem TouchesBy.right (ht : TouchesBy L t top dest c) (hs : Change.Shifted dest dest' c c')
    (h : Alike L top t₀ t top' t₀' t') : TouchesBy L t' top' dest' c' := by
  -- Call by call: what a call needs of the way to its path is the same in both trees.
  cases hs with
  | mkdir hp =>
      cases ht with
      | mkdirTop hext => exact .mkdirTop (hp.names _ hext)
      | mkdir hc => exact .mkdir (h.clear hp hc)
  | create hp content =>
      cases ht with
      | create hc => exact .create (h.clear hp hc) content
  | symlink hp target =>
      cases ht with
      | symlink hc hl => exact .symlink (h.clear hp hc) hl
  | unlink hp =>
      cases ht with
      | unlink hc => exact .unlink (h.clear hp hc)
  | chmod hp mode =>
      cases ht with
      | chmod hc hu => exact .chmod (h.clear hp hc) (h.unlinked hu) mode
  | link hsrc hp =>
      cases ht with
      | link hc' hu' hc => exact .link (h.clear hsrc hc') (h.unlinked hu') (h.clear hp hc)
      | linkTop hext hs hc => exact .linkTop (hsrc.names _ hext) (hsrc.here hs) (h.clear hp hc)
  | copy hsrc hp =>
      cases ht with
      | copyTop hext => exact .copyTop (hsrc.names _ hext)
      | copy hc' hu' hc hu =>
          exact .copy (h.clear hsrc hc') (h.unlinked hu') (h.clear hp hc) (h.unlinked hu)

/-- Two files that look the same hold the same. -/
theorem body?_alike {u u' : Tree} {id id' base base' : Nat}
    (h : u.seen top base = u'.seen top' base') (hid : base ≤ id) (hid' : base' ≤ id')
    (heq : id - base = id' - base') :
    u.body? id = u'.body? id' := by
  rw [body?_eq_seen hid, body?_eq_seen hid', h, heq]

theorem seen_put_alike {ns : List Name} {n n' : Node} (h : Alike L top t₀ t top' t₀' t')
    (hne : ns ≠ []) (hn : n.since t₀.bodies.length = n'.since t₀'.bodies.length) :
    (t.put (top ++ ns) n).seen top t₀.bodies.length =
      (t'.put (top' ++ ns) n').seen top' t₀'.bodies.length := by
  rw [seen_put n hne, seen_put n' hne, h.seen, hn]

theorem seen_fillFile {ns : List Name} (h : Alike L top t₀ t top' t₀' t') (hne : ns ≠ [])
    (b : FileBody) :
    ((t.addBody b).2.put (top ++ ns) (.file t.bodies.length)).seen top t₀.bodies.length =
      ((t'.addBody b).2.put (top' ++ ns) (.file t'.bodies.length)).seen top'
        t₀'.bodies.length := by
  rw [seen_put _ hne, seen_put _ hne, seen_addBody h.left.length_le,
    seen_addBody h.right.length_le, h.seen, Node.since, Node.since, length_eq_seen t top,
    length_eq_seen t' top', h.seen]

theorem seen_setBody_alike {u u' : Tree} {id id' : FileId} (hid : t₀.bodies.length ≤ id)
    (hid' : t₀'.bodies.length ≤ id') (heq : id - t₀.bodies.length = id' - t₀'.bodies.length)
    (h : u.seen top t₀.bodies.length = u'.seen top' t₀'.bodies.length) (b : FileBody) :
    (u.setBody id b).seen top t₀.bodies.length =
      (u'.setBody id' b).seen top' t₀'.bodies.length := by
  rw [seen_setBody hid, seen_setBody hid', h, heq]

/-- Opening a file below the destination, to write into it. -/
theorem openFile_alike {p p' : Path} {ns : List Name} (h : Alike L top t₀ t top' t₀' t')
    (hr : Reaches t cwd dest top) (hr' : Reaches t' cwd' dest' top')
    (hp : Path.Shifted dest dest' p p') (hc : Clear t top dest p ns) (hu : Unlinked t top ns)
    (mode : Mode) :
    (∃ e, t.openFile cwd p mode = .error e ∧ t'.openFile cwd' p' mode = .error e) ∨
      ∃ id u id' u', t.openFile cwd p mode = .ok (id, u) ∧
        t'.openFile cwd' p' mode = .ok (id', u') ∧
        t₀.bodies.length ≤ id ∧ t₀'.bodies.length ≤ id' ∧
        id - t₀.bodies.length = id' - t₀'.bodies.length ∧
        u.seen top t₀.bodies.length = u'.seen top' t₀'.bodies.length := by
  have hne := hc.ne_nil
  rw [(hc.below hr).openFile mode (hu.last hne),
    ((h.clear hp hc).below hr').openFile mode ((h.unlinked hu).last hne)]
  rcases h.arrive hp.refusal hne with ⟨e, ha, ha'⟩ | ⟨ha, ha'⟩ | ⟨n, n', ha, ha', hn⟩
  · rw [ha, ha']
    exact .inl ⟨e, rfl, rfl⟩
  · rw [ha, ha']
    refine .inr ⟨_, _, _, _, rfl, rfl, h.left.length_le, h.right.length_le, ?_,
      seen_fillFile h hne _⟩
    rw [length_eq_seen t top, length_eq_seen t' top', h.seen]
  · rw [ha, ha']
    cases n <;> cases n' <;> simp only [Node.since, reduceCtorEq] at hn
    · exact .inl ⟨_, rfl, rfl⟩
    · rename_i id id'
      exact .inr ⟨id, t, id', t', rfl, rfl, (h.left.fresh _ _ hne (node?_of_arrive hne ha)).1,
        (h.right.fresh _ _ hne (node?_of_arrive hne ha')).1, Node.file.inj hn, h.seen⟩
    · exact .inl ⟨_, rfl, rfl⟩

/-! ### Each change is done or refused alike -/

section Seen

variable {p p' : Path} {ns : List Name} (h : Alike L top t₀ t top' t₀' t')
  (hr : Reaches t cwd dest top) (hr' : Reaches t' cwd' dest' top')
  (hp : Path.Shifted dest dest' p p') (hc : Clear t top dest p ns)

include h hr hr' hp hc

theorem seen_mkdir (mode : Mode) :
    (t.mkdir cwd p mode).map (Tree.seen · top t₀.bodies.length) =
      (t'.mkdir cwd' p' mode).map (Tree.seen · top' t₀'.bodies.length) := by
  rw [(hc.below hr).mkdir, ((h.clear hp hc).below hr').mkdir]
  rcases h.arrive hp.refusal hc.ne_nil with
    ⟨e, ha, ha'⟩ | ⟨ha, ha'⟩ | ⟨n, n', ha, ha', hn⟩ <;> rw [ha, ha']
  · rfl
  · exact congrArg Except.ok (seen_put_alike h hc.ne_nil rfl)
  · rfl

theorem seen_createNew (content : Bytes) :
    (t.createNew cwd p content).map (Tree.seen · top t₀.bodies.length) =
      (t'.createNew cwd' p' content).map (Tree.seen · top' t₀'.bodies.length) := by
  rw [(hc.below hr).createNew, ((h.clear hp hc).below hr').createNew]
  rcases h.arrive hp.refusal hc.ne_nil with
    ⟨e, ha, ha'⟩ | ⟨ha, ha'⟩ | ⟨n, n', ha, ha', hn⟩ <;> rw [ha, ha']
  · rfl
  · exact congrArg Except.ok (seen_fillFile h hc.ne_nil _)
  · rfl

theorem seen_symlink (target : Path) :
    (t.symlink cwd target p).map (Tree.seen · top t₀.bodies.length) =
      (t'.symlink cwd' target p').map (Tree.seen · top' t₀'.bodies.length) := by
  rw [(hc.below hr).symlink, ((h.clear hp hc).below hr').symlink]
  cases target.refusal? with
  | some e => rfl
  | none =>
      rcases h.arrive hp.refusal hc.ne_nil with
        ⟨e, ha, ha'⟩ | ⟨ha, ha'⟩ | ⟨n, n', ha, ha', hn⟩ <;> rw [ha, ha']
      · rfl
      · exact congrArg Except.ok (seen_put_alike h hc.ne_nil rfl)
      · rfl

theorem seen_unlink :
    (t.unlink cwd p).map (Tree.seen · top t₀.bodies.length) =
      (t'.unlink cwd' p').map (Tree.seen · top' t₀'.bodies.length) := by
  have hremove : (t.remove (top ++ ns)).seen top t₀.bodies.length =
      (t'.remove (top' ++ ns)).seen top' t₀'.bodies.length := by
    rw [seen_remove hc.ne_nil, seen_remove hc.ne_nil, h.seen]
  rw [(hc.below hr).unlink, ((h.clear hp hc).below hr').unlink]
  rcases h.arrive hp.refusal hc.ne_nil with
    ⟨e, ha, ha'⟩ | ⟨ha, ha'⟩ | ⟨n, n', ha, ha', hn⟩ <;> rw [ha, ha']
  · rfl
  · rfl
  · cases n <;> cases n' <;> simp only [Node.since, reduceCtorEq] at hn
    · rfl
    · exact congrArg Except.ok hremove
    · exact congrArg Except.ok hremove

theorem seen_chmod (hu : Unlinked t top ns) (mode : Mode) :
    (t.chmod cwd p mode).map (Tree.seen · top t₀.bodies.length) =
      (t'.chmod cwd' p' mode).map (Tree.seen · top' t₀'.bodies.length) := by
  rw [(hc.below hr).chmod mode (hu.last hc.ne_nil),
    ((h.clear hp hc).below hr').chmod mode ((h.unlinked hu).last hc.ne_nil)]
  rcases h.arrive hp.refusal hc.ne_nil with
    ⟨e, ha, ha'⟩ | ⟨ha, ha'⟩ | ⟨n, n', ha, ha', hn⟩ <;> rw [ha, ha']
  · rfl
  · rfl
  · cases n <;> cases n' <;> simp only [Node.since, reduceCtorEq] at hn
    · exact congrArg Except.ok (seen_put_alike h hc.ne_nil rfl)
    · have hid := (h.left.fresh _ _ hc.ne_nil (node?_of_arrive hc.ne_nil ha)).1
      have hid' := (h.right.fresh _ _ hc.ne_nil (node?_of_arrive hc.ne_nil ha')).1
      have heq := Node.file.inj hn
      simp only [Except.map, content, body?_alike h.seen hid hid' heq]
      rw [seen_setBody_alike hid hid' heq h.seen]
    · rfl

variable {src src' : Path} {ns' : List Name}

theorem seen_link (hsrc : Path.Shifted dest dest' src src') (hc' : Clear t top dest src ns') :
    (t.link cwd src p).map (Tree.seen · top t₀.bodies.length) =
      (t'.link cwd' src' p').map (Tree.seen · top' t₀'.bodies.length) := by
  rw [(hc'.below hr).link (hc.below hr),
    ((h.clear hsrc hc').below hr').link ((h.clear hp hc).below hr')]
  rcases h.arrive hsrc.refusal hc'.ne_nil with
    ⟨e, ha, ha'⟩ | ⟨ha, ha'⟩ | ⟨n, n', ha, ha', hn⟩ <;> rw [ha, ha']
  · rfl
  · rfl
  · rcases h.arrive hp.refusal hc.ne_nil with
      ⟨e, hb, hb'⟩ | ⟨hb, hb'⟩ | ⟨m, m', hb, hb', hm⟩ <;> rw [hb, hb']
    · rfl
    · have hput := seen_put_alike h hc.ne_nil hn
      cases n <;> cases n' <;> simp only [Node.since, reduceCtorEq] at hn
      · rfl
      · exact congrArg Except.ok hput
      · exact congrArg Except.ok hput
    · cases n <;> cases n' <;> simp only [Node.since, reduceCtorEq] at hn <;> rfl

/-- The destination itself cannot be linked, and it is for the same reason in both trees. -/
theorem seen_link_top (hsrc : Path.Shifted dest dest' src src')
    (hext : Path.Extends dest [] src) (hs : steps src = src.moves ++ [.here]) :
    (t.link cwd src p).map (Tree.seen · top t₀.bodies.length) =
      (t'.link cwd' src' p').map (Tree.seen · top' t₀'.bodies.length) := by
  rw [(hc.below hr).link_dir (reaches_top hr hext) hs,
    ((h.clear hp hc).below hr').link_dir (reaches_top hr' (hsrc.names _ hext)) (hsrc.here hs),
    hsrc.refusal]
  cases Path.refusal? _ with
  | some e => rfl
  | none =>
      rcases h.arrive hp.refusal hc.ne_nil with
        ⟨e, ha, ha'⟩ | ⟨ha, ha'⟩ | ⟨n, n', ha, ha', hn⟩ <;> rw [ha, ha'] <;> rfl

/-- The content is read after the file at the end of the copy has been
emptied: both may be one file. -/
theorem seen_copyFile (hsrc : Path.Shifted dest dest' src src')
    (hc' : Clear t top dest src ns') (hu' : Unlinked t top ns') (hu : Unlinked t top ns) :
    (t.copyFile cwd src p).map (Tree.seen · top t₀.bodies.length) =
      (t'.copyFile cwd' src' p').map (Tree.seen · top' t₀'.bodies.length) := by
  rw [(hc'.below hr).copyFile (hu'.last hc'.ne_nil),
    ((h.clear hsrc hc').below hr').copyFile ((h.unlinked hu').last hc'.ne_nil)]
  rcases h.arrive hsrc.refusal hc'.ne_nil with
    ⟨e, ha, ha'⟩ | ⟨ha, ha'⟩ | ⟨n, n', ha, ha', hn⟩ <;> rw [ha, ha']
  · rfl
  · rfl
  · cases n <;> cases n' <;> simp only [Node.since, reduceCtorEq] at hn
    · rfl
    · have hid := (h.left.fresh _ _ hc'.ne_nil (node?_of_arrive hc'.ne_nil ha)).1
      have hid' := (h.right.fresh _ _ hc'.ne_nil (node?_of_arrive hc'.ne_nil ha')).1
      have heq := Node.file.inj hn
      simp only [mode, body?_alike h.seen hid hid' heq]
      rcases openFile_alike h hr hr' hp hc hu _ with
        ⟨e, ho, ho'⟩ | ⟨i, u, i', u', ho, ho', hi, hi', hii, hseen⟩
      · rw [ho, ho']
        rfl
      · rw [ho, ho']
        have hmode : u.mode i = u'.mode i' := by
          rw [Tree.mode, body?_alike hseen hi hi' hii, Tree.mode]
        have hempty : (u.setContent i []).seen top t₀.bodies.length =
            (u'.setContent i' []).seen top' t₀'.bodies.length := by
          rw [setContent, setContent, hmode]
          exact seen_setBody_alike hi hi' hii hseen _
        simp only [Except.map, content, body?_alike hempty hid hid' heq]
        rw [seen_setBody_alike hi hi' hii hempty]
    · rfl

end Seen

/-- A change is done or refused alike in two trees that look the same,
and they look the same then. -/
theorem TouchesBy.seen (ht : TouchesBy L t top dest c) (hs : Change.Shifted dest dest' c c')
    (h : Alike L top t₀ t top' t₀' t') (hr : Reaches t cwd dest top)
    (hr' : Reaches t' cwd' dest' top') :
    (c.apply t cwd).map (Tree.seen · top t₀.bodies.length) =
      (c'.apply t' cwd').map (Tree.seen · top' t₀'.bodies.length) := by
  cases hs with
  | mkdir hp =>
      cases ht with
      | mkdirTop hext =>
          rw [Change.apply, Change.apply, (reaches_top hr hext).mkdir,
            (reaches_top hr' (hp.names _ hext)).mkdir, hp.trimmed]
          rfl
      | mkdir hc => exact seen_mkdir h hr hr' hp hc _
  | create hp content =>
      cases ht with
      | create hc => exact seen_createNew h hr hr' hp hc content
  | symlink hp target =>
      cases ht with
      | symlink hc => exact seen_symlink h hr hr' hp hc target
  | unlink hp =>
      cases ht with
      | unlink hc => exact seen_unlink h hr hr' hp hc
  | chmod hp mode =>
      cases ht with
      | chmod hc hu => exact seen_chmod h hr hr' hp hc hu mode
  | link hsrc hp =>
      cases ht with
      | link hc' hu' hc => exact seen_link h hr hr' hp hc hsrc hc'
      | linkTop hext hs hc => exact seen_link_top h hr hr' hp hc hsrc hext hs
  | copy hsrc hp =>
      cases ht with
      | copyTop hext =>
          rw [Change.apply, Change.apply, (reaches_top hr hext).copyFile,
            (reaches_top hr' (hsrc.names _ hext)).copyFile, hsrc.refusal]
          rfl
      | copy hc' hu' hc hu => exact seen_copyFile h hr hr' hp hc hsrc hc' hu' hu

/-- What a change does in two trees that look the same. -/
theorem TouchesBy.step (ht : TouchesBy L t top dest c) (hs : Change.Shifted dest dest' c c')
    (h : Alike L top t₀ t top' t₀' t') (hr : Reaches t cwd dest top)
    (hr' : Reaches t' cwd' dest' top') :
    (∃ e, c.apply t cwd = .error e ∧ c'.apply t' cwd' = .error e) ∨
      ∃ u u', c.apply t cwd = .ok u ∧ c'.apply t' cwd' = .ok u' ∧
        Alike L top t₀ u top' t₀' u' := by
  have hseen := ht.seen hs h hr hr'
  cases hu : c.apply t cwd with
  | error e =>
      cases hu' : c'.apply t' cwd' with
      | error e' =>
          rw [hu, hu'] at hseen
          exact .inl ⟨e, rfl, congrArg _ (Except.error.inj hseen).symm⟩
      | ok u' => simp [hu, hu', Except.map] at hseen
  | ok u =>
      cases hu' : c'.apply t' cwd' with
      | error e' => simp [hu, hu', Except.map] at hseen
      | ok u' =>
          rw [hu, hu'] at hseen
          exact .inr ⟨u, u', rfl, rfl, ht.confined h.left hr hu,
            (ht.right hs h).confined h.right hr' hu',
            Except.ok.inj hseen⟩

end Archive

end LlvmBootstrap
