import LlvmBootstrap.Proofs.Archive.Members
import LlvmBootstrap.Tree.Listing

/-!
Unpacking is confined to its destination, for writes and for reads: after each call all that is
not below the destination is as it was, and what becomes of the archive is the same in any
other world in which the destination is empty.
-/

namespace LlvmBootstrap

namespace Tree

/-- All that does not stand below `top` is the same in both trees, and every file of
the first is still what it was. -/
structure SameOutside (top : Location) (t t' : Tree) : Prop where
  nodes : ∀ loc, (∀ rel, rel ≠ [] → loc ≠ top ++ rel) → t'.node? loc = t.node? loc
  bodies : ∀ id b, t.body? id = some b → t'.body? id = some b

def OneFile (t : Tree) (loc loc' : Location) : Prop :=
  ∃ id, t.node? loc = some (.file id) ∧ t.node? loc' = some (.file id)

/-- What stands below `top` in one tree and below `top'` in the other is the
same, names of one file included. -/
structure SameBelow (top : Location) (t : Tree) (top' : Location) (t' : Tree) : Prop where
  shown : ∀ rel, rel ≠ [] →
    (t.node? (top ++ rel)).map t.shown = (t'.node? (top' ++ rel)).map t'.shown
  oneFile : ∀ rel rel', rel ≠ [] → rel' ≠ [] →
    (t.OneFile (top ++ rel) (top ++ rel') ↔ t'.OneFile (top' ++ rel) (top' ++ rel'))

variable {L : List Name → Path → Prop} {t t₀ t' t₀' : Tree} {top top' : Location}

theorem Confined.sameOutside (h : Confined L top t₀ t) : SameOutside top t₀ t where
  nodes := h.outside
  bodies id b hb := by
    obtain ⟨hlt, -⟩ := List.getElem?_eq_some_iff.mp hb
    rw [h.bodies id hlt, hb]

/-- From an empty directory nothing is seen, and no file is new. -/
theorem seen_of_vacant (h : t.isVacantBelow top = true) :
    t.seen top t.bodies.length = ⟨fun _ => none, []⟩ := by
  rw [Tree.seen, List.drop_length]
  congr 1
  funext rel
  by_cases hne : rel = []
  · rw [if_pos hne]
  · rw [if_neg hne, isVacantBelow_iff.mp h rel hne, Option.map_none]

namespace Alike

theorem swap (h : Alike L top t₀ t top' t₀' t') : Alike L top' t₀' t' top t₀ t :=
  ⟨h.right, h.left, h.seen.symm⟩

theorem file {rel : List Name} {id : FileId} (h : Alike L top t₀ t top' t₀' t')
    (hne : rel ≠ []) (hn : t.node? (top ++ rel) = some (.file id)) :
    ∃ id', t'.node? (top' ++ rel) = some (.file id') ∧ t₀.bodies.length ≤ id ∧
      t₀'.bodies.length ≤ id' ∧ id - t₀.bodies.length = id' - t₀'.bodies.length := by
  have hnode := h.node? hne
  rw [hn] at hnode
  obtain ⟨n', hn', hsince⟩ := Option.map_eq_some_iff.mp hnode.symm
  cases n' with
  | dir mode => simp [Node.since] at hsince
  | link target => simp [Node.since] at hsince
  | file id' =>
      exact ⟨id', hn', (h.left.fresh rel id hne hn).1, (h.right.fresh rel id' hne hn').1,
        (Node.file.inj hsince).symm⟩

theorem oneFile {rel rel' : List Name} (h : Alike L top t₀ t top' t₀' t') (hne : rel ≠ [])
    (hne' : rel' ≠ []) (hone : t.OneFile (top ++ rel) (top ++ rel')) :
    t'.OneFile (top' ++ rel) (top' ++ rel') := by
  obtain ⟨id, hn, hn'⟩ := hone
  obtain ⟨i, hi, -, hle, heq⟩ := h.file hne hn
  obtain ⟨j, hj, -, hle', heq'⟩ := h.file hne' hn'
  have hsub : i - t₀'.bodies.length = j - t₀'.bodies.length := heq.symm.trans heq'
  have hij : i = j := by
    rw [← Nat.sub_add_cancel hle, hsub, Nat.sub_add_cancel hle']
  exact ⟨i, hi, hij ▸ hj⟩

theorem sameBelow (h : Alike L top t₀ t top' t₀' t') : SameBelow top t top' t' where
  shown rel hne := by
    have hnode := h.node? hne
    -- A file may have another number in the other tree, so only its body is compared.
    -- Anything else is the same node.
    cases hn : t.node? (top ++ rel) with
    | none =>
        rw [hn] at hnode
        rw [Option.map_eq_none_iff.mp hnode.symm]
        rfl
    | some n =>
        cases n with
        | file id =>
            obtain ⟨id', hn', hle, hle', heq⟩ := h.file hne hn
            have hbody := Archive.body?_alike h.seen hle hle' heq
            simp only [hn', Option.map_some, shown, mode, content, hbody]
        | dir mode =>
            rw [hn] at hnode
            obtain ⟨n', hn', hsince⟩ := Option.map_eq_some_iff.mp hnode.symm
            cases n' <;> simp only [Node.since, reduceCtorEq] at hsince
            rw [hn', hsince]
            rfl
        | link target =>
            rw [hn] at hnode
            obtain ⟨n', hn', hsince⟩ := Option.map_eq_some_iff.mp hnode.symm
            cases n' <;> simp only [Node.since, reduceCtorEq] at hsince
            rw [hn', hsince]
            rfl
  oneFile rel rel' hne hne' := ⟨h.oneFile hne hne', h.swap.oneFile hne hne'⟩

end Alike

end Tree

structure World.HasEmptyDir {σ : Type} (w : World σ) (dest : Path)
    (top : Location) : Prop where
  leads : ∃ mode, w.tree.lookup w.cwd true dest = .ok (top, .dir mode) ∧
    w.tree.node? top = some (.dir mode)
  empty : w.tree.isVacantBelow top = true

namespace Archive

open LlvmBootstrap.Tree Program

variable {σ σ' : Type} {o : Outside σ} {o' : Outside σ'} {w₀ w : World σ} {w₀' w' : World σ'}
  {L : List Name → Path → Prop} {dest dest' root : Path} {top top' : Location}

theorem emptyDir_of_hasEmptyDir (h : w.HasEmptyDir dest top) :
    EmptyDir w.tree w.cwd dest top := by
  obtain ⟨mode, hl, hd⟩ := h.leads
  obtain ⟨hr, hnone⟩ := reaches_of_lookup hl hd
  refine ⟨hr, h.empty, fun hnil => ?_⟩
  rw [Path.refusal?, hnil] at hnone
  simp at hnone

/-- Two worlds in the course of unpacking the same archive. -/
structure InStep (L : List Name → Path → Prop) (w₀ : World σ) (top : Location) (w₀' : World σ')
    (top' : Location) (w : World σ) (w' : World σ') : Prop where
  cwd : w.cwd = w₀.cwd
  cwd' : w'.cwd = w₀'.cwd
  alike : Alike L top w₀.tree w.tree top' w₀'.tree w'.tree

theorem InStep.reaches (he : EmptyDir w₀.tree w₀.cwd dest top)
    (he' : EmptyDir w₀'.tree w₀'.cwd dest' top') (hw : Inside L w₀.tree w₀.cwd top w)
    (h : InStep L w₀ top w₀' top' w w') :
    Reaches w.tree w.cwd dest top ∧ Reaches w'.tree w'.cwd dest' top' :=
  ⟨(shelter_inside he).reaches hw, (shelter_inside he').reaches ⟨h.cwd', h.alike.right⟩⟩

theorem inside_of_hasEmptyDir (h : w.HasEmptyDir dest top) : Inside L w.tree w.cwd top w :=
  ⟨rfl, .refl h.empty⟩

theorem inStep_of_hasEmptyDir (h : w.HasEmptyDir dest top) (h' : w'.HasEmptyDir dest' top') :
    InStep L w top w' top' w w' := by
  refine ⟨rfl, rfl, .refl h.empty, .refl h'.empty, ?_⟩
  rw [seen_of_vacant h.empty, seen_of_vacant h'.empty]

/-- A look below one destination and the look for the same below the other. -/
theorem InStep.look {follow : Bool} {p p' : Path} (he : EmptyDir w₀.tree w₀.cwd dest top)
    (he' : EmptyDir w₀'.tree w₀'.cwd dest' top')
    (hc : Permits L (Inside L w₀.tree w₀.cwd top) top dest w (.look follow p))
    (hp : Path.Shifted dest dest' p p') (h : InStep L w₀ top w₀' top' w w') :
    (w.perform o (.look follow p)).1 = (w'.perform o' (.look follow p')).1 := by
  obtain ⟨hr, hr'⟩ := h.reaches he he' hc.1
  cases hc.2 with
  -- The destination is a directory in both worlds, whatever its mode in each.
  | lookTop hext =>
      obtain ⟨mode, hm⟩ := hr.dir
      obtain ⟨mode', hm'⟩ := hr'.dir
      simp only [World.perform, (reaches_top hr hext).lookup,
        (reaches_top hr' (hp.names _ hext)).lookup, hp.refusal]
      cases p.refusal? with
      | some e => rfl
      | none =>
          simp only [hm, hm']
          rfl
  | look hclear hu =>
      have hb := (hclear.below hr).lookup fun hf => (hu hf).last hclear.ne_nil
      have hb' := ((h.alike.clear hp hclear).below hr').lookup fun hf =>
        (h.alike.unlinked (hu hf)).last hclear.ne_nil
      simp only [World.perform, hb, hb']
      -- Both ways down come to the same error, the same vacant place, or nodes of one kind.
      rcases h.alike.arrive hp.refusal hclear.ne_nil with
        ⟨e, ha, ha'⟩ | ⟨ha, ha'⟩ | ⟨n, n', ha, ha', hn⟩
      · simp only [ha, ha']
        rfl
      · simp only [ha, ha']
        rfl
      · simp only [ha, ha']
        cases n <;> cases n' <;> simp only [Node.since, reduceCtorEq] at hn <;> rfl

/-- A change below one destination and the same change below the other. -/
theorem InStep.change {c c' : Change} (he : EmptyDir w₀.tree w₀.cwd dest top)
    (he' : EmptyDir w₀'.tree w₀'.cwd dest' top')
    (hc : Permits L (Inside L w₀.tree w₀.cwd top) top dest w (.change c))
    (hs : Change.Shifted dest dest' c c') (h : InStep L w₀ top w₀' top' w w') :
    (w.perform o (.change c)).1 = (w'.perform o' (.change c')).1 ∧
      InStep L w₀ top w₀' top' (w.perform o (.change c)).2 (w'.perform o' (.change c')).2 := by
  obtain ⟨hr, hr'⟩ := h.reaches he he' hc.1
  cases hc.2 with
  | change ht =>
      simp only [World.perform, World.change]
      rcases ht.step hs h.alike hr hr' with ⟨e, ha, ha'⟩ | ⟨u, u', ha, ha', halike⟩
      · rw [ha, ha']
        exact ⟨rfl, h⟩
      · rw [ha, ha']
        exact ⟨rfl, h.cwd, h.cwd', halike⟩

theorem InStep.perform {c : Call} (he : EmptyDir w₀.tree w₀.cwd dest top)
    (he' : EmptyDir w₀'.tree w₀'.cwd dest top')
    (hc : Permits L (Inside L w₀.tree w₀.cwd top) top dest w c)
    (h : InStep L w₀ top w₀' top' w w') :
    (w.perform o c).1 = (w'.perform o' c).1 ∧
      InStep L w₀ top w₀' top' (w.perform o c).2 (w'.perform o' c).2 := by
  cases hc.2 with
  | lookTop hext => exact ⟨h.look he he' hc (.refl ..), h⟩
  | look hclear hu => exact ⟨h.look he he' hc (.refl ..), h⟩
  | change ht => exact h.change he he' hc ht.shifted

/-- Whatever an archive holds, unpacking it into an empty directory leaves all outside of
the directory as it was, after each of its calls and in the end, failed or not. In any
other world with the directory empty it goes through the same calls to the same result, and
leaves the same in the directory. -/
theorem unpack_confined (members : Tar.Members) (root : Path) (h : w.HasEmptyDir dest top)
    (h' : w'.HasEmptyDir dest top') :
    let p := (unpack members root dest).run
    (∀ n, SameOutside top w.tree (p.after o n w).2.tree ∧
      (p.after o n w).1 = (p.after o' n w').1 ∧
      SameBelow top (p.after o n w).2.tree top' (p.after o' n w').2.tree) ∧
    SameOutside top w.tree (p.run o w).2.tree ∧ (p.run o w).1 = (p.run o' w').1 ∧
      SameBelow top (p.run o w).2.tree top' (p.run o' w').2.tree := by
  intro p
  have he := emptyDir_of_hasEmptyDir h
  have he' := emptyDir_of_hasEmptyDir h'
  have hrun : p.Throughout o
      (Permits (fun _ _ => True) (Inside (fun _ _ => True) w.tree w.cwd top) top dest)
      (fun _ w' => Inside (fun _ _ => True) w.tree w.cwd top w') w :=
    throughout_unpack members root (inside_of_hasEmptyDir h) he fun _ _ _ => trivial
  have hstart : InStep (fun _ _ => True) w top w' top' w w' := inStep_of_hasEmptyDir h h'
  have hstep := fun c (u : World σ) (u' : World σ') hc hs =>
    @InStep.perform _ _ o o' w u w' u' (fun _ _ => True) _ _ _ c he he' hc hs
  refine ⟨fun n => ?_, ?_⟩
  · obtain ⟨heq, hs⟩ := hrun.after_eq hstart hstep n
    exact ⟨hs.alike.left.sameOutside, heq, hs.alike.sameBelow⟩
  · obtain ⟨heq, hs⟩ := hrun.run_eq hstart hstep
    exact ⟨hs.alike.left.sameOutside, heq, hs.alike.sameBelow⟩

def bareDir : Tree := Tree.empty.put [[0x64]] (.dir 0o755)

def dirBesideFile : Tree :=
  ((bareDir.addBody ⟨0o600, [1, 2, 3]⟩).2.put [[0x73]] (.file 0)).put [[0x6C]] (.link "/s")

/-- An archive with a file, a second name of it and a link that points past the top. -/
def pastTop : Tar.Members where
  list := [
    ⟨"R/f", .file, none, some 0o644, [7], true⟩,
    ⟨"R/g", .hardLink, some "R/f", some 0o644, [], true⟩,
    ⟨"R/l", .symlink, some "../s", some 0o777, [], true⟩]
  damaged := false

def silent : Outside Unit where
  spawn _ _ _ t s := (.error (.system .notFound), t, s)
  send _ s := (.error (), s)
  clock s := (0, s)
  draw s := ([], s)

theorem hasEmptyDir_d {t : Tree} (hd : t.node? [[0x64]] = some (.dir 0o755))
    (hv : t.isVacantBelow [[0x64]] = true) :
    (World.fresh t [] .empty 1 ()).HasEmptyDir "/d" [[0x64]] := by
  have hsteps : steps "/d" = [.name [0x64]] := by decide
  have hwalk : t.walk true maxLinks [] (steps "/d") = .ok (.found [[0x64]] (.dir 0o755)) := by
    rw [hsteps, walk, if_neg (by decide), List.nil_append, hd]
    rfl
  refine ⟨⟨0o755, ?_, hd⟩, hv⟩
  rw [World.fresh, Tree.lookup, resolve_eq,
    show (Path.ofString "/d").refusal? = none by decide]
  simp only
  rw [show (Path.ofString "/d").start [] = [] by decide, hwalk]

theorem unpack_confined_pastTop :
    let p := (unpack pastTop "R" "/d").run
    let w := World.fresh bareDir [] .empty 1 ()
    let w' := World.fresh dirBesideFile [] .empty 1 ()
    (w.HasEmptyDir "/d" [[0x64]] ∧ w'.HasEmptyDir "/d" [[0x64]]) ∧
    (∀ n, SameOutside [[0x64]] w.tree (p.after silent n w).2.tree ∧
      (p.after silent n w).1 = (p.after silent n w').1 ∧
      SameBelow [[0x64]] (p.after silent n w).2.tree [[0x64]] (p.after silent n w').2.tree) ∧
    SameOutside [[0x64]] w.tree (p.run silent w).2.tree ∧
      (p.run silent w).1 = (p.run silent w').1 ∧
      SameBelow [[0x64]] (p.run silent w).2.tree [[0x64]] (p.run silent w').2.tree := by
  have h := hasEmptyDir_d (t := bareDir) (by decide) (by decide)
  have h' := hasEmptyDir_d (t := dirBesideFile) (by decide) (by decide)
  exact ⟨⟨h, h'⟩, unpack_confined pastTop "R" h h'⟩

end Archive

end LlvmBootstrap
