import Mathlib
import LlvmBootstrap.Proofs.Archive.Confinement
import LlvmBootstrap.Proofs.Run.Course
import LlvmBootstrap.Proofs.Tree.Ways

/-!
What the hard links of an archive do. A link to a vacant place adds a name and nothing else.
Where a file stands already no link can be made, and the copy that is made instead is written
into that file, in place: all its names get the new content, and a file that is copied onto
itself is emptied.
-/

namespace LlvmBootstrap

namespace Tree

variable {t t' t'' : Tree} {src place loc : Location} {id s d : FileId}

def held? (t : Tree) (loc : Location) : Option Bytes :=
  match t.node? loc with
  | some (.file id) => some (t.content id)
  | _ => none

theorem held?_of_file (h : t.node? loc = some (.file id)) :
    t.held? loc = some (t.content id) := by
  rw [held?, h]

/-- Where the same stands, and files hold the same, the same is held. -/
theorem held?_congr (hnode : t'.node? loc = t.node? loc)
    (hbody : ∀ id, t.node? loc = some (.file id) → t'.content id = t.content id) :
    t'.held? loc = t.held? loc := by
  rw [held?, held?, hnode]
  split
  · next id hid => rw [hbody id hid]
  · rfl

/-- The file at `place` comes to hold what the one at `src` holds, under all of its names, and
no other file is touched. If there is one file at both places, it is emptied. -/
structure Overwrites (t t' : Tree) (src place : Location) : Prop where
  source : (t.held? src).isSome = true
  onto_itself : t.OneFile src place → ∀ loc, t.OneFile loc place → t'.held? loc = some []
  apart : ¬ t.OneFile src place → ∀ loc, loc = place ∨ t.OneFile loc place →
    t'.held? loc = t.held? src
  others : ∀ loc, loc ≠ place → ¬ t.OneFile loc place → t'.held? loc = t.held? loc

/-- `place` holds what `src` held, and all other places what they held themselves. -/
structure OnlyAdds (t t' : Tree) (src place : Location) : Prop where
  added : t'.held? place = t.held? src
  others : ∀ loc, loc ≠ place → t'.held? loc = t.held? loc

/-- Nothing is lost if the file at `place` is overwritten with the one at `src`. -/
structure Harmless (t : Tree) (src place : Location) : Prop where
  onto_itself : t.OneFile src place → t.held? src = some []
  names : ∀ loc, loc ≠ place → t.OneFile loc place → t.held? loc = t.held? src

theorem Overwrites.onlyAdds_iff (h : Overwrites t t' src place) :
    OnlyAdds t t' src place ↔ t.Harmless src place := by
  constructor
  · intro hadds
    have honto : t.OneFile src place → t.held? src = some [] := fun hone => by
      obtain ⟨id, -, hplace⟩ := id hone
      rw [← hadds.added]
      exact h.onto_itself hone place ⟨id, hplace, hplace⟩
    refine ⟨honto, fun loc hne hloc => ?_⟩
    rw [← hadds.others loc hne]
    by_cases hone : t.OneFile src place
    · rw [h.onto_itself hone loc hloc, honto hone]
    · exact h.apart hone loc (.inr hloc)
  · intro hharmless
    refine ⟨?_, fun loc hne => ?_⟩
    · by_cases hone : t.OneFile src place
      · obtain ⟨id, -, hplace⟩ := id hone
        rw [hharmless.onto_itself hone]
        exact h.onto_itself hone place ⟨id, hplace, hplace⟩
      · exact h.apart hone place (.inl rfl)
    · by_cases hloc : t.OneFile loc place
      · rw [hharmless.names loc hne hloc]
        by_cases hone : t.OneFile src place
        · rw [h.onto_itself hone loc hloc, hharmless.onto_itself hone]
        · exact h.apart hone loc (.inr hloc)
      · exact h.others loc hne hloc

/-! ### Directories that are made first -/

theorem NewDirs.node?_file_iff (h : NewDirs t t') :
    t'.node? loc = some (.file id) ↔ t.node? loc = some (.file id) := by
  rcases h.nodes loc with hsame | ⟨hnone, mode, hdir⟩
  · rw [hsame]
  · rw [hnone, hdir]
    simp

theorem NewDirs.held? (h : NewDirs t t') (loc : Location) : t'.held? loc = t.held? loc := by
  rcases h.nodes loc with hsame | ⟨hnone, mode, hdir⟩
  · exact held?_congr hsame fun id _ => by rw [content, content, body?, body?, h.bodies]
  · rw [Tree.held?, Tree.held?, hnone, hdir]

theorem NewDirs.oneFile_iff (h : NewDirs t t') {loc loc' : Location} :
    t'.OneFile loc loc' ↔ t.OneFile loc loc' := by
  simp only [OneFile, h.node?_file_iff]

theorem Overwrites.of_newDirs (hnew : NewDirs t t') (h : Overwrites t' t'' src place) :
    Overwrites t t'' src place where
  source := by
    rw [← hnew.held?]
    exact h.source
  onto_itself hone loc hloc :=
    h.onto_itself (hnew.oneFile_iff.mpr hone) loc (hnew.oneFile_iff.mpr hloc)
  apart hone loc hloc := by
    rw [h.apart (mt hnew.oneFile_iff.mp hone) loc (hloc.imp_right hnew.oneFile_iff.mpr),
      hnew.held?]
  others loc hne hloc := by
    rw [h.others loc hne (mt hnew.oneFile_iff.mp hloc), hnew.held?]

/-! ### Links and copies -/

theorem overwrites_put (hne : place ≠ []) (hsrc : t.node? src = some (.file s))
    (hplace : t.node? place = none) : Overwrites t (t.put place (.file s)) src place := by
  have hnone : ∀ loc, ¬ t.OneFile loc place := by
    rintro loc ⟨id, -, hid⟩
    rw [hplace] at hid
    contradiction
  refine ⟨by rw [held?_of_file hsrc]; rfl, fun hone => absurd hone (hnone src),
    fun _ loc hloc => ?_,
    fun loc hloc _ => held?_congr (node?_put_of_ne t _ hloc) fun _ _ => rfl⟩
  obtain rfl := hloc.resolve_right (hnone loc)
  rw [held?_of_file hsrc, held?_of_file (node?_put_self t _ hne)]
  rfl

theorem body?_setBody_of_ne {b : FileBody} (h : id ≠ d) :
    (t.setBody d b).body? id = t.body? id :=
  List.getElem?_set_ne h.symm

theorem body?_setBody_self {b : FileBody} (h : d < t.bodies.length) :
    (t.setBody d b).body? d = some b :=
  List.getElem?_set_self h

/-- A copy empties the file it is written into before it reads. -/
theorem overwrites_copy {mode : Mode} (hsrc : t.node? src = some (.file s))
    (hplace : t.node? place = some (.file d)) (hd : d < t.bodies.length) :
    Overwrites t ((t.setContent d []).setBody d ⟨mode, (t.setContent d []).content s⟩)
      src place := by
  -- The destination is emptied before the source is read, so the two cases differ: a source
  -- that is the same file is read when it is empty already.
  let t' := (t.setContent d []).setBody d ⟨mode, (t.setContent d []).content s⟩
  have hnode : ∀ loc, t'.node? loc = t.node? loc := fun loc => by simp [t']
  have hone : ∀ {loc}, t.OneFile loc place ↔ t.node? loc = some (.file d) := fun {loc} => by
    refine ⟨?_, fun hloc => ⟨d, hloc, hplace⟩⟩
    rintro ⟨id, hloc, hid⟩
    rw [hplace] at hid
    rwa [Node.file.inj (Option.some.inj hid)]
  have hwritten : t'.content d = (t.setContent d []).content s := by
    have hlt : d < (t.setContent d []).bodies.length := by
      simpa [setContent] using hd
    rw [content, body?_setBody_self hlt]
    rfl
  have hheld : ∀ {loc}, t.OneFile loc place →
      t'.held? loc = some ((t.setContent d []).content s) := by
    intro loc hloc
    rw [held?_of_file ((hnode loc).trans (hone.mp hloc)), hwritten]
  refine ⟨by rw [held?_of_file hsrc]; rfl, fun hsame loc hloc => ?_,
    fun happart loc hloc => ?_,
    fun loc _ hloc => held?_congr (hnode loc) fun id hid => ?_⟩
  · have heq : d = s := by
      have hsame := hone.mp hsame
      rw [hsrc] at hsame
      exact (Node.file.inj (Option.some.inj hsame)).symm
    rw [hheld hloc, heq, content_setContent_nil]
  · have hne : s ≠ d := by
      rintro rfl
      exact happart (hone.mpr hsrc)
    have hloc' : t.OneFile loc place := hloc.elim (fun h => h ▸ hone.mpr hplace) fun h => h
    rw [hheld hloc', held?_of_file hsrc, content, setContent, body?_setBody_of_ne hne]
    rfl
  · have hne : id ≠ d := by
      rintro rfl
      exact hloc (hone.mpr hid)
    rw [content, body?_setBody_of_ne hne, setContent, body?_setBody_of_ne hne]
    rfl

end Tree

def Call.IsLook : Call → Prop
  | .look _ _ => True
  | _ => False

namespace Archive

open LlvmBootstrap.Tree Program Tar

variable {σ : Type} {o : Outside σ} {L : List Name → Path → Prop} {t₀ t t' : Tree}
  {cwd top : Location} {dest root src p : Path} {w w' : World σ} {ns ns' : List Name}
  {m : Member} {tr : List Answered}

/-- One that unpacks alone. -/
theorem steady_alone {I : World σ → Prop} (w w' : World σ) (hw : I w) (heq : w = w') :
    Steady I top w w' := heq ▸ .refl hw

/-! ### One link -/

theorem overwrites_of_link (hr : Reaches t cwd dest top) (h' : Clear t top dest src ns')
    (hu' : Unlinked t top ns') (h : Clear t top dest p ns) (happ : t.link cwd src p = .ok t') :
    Overwrites t t' (top ++ ns') (top ++ ns) := by
  rw [(h'.below hr).link (h.below hr)] at happ
  split at happ
  · contradiction
  · contradiction
  · contradiction
  · contradiction
  · contradiction
  · next n hdir harrive' harrive =>
    have hsrc := node?_of_arrive h'.ne_nil harrive'
    cases n with
    | dir mode => exact absurd rfl (hdir mode)
    | link target => exact absurd hsrc (hu'.last h'.ne_nil target)
    | file s =>
        rw [← Except.ok.inj happ]
        exact overwrites_put (by simp [h.ne_nil]) hsrc (node?_of_arrive h.ne_nil harrive)

/-- A copy is made only where a file stands: elsewhere the link would
have been made, or nothing can be. -/
theorem overwrites_of_copy {e : Errno} (hc : Confined L top t₀ t) (hr : Reaches t cwd dest top)
    (h' : Clear t top dest src ns') (hu' : Unlinked t top ns') (h : Clear t top dest p ns)
    (hu : Unlinked t top ns) (hlink : t.link cwd src p = .error e)
    (happ : t.copyFile cwd src p = .ok t') :
    Overwrites t t' (top ++ ns') (top ++ ns) := by
  rw [(h'.below hr).copyFile (hu'.last h'.ne_nil)] at happ
  split at happ
  · contradiction
  · next s harrive' =>
    have hsrc := node?_of_arrive h'.ne_nil harrive'
    rw [(h.below hr).openFile _ (hu.last h.ne_nil)] at happ
    cases harrive : t.arrive top p ns with
    | error e =>
        rw [harrive] at happ
        contradiction
    | ok found =>
        have hplace := node?_of_arrive h.ne_nil harrive
        rw [harrive] at happ
        cases found with
        | none =>
            -- A link to a vacant place would have been made.
            rw [(h'.below hr).link (h.below hr), harrive', harrive] at hlink
            contradiction
        | some n =>
            cases n with
            | dir mode => contradiction
            | link target => contradiction
            | file d =>
                rw [← Except.ok.inj happ]
                exact overwrites_copy hsrc hplace (hc.fresh ns d h.ne_nil hplace).2
  · contradiction
  · contradiction

theorem hardLink_overwrites (hw : Inside L t₀ cwd top w) (he : EmptyDir t₀ cwd dest top)
    (h' : Clear w.tree top dest src ns') (hu' : Unlinked w.tree top ns')
    (h : Clear w.tree top dest p ns) (hu : Unlinked w.tree top ns)
    (hgoes : (makeHardLink src p).run.Goes o w (.ok ()) tr w') :
    Overwrites w.tree w'.tree (top ++ ns') (top ++ ns) := by
  have hr : Reaches w.tree w.cwd dest top := (shelter_inside he).reaches hw
  have hrun : (makeHardLink src p).run.Throughout o (fun _ _ => True)
      (fun res w' => res = .ok () → Overwrites w.tree w'.tree (top ++ ns') (top ++ ns)) w := by
    refine Throughout.attempt_change_bind trivial (fun t' happ _ => ?_) fun e happ => ?_
    · exact overwrites_of_link hr h' hu' h happ
    · refine Throughout.adapt
        (Throughout.change_bind trivial (fun t' hcopy _ => ?_) fun e' _ => ?_)
      · exact overwrites_of_copy hw.confined hr h' hu' h hu happ hcopy
      · rintro ⟨⟩
  exact hgoes.at_end hrun rfl

/-- Nothing can be a second name for the destination, nor a copy of it. -/
theorem not_hardLink_top (hw : Inside L t₀ cwd top w) (he : EmptyDir t₀ cwd dest top)
    (hext : Path.Extends dest [] src) (hsteps : steps src = src.moves ++ [.here])
    (h : Clear w.tree top dest p ns) : ¬ (makeHardLink src p).run.Goes o w (.ok ()) tr w' := by
  have hr : Reaches w.tree w.cwd dest top := (shelter_inside he).reaches hw
  have hrun : (makeHardLink src p).run.Throughout o (fun _ _ => True)
      (fun res _ => res ≠ .ok ()) w := by
    refine Throughout.attempt_change_bind trivial (fun t' happ => ?_) fun e happ => ?_
    · rw [Change.apply, (h.below hr).link_dir (reaches_top hr hext) hsteps] at happ
      split at happ <;> contradiction
    · refine Throughout.adapt
        (Throughout.change_bind trivial (fun t' hcopy => ?_) fun e' _ => ?_)
      · rw [Change.apply, (reaches_top hr hext).copyFile] at hcopy
        contradiction
      · rintro ⟨⟩
  exact fun hgoes => hgoes.at_end hrun rfl

/-! ### One member -/

theorem meetsLink_onlyLooks (dir : Path) (names : List Name) :
    (meetsLink dir names).run.Only Call.IsLook := by
  induction names generalizing dir with
  | nil => exact trivial
  | cons n names ih =>
      refine Only.attempt_call_bind trivial fun answer => ?_
      rcases answer with e | kind
      · cases e <;> exact trivial
      · cases kind with
        | link => exact trivial
        | _ => exact ih _

/-- Looking for links leaves the tree as it is. -/
theorem looked_of_goes {met : Bool} (hw : Inside L t₀ cwd top w)
    (he : EmptyDir t₀ cwd dest top) (hplain : ∀ n ∈ ns, Path.IsPlain n)
    (hgoes : (orFail (meetsLink dest ns)).run.Goes o w (.ok met) tr w') :
    Inside L t₀ cwd top w' ∧ w'.tree = w.tree ∧ (met = false → Unlinked w.tree top ns) := by
  have hrun : (orFail (meetsLink dest ns)).run.Amid o (fun _ => Eq)
      (fun _ => Permits L (Inside L t₀ cwd top) top dest) (fun r _ w' =>
        Steady (Inside L t₀ cwd top) top w w' ∧ (r = .ok false → Unlinked w'.tree top ns))
          [] w :=
    amid_looked (shelter_inside he) steady_alone hw hplain
  have hlooks : (orFail (meetsLink dest ns)).run.Throughout o (fun _ _ => True)
      (fun _ w' => w'.tree = w.tree) w := by
    refine ((meetsLink_onlyLooks dest ns).adapt _).throughout
      (I := fun w' => w'.tree = w.tree) ?_ rfl
    intro w' c hw' hc
    cases c with
    | look follow q => exact ⟨trivial, hw'⟩
    | _ => exact hc.elim
  obtain ⟨hsteady, hu⟩ := hgoes.at_end hrun.throughout
  have htree := hgoes.at_end hlooks
  refine ⟨hsteady.inv, htree, fun hmet => ?_⟩
  rw [← htree]
  exact hu (congrArg Except.ok hmet)

/-- The path of the file that a hard link names has been looked along, and no link met. -/
theorem linked_of_checkTarget {linked : Option Path} (hw : Inside L t₀ cwd top w)
    (he : EmptyDir t₀ cwd dest top) (hk : m.kind = .hardLink)
    (hgoes : (checkTarget root dest ns m).run.Goes o w (.ok linked) tr w') :
    ∃ target below, m.target = some target ∧
      target.normalize?.bind (belowTop? root) = some below ∧
      linked = some (dest / Path.ofNames below) ∧
      Inside L t₀ cwd top w' ∧ w'.tree = w.tree ∧ Unlinked w.tree top below := by
  simp only [checkTarget, hk, targetOf] at hgoes
  cases ht : m.target with
  | none =>
      rw [ht] at hgoes
      exact absurd hgoes.of_pure.1 (by simp)
  | some target =>
      simp only [ht, pure_bind] at hgoes
      cases hbelow : target.normalize?.bind (belowTop? root) with
      | none =>
          simp only [hbelow] at hgoes
          exact absurd hgoes.of_pure.1 (by simp)
      | some below =>
          simp only [hbelow] at hgoes
          rcases hgoes.of_attempt_bind with ⟨e, he', -⟩ | ⟨met, w₁, tr₁, tr₂, hlook, hrest, -⟩
          · contradiction
          · obtain ⟨hw₁, htree, hu⟩ := looked_of_goes hw he (isPlain_of_below hbelow) hlook
            cases met with
            | true => exact absurd hrest.of_pure.1 (by simp)
            | false =>
                obtain ⟨hlinked, -, rfl⟩ := hrest.of_pure
                exact ⟨target, below, rfl, hbelow, Except.ok.inj hlinked, hw₁, htree, hu rfl⟩

theorem newDirs_of_makeDirs {q : Path} {res : Except Errno Unit}
    (hgoes : (makeDirs q).run.Goes o w res tr w') : NewDirs w.tree w'.tree := by
  have hrun : (makeDirs q).run.Throughout o (fun _ _ => True)
      (fun _ w' => NewDirs w.tree w'.tree) w := by
    refine (makeDirs_only q).throughout (I := fun w' => NewDirs w.tree w'.tree) ?_ (.refl _)
    intro w₁ c hw₁ hc
    refine ⟨trivial, ?_⟩
    cases hc with
    | look => exact hw₁
    | @mkdir q' hq' =>
        cases happ : (Change.mkdir q').apply w₁.tree w₁.cwd with
        | error e =>
            rw [World.perform_change_error happ]
            exact hw₁
        | ok t' =>
            rw [World.perform_change_ok happ]
            exact hw₁.trans (newDirs_of_mkdir happ)
  exact hgoes.at_end hrun

/-- The directories above a member's place are made inside. -/
theorem made_of_goes {res : Except SourceError Unit} (hw : Inside L t₀ cwd top w)
    (he : EmptyDir t₀ cwd dest top) (hplain : ∀ n ∈ ns, Path.IsPlain n)
    (hu : Unlinked w.tree top ns)
    (hgoes : (orFail (makeDirs (dest / Path.ofNames ns))).run.Goes o w res tr w') :
    Inside L t₀ cwd top w' ∧ NewDirs w.tree w'.tree := by
  have hrun : (orFail (makeDirs (dest / Path.ofNames ns))).run.Amid o (fun _ => Eq)
      (fun _ => Permits L (Inside L t₀ cwd top) top dest)
      (fun _ _ => Steady (Inside L t₀ cwd top) top w) [] w :=
    amid_orFail (amid_makeDirs (shelter_inside he) steady_alone hw hplain hu)
  have hsteady := hgoes.at_end hrun.throughout
  rw [orFail, run_adapt] at hgoes
  obtain ⟨made, w₁, tr₁, tr₂, hmade, hrest, -⟩ := hgoes.of_bind
  obtain ⟨-, -, rfl⟩ := hrest.of_pure
  exact ⟨hsteady.inv, newDirs_of_makeDirs hmade⟩

/-- A hard link that is accepted overwrites what stands at its place. -/
theorem unpackMember_overwrites {names : List Name} {counted : Bool}
    (hw : Inside L t₀ cwd top w) (he : EmptyDir t₀ cwd dest top) (hk : m.kind = .hardLink)
    (hnames : m.path.normalize?.bind (belowTop? root) = some names) (hne : names ≠ [])
    (hgoes : (unpackMember root dest m).run.Goes o w (.ok counted) tr w') :
    ∃ target below, m.target = some target ∧
      target.normalize?.bind (belowTop? root) = some below ∧
      counted = true ∧ Overwrites w.tree w'.tree (top ++ below) (top ++ names) := by
  have hplain := isPlain_of_below hnames
  obtain ⟨all, hnorm, hstrip⟩ := Option.bind_eq_some_iff.mp hnames
  obtain ⟨n, ns, rfl⟩ := List.exists_cons_of_ne_nil hne
  simp only [unpackMember, hnorm, hstrip] at hgoes
  rcases hgoes.of_attempt_bind with ⟨e, he', -⟩ | ⟨met, w₁, tr₁, more, hlook, hgoes₁, -⟩
  · contradiction
  obtain ⟨hw₁, htree₁, hu⟩ := looked_of_goes hw he hplain hlook
  cases met with
  | true => exact absurd hgoes₁.of_pure.1 (by simp)
  | false =>
      rcases hgoes₁.of_attempt_bind with ⟨e, he', -⟩ | ⟨linked, w₂, tr₂, more,
        hcheck, hgoes₂, -⟩
      · contradiction
      obtain ⟨target, below, htarget, hbelow, rfl, hw₂, htree₂, hu'⟩ :=
        linked_of_checkTarget hw₁ he hk hcheck
      have hu₂ : Unlinked w₂.tree top (n :: ns) := htree₂ ▸ htree₁ ▸ hu rfl
      rcases hgoes₂.of_attempt_bind with ⟨e, he', -⟩ | ⟨⟨⟩, w₃, tr₃, more, hmade, hgoes₃, -⟩
      · contradiction
      obtain ⟨hw₃, hnew⟩ := made_of_goes hw₂ he
        (fun x hx => hplain x ((List.dropLast_prefix _).subset hx)) hu₂.dropLast hmade
      -- The directories made on the way are no links, so what was
      -- seen of both ways still holds.
      have hu₃ := hnew.unlinked hu₂
      have hu₃' : Unlinked w₃.tree top below := hnew.unlinked (htree₂ ▸ hu')
      have hc : Clear w₃.tree top dest (dest / Path.ofNames (n :: ns)) (n :: ns) :=
        ⟨Path.extends_ofNames dest hplain, hne, hu₃.dropLast⟩
      rcases hgoes₃.of_attempt_bind with ⟨e, he', -⟩ | ⟨⟨⟩, w₄, tr₄, more, hlink, hrest, -⟩
      · contradiction
      obtain ⟨hcounted, -, rfl⟩ := hrest.of_pure
      refine ⟨target, below, htarget, hbelow, Except.ok.inj hcounted, ?_⟩
      have hext := Path.extends_ofNames dest (isPlain_of_below hbelow)
      by_cases hnil : below = []
      · subst hnil
        exact absurd hlink (not_hardLink_top hw₃ he hext (Path.steps_join_nil he.named) hc)
      · have hover := hardLink_overwrites hw₃ he ⟨hext, hnil, hu₃'.dropLast⟩ hu₃' hc hu₃ hlink
        rw [← htree₁, ← htree₂]
        exact hover.of_newDirs hnew

/-! ### A whole archive -/

theorem unpackAll_append (root dest : Path) (count : Nat) (ms ms' : List Member) :
    unpackAll root dest count (ms ++ ms') =
      unpackAll root dest count ms >>= fun count => unpackAll root dest count ms' := by
  induction ms generalizing count with
  | nil => rfl
  | cons m ms ih =>
      rw [List.cons_append, unpackAll, unpackAll, LawfulMonad.bind_assoc]
      congr 1
      funext counted
      cases counted with
      | true => exact ih _
      | false => exact ih _

theorem inside_of_unpackAll {count : Nat} {ms : List Member} {res : Except SourceError Nat}
    (h : w.HasEmptyDir dest top)
    (hgoes : (unpackAll root dest count ms).run.Goes o w res tr w') :
    Inside (fun _ _ => True) w.tree w.cwd top w' := by
  have hrun : (unpackAll root dest count ms).run.Amid o (fun _ => Eq)
      (fun _ => Permits (fun _ _ => True) (Inside (fun _ _ => True) w.tree w.cwd top) top dest)
      (fun _ _ => Inside (fun _ _ => True) w.tree w.cwd top) [] w :=
    amid_unpackAll (shelter_inside (emptyDir_of_hasEmptyDir h)) steady_alone
      (inside_of_hasEmptyDir h) fun _ _ _ => trivial
  exact hgoes.at_end hrun.throughout

/-- **What a hard link does.** Wherever it stands in an archive that is accepted: its place,
with all other names of the file that stood there, comes to hold what its source held, unless
that is the same file, which is emptied then. So it adds its own name and nothing else exactly
if the place was vacant, or there was nothing to lose. -/
theorem unpack_hardLink_iff (members : Members) (root : Path)
    (h : w.HasEmptyDir dest top) {count : Nat}
    (haccepted : ((unpack members root dest).run.run o w).1 = .ok count)
    {before after : List Member} (hlist : members.list = before ++ m :: after)
    (hk : m.kind = .hardLink) {names : List Name}
    (hnames : m.path.normalize?.bind (belowTop? root) = some names) (hne : names ≠ []) :
    let w₁ := ((unpackAll root dest 0 before).run.run o w).2
    let w₂ := ((unpackMember root dest m).run.run o w₁).2
    ∃ target below k, m.target = some target ∧
      target.normalize?.bind (belowTop? root) = some below ∧
      ((unpack members root dest).run.run o w).2 =
        ((unpackAll root dest k after).run.run o w₂).2 ∧
      Overwrites w₁.tree w₂.tree (top ++ below) (top ++ names) ∧
      (OnlyAdds w₁.tree w₂.tree (top ++ below) (top ++ names) ↔
        w₁.tree.Harmless (top ++ below) (top ++ names)) := by
  intro w₁ w₂
  have he := emptyDir_of_hasEmptyDir h
  obtain ⟨w₃, hw₃⟩ : ∃ w₃, ((unpack members root dest).run.run o w).2 = w₃ := ⟨_, rfl⟩
  have hgoes : (unpack members root dest).run.Goes o w (.ok count) _ w₃ :=
    ⟨Prod.ext haccepted hw₃, rfl⟩
  rw [hw₃]
  rw [unpack] at hgoes
  rcases hgoes.of_attempt_bind with ⟨e, he', -⟩ | ⟨all, w', tr, more, hall, hrest, -⟩
  · contradiction
  -- What follows the members is at most a complaint about a damaged archive.
  obtain rfl : w₃ = w' := by
    cases hdamaged : members.damaged with
    | true =>
        simp only [hdamaged, if_true] at hrest
        exact absurd hrest.of_pure.1 (by simp)
    | false =>
        simp only [hdamaged, Bool.false_eq_true, if_false] at hrest
        exact hrest.of_pure.2.2
  rw [hlist, unpackAll_append] at hall
  rcases hall.of_attempt_bind with ⟨e, he', -⟩ | ⟨k, w₁', tr₁, more₁, hbefore, hgoes₁, -⟩
  · contradiction
  obtain rfl : w₁' = w₁ := (congrArg Prod.snd hbefore.1).symm
  have hw₁ := inside_of_unpackAll h hbefore
  rw [unpackAll] at hgoes₁
  rcases hgoes₁.of_attempt_bind with ⟨e, he', -⟩ | ⟨counted, w₂', tr₂, more₂,
    hmember, hafter, -⟩
  · contradiction
  obtain rfl : w₂' = w₂ := (congrArg Prod.snd hmember.1).symm
  obtain ⟨target, below, htarget, hbelow, rfl, hover⟩ :=
    unpackMember_overwrites hw₁ he hk hnames hne hmember
  exact ⟨target, below, k + 1, htarget, hbelow, (congrArg Prod.snd hafter.1).symm, hover,
    hover.onlyAdds_iff⟩

def linkedTwice : Members where
  list := [
    ⟨"R/a", .file, none, some 0o644, [7], true⟩,
    ⟨"R/b", .hardLink, some "R/a", some 0o644, [], true⟩,
    ⟨"R/b", .hardLink, some "R/a", some 0o644, [], true⟩]
  damaged := false

def linkedOnce : World Unit :=
  ((unpackAll "R" "/d" 0 (linkedTwice.list.take 2)).run.run silent
    (World.fresh bareDir [] .empty 1 ())).2

theorem node?_linkedOnce : linkedOnce.tree.node? [[0x64], [0x61]] = some (.file 0) ∧
    linkedOnce.tree.node? [[0x64], [0x62]] = some (.file 0) ∧
    linkedOnce.tree.held? [[0x64], [0x61]] = some [7] := by
  refine ⟨?_, ?_, ?_⟩
  · cbv
  · cbv
  · cbv

/-- Such an archive is accepted, and the content of the file is lost. -/
theorem unpack_hardLink_iff_linkedTwice :
    let w := World.fresh bareDir [] .empty 1 ()
    let again : Member := ⟨"R/b", .hardLink, some "R/a", some 0o644, [], true⟩
    let t' := ((unpackMember "R" "/d" again).run.run silent linkedOnce).2.tree
    w.HasEmptyDir "/d" [[0x64]] ∧ ((unpack linkedTwice "R" "/d").run.run silent w).1 = .ok 3 ∧
      linkedOnce.tree.held? [[0x64], [0x61]] = some [7] ∧ t'.held? [[0x64], [0x61]] = some [] ∧
      ¬ OnlyAdds linkedOnce.tree t' [[0x64], [0x61]] [[0x64], [0x62]] := by
  intro w again t'
  have h : w.HasEmptyDir "/d" [[0x64]] := hasEmptyDir_d (by decide) (by decide)
  have haccepted : ((unpack linkedTwice "R" "/d").run.run silent
      (World.fresh bareDir [] .empty 1 ())).1 = .ok 3 := by cbv
  obtain ⟨ha, hb, hheld⟩ := node?_linkedOnce
  have hone : linkedOnce.tree.OneFile [[0x64], [0x61]] [[0x64], [0x62]] := ⟨0, ha, hb⟩
  have hlist : linkedTwice.list = linkedTwice.list.take 2 ++ again :: [] := rfl
  have hnames : again.path.normalize?.bind (belowTop? "R") = some [[0x62]] := by decide
  obtain ⟨target, below, -, htarget, hbelow, -, hover, hiff⟩ :=
    unpack_hardLink_iff linkedTwice "R" h haccepted hlist rfl hnames (by simp)
  obtain rfl : Path.ofString "R/a" = target := Option.some.inj htarget
  have hnamed : (Path.ofString "R/a").normalize?.bind (belowTop? "R") = some [[0x61]] := by
    decide
  obtain rfl : [[0x61]] = below := Option.some.inj (hnamed.symm.trans hbelow)
  refine ⟨h, haccepted, hheld, hover.onto_itself hone _ hone, fun hadds => ?_⟩
  have hlost : linkedOnce.tree.held? [[0x64], [0x61]] = some [] :=
    (hiff.mp hadds).onto_itself hone
  rw [hheld] at hlost
  contradiction

end Archive

end LlvmBootstrap
