import LlvmBootstrap.Proofs.Archive.Confinement
import LlvmBootstrap.Proofs.Path.Swapped

/-!
Unpacking into one directory and into another one beside it whose name is as long: the programs
make the same calls, each on the paths of its own directory. In an empty directory each they
come to the same result and leave the same.
-/

namespace LlvmBootstrap

namespace Program

variable {α β ε ε' : Type} {d d' : Path} {p p' : Program α}

/-- Two programs that look and change in step, the one below `d` as
the other does below `d'`. -/
inductive Shifted (d d' : Path) : Program α → Program α → Prop
  | done (a : α) : Shifted d d' (.done a) (.done a)
  | look {follow : Bool} {q q' : Path} {next next' : Except Errno ObjectKind → Program α}
      (hq : Path.Shifted d d' q q') (h : ∀ r, Shifted d d' (next r) (next' r)) :
      Shifted d d' (.call (.look follow q) next) (.call (.look follow q') next')
  | change {c c' : Change} {next next' : Except Errno Unit → Program α}
      (hc : c.Shifted d d' c') (h : ∀ r, Shifted d d' (next r) (next' r)) :
      Shifted d d' (.call (.change c) next) (.call (.change c') next')

namespace Shifted

theorem bind {f f' : α → Program β} (h : Shifted d d' p p')
    (hf : ∀ a, Shifted d d' (f a) (f' a)) :
    Shifted d d' (p >>= f) (p' >>= f') := by
  induction h with
  | done a => exact hf a
  | look hq _ ih => exact .look hq ih
  | change hc _ ih => exact .change hc ih

theorem attempt_bind {x x' : Attempt ε α} {f f' : α → Attempt ε β}
    (h : Shifted d d' x.run x'.run) (hf : ∀ a, Shifted d d' (f a).run (f' a).run) :
    Shifted d d' (x >>= f).run (x' >>= f').run := by
  rw [ExceptT.run_bind, ExceptT.run_bind]
  refine h.bind fun res => ?_
  cases res with
  | error e => exact .done _
  | ok a => exact hf a

theorem adapt {x x' : Attempt ε α} (h : Shifted d d' x.run x'.run) (f : ε → ε') :
    Shifted d d' (x.adapt f).run (x'.adapt f).run := by
  rw [run_adapt, run_adapt]
  exact h.bind fun _ => .done _

theorem lift_bind {f f' : α → Attempt ε β} (h : Shifted d d' p p')
    (hf : ∀ a, Shifted d d' (f a).run (f' a).run) :
    Shifted d d' ((liftM p : Attempt ε α) >>= f).run
      ((liftM p' : Attempt ε α) >>= f').run := by
  induction h with
  | done a => exact hf a
  | look hq _ ih => exact .look hq ih
  | change hc _ ih => exact .change hc ih

theorem isDir {q q' : Path} (hq : Path.Shifted d d' q q') :
    Shifted d d' (Program.isDir q) (Program.isDir q') := by
  refine .look hq fun r => ?_
  rcases r with e | (_ | _ | _) <;> exact .done _

theorem unlessDir {q q' : Path} (hq : Path.Shifted d d' q q') (e : ε) :
    Shifted d d' (do if ← Program.isDir q then return () else throw e : Attempt ε Unit).run
      (do if ← Program.isDir q' then return () else throw e : Attempt ε Unit).run := by
  refine lift_bind (isDir hq) fun b => ?_
  cases b <;> exact .done _

theorem makeDir {q q' : Path} (hq : Path.Shifted d d' q q') :
    Shifted d d' (Program.makeDir q).run (Program.makeDir q').run := by
  refine .change (.mkdir hq) fun r => ?_
  cases r with
  | ok _ => exact .done _
  | error e => exact unlessDir hq e

theorem makeDirsFrom {q q' : Path} {above above' : List Path} (hq : Path.Shifted d d' q q')
    (h : List.Forall₂ (Path.Shifted d d') above above') :
    Shifted d d' (Program.makeDirsFrom q above).run (Program.makeDirsFrom q' above').run := by
  induction h generalizing q q' with
  | nil => exact makeDir hq
  | cons hparent _ ih =>
      rw [Program.makeDirsFrom, Program.makeDirsFrom]
      refine .change (.mkdir hq) fun r => ?_
      cases r with
      | ok _ => exact .done _
      | error e =>
          cases e with
          | notFound => exact attempt_bind (ih hparent) fun _ => makeDir hq
          | _ => exact unlessDir hq _

end Shifted

end Program

namespace Archive

open LlvmBootstrap.Tree Program
open LlvmBootstrap.Path (Interchange IsPlain Swapped)

variable {d d' p p' : Path} {x x' : Name} {base : List Component}

/-! ### The same below either directory -/

theorem shifted_meetsLink {ns : List Name} (hx : Interchange x x')
    (hd : ∀ q q', Swapped base x x' q q' → Path.Shifted d d' q q') (hns : ∀ n ∈ ns, IsPlain n)
    (h : Swapped base x x' p p') (hlast : p.bytes.getLast? ≠ some Path.slash)
    (hlast' : p'.bytes.getLast? ≠ some Path.slash) :
    Program.Shifted d d' (meetsLink p ns).run (meetsLink p' ns).run := by
  induction ns generalizing p p' with
  | nil => exact .done _
  | cons n ns ih =>
      have hn := hns n (List.mem_cons_self ..)
      have hentry := h.entry hx hn hlast hlast'
      rw [meetsLink, meetsLink]
      refine .look (hd _ _ hentry) fun r => ?_
      have hmore : Program.Shifted d d' (meetsLink (p / (⟨n⟩ : Path)) ns).run
          (meetsLink (p' / (⟨n⟩ : Path)) ns).run :=
        ih (fun m hm => hns m (List.mem_cons_of_mem _ hm)) hentry (Path.getLast?_entry p hn)
          (Path.getLast?_entry p' hn)
      rcases r with e | (_ | _ | _)
      · cases e <;> exact .done _
      · exact hmore
      · exact hmore
      · exact .done _

theorem shifted_replacing {c c' : Change} (hp : Path.Shifted d d' p p')
    (hc : c.Shifted d d' c') :
    Program.Shifted d d' (replacing p c).run (replacing p' c').run := by
  have hagain : Program.Shifted d d' (change c).run (change c').run :=
    .change hc fun _ => .done _
  rw [replacing, replacing]
  refine .change hc fun r => ?_
  rcases r with e | _
  · cases e with
    | «exists» =>
        refine .change (.unlink hp) fun r => ?_
        rcases r with e | _
        · cases e with
          | notFound => exact hagain
          | _ => exact .done _
        · exact hagain
    | _ => exact .done _
  · exact .done _

theorem shifted_setMode (m : Tar.Member) (hp : Path.Shifted d d' p p') :
    Program.Shifted d d' (setMode m p).run (setMode m p').run := by
  rw [setMode, setMode]
  cases m.mode with
  | none => exact .done _
  | some mode => exact .change (.chmod hp _) fun _ => .done _

theorem shifted_makeMemberDir (hp : Path.Shifted d d' p p') :
    Program.Shifted d d' (makeMemberDir p).run (makeMemberDir p').run := by
  rw [makeMemberDir, makeMemberDir]
  refine .change (.mkdir hp) fun r => ?_
  rcases r with e | _
  · cases e with
    | «exists» =>
        refine .look hp fun r => ?_
        rcases r with e | (_ | _ | _) <;> exact .done _
    | _ => exact .done _
  · exact .done _

theorem shifted_makeMember (m : Tar.Member) (hp : Path.Shifted d d' p p') :
    Program.Shifted d d' (makeMember m p).run (makeMember m p').run := by
  rw [makeMember, makeMember]
  cases m.kind with
  | metadata => exact .done _
  | hardLink => exact .done _
  | directory =>
      exact ((shifted_makeMemberDir hp).attempt_bind fun _ => shifted_setMode m hp).adapt _
  | symlink =>
      dsimp only
      cases m.target with
      | none => exact .done _
      | some target =>
          dsimp only
          split
          · exact .done _
          · exact (shifted_replacing hp (.symlink hp target)).adapt _
  | file =>
      refine ((shifted_replacing hp (.create hp m.content)).adapt _).attempt_bind fun _ => ?_
      split
      · exact .done _
      · exact (shifted_setMode m hp).adapt _

theorem shifted_makeHardLink {src src' : Path} (hsrc : Path.Shifted d d' src src')
    (hp : Path.Shifted d d' p p') :
    Program.Shifted d d' (makeHardLink src p).run (makeHardLink src' p').run := by
  rw [makeHardLink, makeHardLink]
  refine .change (.link hsrc hp) fun r => ?_
  rcases r with e | _
  · exact Program.Shifted.adapt (.change (.copy hsrc hp) fun _ => .done _) _
  · exact .done _

section

variable {r : Path} {ns : List Name} (hx : Interchange x x') (hns : ∀ n ∈ ns, IsPlain n)

include hx hns

theorem shifted_ofNames : Path.Shifted (r / (⟨x⟩ : Path)) (r / (⟨x'⟩ : Path))
    (r / (⟨x⟩ : Path) / Path.ofNames ns) (r / (⟨x'⟩ : Path) / Path.ofNames ns) :=
  Path.shifted_of_swapped hx rfl rfl (Path.swapped_ofNames hx hns)

theorem shifted_looked : Program.Shifted (r / (⟨x⟩ : Path)) (r / (⟨x'⟩ : Path))
    (orFail (meetsLink (r / (⟨x⟩ : Path)) ns)).run
    (orFail (meetsLink (r / (⟨x'⟩ : Path)) ns)).run :=
  (shifted_meetsLink hx (fun _ _ => Path.shifted_of_swapped hx rfl rfl) hns
    (Path.swapped_entry hx rfl rfl)
    (Path.getLast?_entry r hx.plain) (Path.getLast?_entry r hx.plain')).adapt _

theorem shifted_makeDirs : Program.Shifted (r / (⟨x⟩ : Path)) (r / (⟨x'⟩ : Path))
    (makeDirs (r / (⟨x⟩ : Path) / Path.ofNames ns)).run
    (makeDirs (r / (⟨x'⟩ : Path) / Path.ofNames ns)).run := by
  have hne : ∀ y, IsPlain y → (r / (⟨y⟩ : Path) / Path.ofNames ns).components ≠ [] := by
    intro y hy
    rw [Path.components_entry_ofNames r hy hns]
    simp
  rw [makeDirs, makeDirs, if_neg (hne x hx.plain), if_neg (hne x' hx.plain')]
  exact .makeDirsFrom (shifted_ofNames hx hns) (Path.shifted_ancestors r hx hns)

end

section

variable {r : Path} (hx : Interchange x x') (top : Path)

include hx

/-- What a link member is checked for is the same, and where a hard link leads is shifted. -/
theorem shifted_checkTarget_bind {β : Type} {names : List Name} {m : Tar.Member}
    {f f' : Option Path → Attempt SourceError β}
    (hnone : Program.Shifted (r / (⟨x⟩ : Path)) (r / (⟨x'⟩ : Path)) (f none).run (f' none).run)
    (hsome : ∀ src src', Path.Shifted (r / (⟨x⟩ : Path)) (r / (⟨x'⟩ : Path)) src src' →
      Program.Shifted (r / (⟨x⟩ : Path)) (r / (⟨x'⟩ : Path)) (f (some src)).run
        (f' (some src')).run) :
    Program.Shifted (r / (⟨x⟩ : Path)) (r / (⟨x'⟩ : Path))
      (checkTarget top (r / (⟨x⟩ : Path)) names m >>= f).run
      (checkTarget top (r / (⟨x'⟩ : Path)) names m >>= f').run := by
  rw [checkTarget, checkTarget]
  cases m.kind with
  | symlink =>
      simp only [targetOf]
      cases m.target with
      | none => exact .done _
      | some target =>
          simp only [pure_bind]
          -- What a symbolic link may point at depends on the archive alone,
          -- and nothing is looked at for it.
          cases (linkedNames? names target).bind (belowTop? top) with
          | none => exact .done _
          | some inner => exact hnone
  | hardLink =>
      simp only [targetOf]
      cases m.target with
      | none => exact .done _
      | some target =>
          simp only [pure_bind]
          cases hl : target.normalize?.bind (belowTop? top) with
          | none => exact .done _
          | some below =>
              have hplain := isPlain_of_below hl
              rw [LawfulMonad.bind_assoc, LawfulMonad.bind_assoc]
              refine (shifted_looked hx hplain).attempt_bind fun met => ?_
              cases met with
              | true => exact .done _
              | false => exact hsome _ _ (shifted_ofNames hx hplain)
  | _ => exact hnone

theorem shifted_unpackMember (m : Tar.Member) :
    Program.Shifted (r / (⟨x⟩ : Path)) (r / (⟨x'⟩ : Path))
      (unpackMember top (r / (⟨x⟩ : Path)) m).run
      (unpackMember top (r / (⟨x'⟩ : Path)) m).run := by
  rw [unpackMember, unpackMember]
  cases hnames : m.path.normalize? with
  | none => exact .done _
  | some names =>
      simp only
      cases hbelow : belowTop? top names with
      | none => exact .done _
      | some below =>
          cases below with
          | nil => exact .done _
          | cons n ns =>
              have hplain :=
                isPlain_of_below (Option.bind_eq_some_iff.mpr ⟨names, hnames, hbelow⟩)
              have hupper : ∀ y ∈ (n :: ns).dropLast, IsPlain y :=
                fun y hy => hplain y ((List.dropLast_prefix _).subset hy)
              have hplace := shifted_ofNames (r := r) hx hplain
              refine (shifted_looked hx hplain).attempt_bind fun met => ?_
              cases met with
              | true => exact .done _
              | false =>
                  refine shifted_checkTarget_bind hx top ?_ fun src src' hsrc => ?_
                  · refine ((shifted_makeDirs hx hupper).adapt _).attempt_bind fun _ => ?_
                    exact (shifted_makeMember m hplace).attempt_bind fun _ => .done _
                  · refine ((shifted_makeDirs hx hupper).adapt _).attempt_bind fun _ => ?_
                    exact (shifted_makeHardLink hsrc hplace).attempt_bind fun _ => .done _

theorem shifted_unpackAll (count : Nat) (ms : List Tar.Member) :
    Program.Shifted (r / (⟨x⟩ : Path)) (r / (⟨x'⟩ : Path))
      (unpackAll top (r / (⟨x⟩ : Path)) count ms).run
      (unpackAll top (r / (⟨x'⟩ : Path)) count ms).run := by
  induction ms generalizing count with
  | nil => exact .done _
  | cons m ms ih =>
      rw [unpackAll, unpackAll]
      refine (shifted_unpackMember hx top m).attempt_bind fun counted => ?_
      cases counted with
      | true => exact ih _
      | false => exact ih _

/-- Unpacking into an entry of a directory and unpacking into an entry of another name. -/
theorem shifted_unpack (members : Tar.Members) :
    Program.Shifted (r / (⟨x⟩ : Path)) (r / (⟨x'⟩ : Path))
      (unpack members top (r / (⟨x⟩ : Path))).run
      (unpack members top (r / (⟨x'⟩ : Path))).run := by
  rw [unpack, unpack]
  refine (shifted_unpackAll hx top 0 members.list).attempt_bind fun count => ?_
  cases members.damaged <;> exact .done _

end

/-! ### Both runs -/

variable {σ σ' α : Type} {o : Outside σ} {o' : Outside σ'} {w₀ w : World σ} {w₀' w' : World σ'}
  {L : List Name → Path → Prop} {top top' : Location} {dest dest' : Path}
  {prog prog' : Program α} {Q : α → World σ → Prop}

/-- Shifted programs go in step in their own directories. -/
theorem InStep.run_eq (he : EmptyDir w₀.tree w₀.cwd dest top)
    (he' : EmptyDir w₀'.tree w₀'.cwd dest' top') (hs : Program.Shifted dest dest' prog prog')
    (hrun : prog.Throughout o (Permits L (Inside L w₀.tree w₀.cwd top) top dest) Q w)
    (h : InStep L w₀ top w₀' top' w w') :
    (prog.run o w).1 = (prog'.run o' w').1 ∧
      InStep L w₀ top w₀' top' (prog.run o w).2 (prog'.run o' w').2 := by
  induction hs generalizing w w' with
  | done a => exact ⟨rfl, h⟩
  | @look follow q q' next next' hq _ ih =>
      have hanswer : (w.perform o (.look follow q)).1 = (w'.perform o' (.look follow q')).1 :=
        h.look he he' hrun.1 hq
      have hcalls : (Program.call (.look follow q') next').run o' w' =
          (next' (w.perform o (.look follow q)).1).run o' w' := by
        rw [hanswer]
        rfl
      rw [hcalls]
      exact ih _ hrun.2 h
  | @change c c' next next' hc _ ih =>
      obtain ⟨hanswer, hnext⟩ : (w.perform o (.change c)).1 = (w'.perform o' (.change c')).1 ∧
          InStep L w₀ top w₀' top' (w.perform o (.change c)).2
            (w'.perform o' (.change c')).2 :=
        h.change he he' hrun.1 hc
      have hcalls : (Program.call (.change c') next').run o' w' =
          (next' (w.perform o (.change c)).1).run o' (w'.perform o' (.change c')).2 := by
        rw [hanswer]
        rfl
      rw [hcalls]
      exact ih _ hrun.2 hnext

/-- What an archive is unpacked to does not depend on the name of the directory it is unpacked
into, as long as the directory is empty: the result is the same and so is what is left. -/
theorem unpack_elsewhere (o : Outside σ) (o' : Outside σ') {r : Path} {x x' : Name}
    (hx : Interchange x x') (members : Tar.Members) (root : Path)
    (h : w.HasEmptyDir (r / (⟨x⟩ : Path)) top) (h' : w'.HasEmptyDir (r / (⟨x'⟩ : Path)) top') :
    let p := (unpack members root (r / (⟨x⟩ : Path))).run
    let p' := (unpack members root (r / (⟨x'⟩ : Path))).run
    (p.run o w).1 = (p'.run o' w').1 ∧
      Alike (fun _ _ => True) top w.tree (p.run o w).2.tree top' w'.tree
        (p'.run o' w').2.tree := by
  intro p p'
  have he := emptyDir_of_hasEmptyDir h
  have he' := emptyDir_of_hasEmptyDir h'
  have hrun : p.Throughout o
      (Permits (fun _ _ => True) (Inside (fun _ _ => True) w.tree w.cwd top) top
        (r / (⟨x⟩ : Path)))
      (fun _ w' => Inside (fun _ _ => True) w.tree w.cwd top w') w :=
    throughout_unpack members root (inside_of_hasEmptyDir h) he fun _ _ _ => trivial
  have hstart : InStep (fun _ _ => True) w top w' top' w w' := inStep_of_hasEmptyDir h h'
  obtain ⟨heq, hs⟩ : (p.run o w).1 = (p'.run o' w').1 ∧
      InStep (fun _ _ => True) w top w' top' (p.run o w).2 (p'.run o' w').2 :=
    hstart.run_eq he he' (shifted_unpack hx root members) hrun
  exact ⟨heq, hs.alike⟩

end Archive

end LlvmBootstrap
