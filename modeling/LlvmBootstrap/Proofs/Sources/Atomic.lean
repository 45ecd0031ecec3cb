import Mathlib
import LlvmBootstrap.Proofs.Sources.Course

/-!
A fetch is all or nothing, also when it is cut off after any of its calls: the sources are as
they were or complete, and only the last change makes them complete. This rests on one thing
that a fetch does not see to. The path of the root may be one along which directories are made
in the root itself, and then it may be the directory of the sources that is made, with nothing
in it.
-/

namespace LlvmBootstrap

namespace Sources

open Archive LlvmBootstrap.Tree Program

variable {σ : Type} {o : Outside σ} {a : SourceArchive} {r : Root} {w m w' : World σ}
  {top : Location} {k : Nat}

def isFetched (r : Root) (w : World σ) : Bool := w.tree.isDir w.cwd r.sources

theorem run_isComplete (o : Outside σ) (r : Root) (w : World σ) :
    (r.record.isComplete .fetch).run o w = (isFetched r w, w) := by
  have hlook : (isDir r.sources).Throughout o (fun _ _ => True)
      (fun b w' => w' = w ∧ b = isFetched r w) w := throughout_isDir trivial
  obtain ⟨hw, hb⟩ := hlook.at_end
  exact Prod.ext hb hw

/-- The world once a fetch has made the directory of the root, with which it begins, unless the
sources are there or are packed in no way that it knows. -/
def rootMade (o : Outside σ) (a : SourceArchive) (r : Root) (w : World σ) : World σ :=
  if isFetched r w = true ∨ Format.ofUrl? a.url = none then w
  else ((makeDirs r.path).run.run o w).2

/-- Nothing has been made in the root on the way from `w` to `m`, and
the sources have not appeared. -/
structure RootOnly (r : Root) (w m : World σ) : Prop where
  inside : ∀ top, Reaches m.tree m.cwd r.path top → ∀ rel, rel ≠ [] →
    m.tree.node? (top ++ rel) = w.tree.node? (top ++ rel)
  sources : isFetched r m = isFetched r w

def fetchPoint (o : Outside σ) (a : SourceArchive) (r : Root) (w : World σ) (n : Nat) :
    World σ :=
  ((fetch a r r.record).run.after o n w).2

def fetched (o : Outside σ) (a : SourceArchive) (r : Root) (w : World σ) :
    Except SourceError Fetched × World σ :=
  (fetch a r r.record).run.run o w

structure SourcesKept (r : Root) (top : Location) (w w' : World σ) : Prop where
  nodes : ∀ rel, w'.tree.node? (top ++ Root.sourceName :: rel) =
    w.tree.node? (top ++ Root.sourceName :: rel)
  bodies : ∀ id b, w.tree.body? id = some b → w'.tree.body? id = some b
  isFetched : isFetched r w' = isFetched r w

/-- Nothing in the root is different from `w`, but perhaps its entry for the sources, and
nothing else besides except that the root or a directory above it may have been made. -/
structure OnlySources (r : Root) (top : Location) (w w' : World σ) : Prop where
  inside : ∀ rel, rel ≠ [] → rel.head? ≠ some Root.sourceName →
    w'.tree.node? (top ++ rel) = w.tree.node? (top ++ rel)
  bodies : ∀ id b, w.tree.body? id = some b → w'.tree.body? id = some b
  grown : ∃ t, Grown w.cwd (r.path :: ancestors r.path) w.tree t ∧
    ∀ loc, isWithin (top ++ [Root.sourceName]) loc = false → w'.tree.node? loc = t.node? loc

structure AllOrNothing (o : Outside σ) (a : SourceArchive) (r : Root)
    (w : World σ) : Prop where
  /-- At each point the sources are as they were, or complete. -/
  point : ∀ n top, Reaches (fetchPoint o a r w n).tree w.cwd r.path top →
    SourcesKept r top w (fetchPoint o a r w n) ∨
      (∃ k, HoldsSources o a (rootMade o a r w) top k (fetchPoint o a r w n).tree) ∧
        isFetched r (fetchPoint o a r w n) = true
  /-- Only moving them to their place makes them appear. -/
  marker : ∀ n, isFetched r (fetchPoint o a r w n) = false →
    isFetched r (fetchPoint o a r w (n + 1)) = true →
    ∃ staging, ((fetch a r r.record).run.after o n w).1.next? =
      some (.change (.renameDir staging r.sources))
  /-- A fetch that fails leaves nothing behind but the root. -/
  failed : ∀ e, (fetched o a r w).1 = .error e →
    isFetched r (fetched o a r w).2 = false ∧
    (∃ t, Grown w.cwd (r.path :: ancestors r.path) w.tree t ∧
      Kept t (fetched o a r w).2.tree) ∧
    ∀ top, Reaches (fetched o a r w).2.tree w.cwd r.path top → ∀ rel, rel ≠ [] →
      (fetched o a r w).2.tree.node? (top ++ rel) = w.tree.node? (top ++ rel)
  /-- One that succeeds adds the sources and nothing else. -/
  succeeded : ∀ k, (fetched o a r w).1 = .ok (.unpacked k) →
    isFetched r (fetched o a r w).2 = true ∧
    ∃ top, Reaches (fetched o a r w).2.tree w.cwd r.path top ∧
      HoldsSources o a (rootMade o a r w) top k (fetched o a r w).2.tree ∧
      OnlySources r top w (fetched o a r w).2
  /-- One that finds the sources there changes nothing. -/
  already : (fetched o a r w).1 = .ok .already →
    isFetched r w = true ∧ (fetched o a r w).2.tree = w.tree

/-! ### A fetch that does nothing -/

theorem throughout_idle (hidle : isFetched r w = true ∨ Format.ofUrl? a.url = none) :
    (fetch a r r.record).run.Throughout o (fun w' _ => w.Still w') (fun res w' => w.Still w' ∧
      (res = .ok .already ∧ isFetched r w = true ∨
        (∃ e, res = .error e) ∧ isFetched r w = false))
      w := by
  have hstill : World.Still w w := ⟨rfl, rfl⟩
  rw [fetch]
  refine Throughout.attempt_lift_bind_iff.mpr
    ((throughout_isDir (p := r.sources) hstill).post ?_)
  rintro b w' ⟨hsame, hb⟩
  obtain rfl := hsame.symm
  cases b with
  | true => exact Throughout.attempt_call_bind_iff.mpr ⟨hstill, hstill, .inl ⟨rfl, hb.symm⟩⟩
  | false =>
      rcases hidle with hfetched | hformat
      · exact absurd (hb.trans hfetched) (by simp)
      · simp only [Bool.false_eq_true, if_false]
        rw [hformat]
        exact ⟨hstill, .inr ⟨⟨_, rfl⟩, hb.symm⟩⟩

theorem allOrNothing_of_idle (hidle : isFetched r w = true ∨ Format.ofUrl? a.url = none) :
    AllOrNothing o a r w := by
  have hrun := throughout_idle (o := o) hidle
  have hpoint : ∀ n, w.Still (fetchPoint o a r w n) := fun n =>
    hrun.at_points (fun _ _ hc => hc) (fun _ _ hq => hq.1) n
  -- Nothing but what the record has found is asked of a world, and
  -- the record looks at the tree.
  have hsame : ∀ {w'}, World.Still w w' → isFetched r w' = isFetched r w := by
    rintro w' ⟨htree, hcwd⟩
    rw [isFetched, isFetched, htree, hcwd]
  obtain ⟨hend, hres⟩ := hrun.at_end
  refine ⟨fun n top _ => .inl ?_, fun n hfalse htrue => ?_, fun e he => ?_, fun k hk => ?_, ?_⟩
  · have htree := (hpoint n).1
    exact ⟨fun rel => by rw [htree], fun id b hb => by rw [htree, hb], hsame (hpoint n)⟩
  · rw [hsame (hpoint n)] at hfalse
    rw [hsame (hpoint (n + 1)), hfalse] at htrue
    contradiction
  · rcases hres with ⟨hok, -⟩ | ⟨-, hfalse⟩
    · exact absurd (hok.symm.trans he) nofun
    · refine ⟨(hsame hend).trans hfalse, ⟨w.tree, .refl .., ?_⟩, fun top _ rel _ => ?_⟩
      · rw [fetched, hend.1]
        exact Kept.refl _
      · rw [fetched, hend.1]
  · rcases hres with ⟨hok, -⟩ | ⟨⟨e, he⟩, -⟩
    · exact absurd (hok.symm.trans hk) nofun
    · exact absurd (he.symm.trans hk) nofun
  · intro hok
    rcases hres with ⟨-, htrue⟩ | ⟨⟨e, he⟩, -⟩
    · exact ⟨htrue, hend.1⟩
    · exact absurd (he.symm.trans hok) nofun

/-! ### A fetch that has something to do -/

/-- Making a staging directory does not make the sources appear, since no link leads to it. -/
theorem isFetched_of_before (hm : m.IsSound) (hd : o.DrawsFresh w.tree)
    (hgrow : MoreDirs (r.path :: ancestors r.path) w m) (h : Before o r w m w')
    (hf : isFetched r w' = true) : isFetched r m = true := by
  rcases h with ⟨-, hcwd, hgrown⟩ | ⟨top, x, hr, hdrawn, hcwd, hbeside⟩
  · rw [isFetched, ← hcwd] at hf
    exact isDir_mono hgrown.newDirs.routesKept hm.closed (dir_start hm.cwd _) hf
  · have hunnamed : ∀ loc target, m.tree.node? loc = some (.link target) →
        .name x ∉ steps target := by
      intro loc target ht
      obtain ⟨s, rfl⟩ := hdrawn.drawn
      rcases hgrow.2.newDirs.eq_or_dir ht with ht | ⟨mode, hmode⟩
      · exact hd.unnamed s loc target ht
      · contradiction
    have hlook : w'.tree.lookup m.cwd true r.sources = m.tree.lookup m.cwd true r.sources :=
      lookup_eq_of_hidden hr (hbeside.routesKept hm.closed) r.extends_sources hdrawn.ne_source
        hbeside.nodes hunnamed
    rw [isFetched, Tree.isDir, hcwd, hlook] at hf
    exact hf

theorem sourcesKept_of_before (hm : m.IsSound) (hd : o.DrawsFresh w.tree)
    (hgrow : MoreDirs (r.path :: ancestors r.path) w m) (honly : RootOnly r w m)
    (hinc : isFetched r w = false) (h : Before o r w m w')
    (hr : Reaches w'.tree w'.cwd r.path top) : SourcesKept r top w w' := by
  have hmarker : isFetched r w' = isFetched r w := by
    rw [hinc, ← Bool.not_eq_true]
    intro hf
    rw [← honly.sources, isFetched_of_before hm hd hgrow h hf] at hinc
    contradiction
  -- Either the way to the root is still being made, or there are staging directories in it.
  rcases h with ⟨⟨hcwd, hgrown⟩, hcwd', hgrown'⟩ | ⟨top', x, hr', hdrawn, hcwd, hbeside⟩
  · have hrm : Reaches m.tree m.cwd r.path top := by
      rw [hcwd']
      exact hr.mono hgrown'.newDirs.routesKept
    refine ⟨fun rel => ?_, fun id b hb => ?_, hmarker⟩
    · rw [hcwd] at hgrown'
      exact hgrown.node?_between hgrown' (honly.inside top hrm _ (List.cons_ne_nil _ _))
    · rw [Tree.body?, hgrown.newDirs.bodies]
      exact hb
  · have htop : top = top' := by
      rw [hcwd] at hr
      exact hr.unique (hr'.mono (hbeside.routesKept hm.closed))
    subst htop
    refine ⟨fun rel => ?_, fun id b hb => hbeside.bodies id b ?_, hmarker⟩
    · rw [hbeside.node?_other hdrawn.ne_source]
      exact honly.inside top hr' _ (List.cons_ne_nil _ _)
    · rw [Tree.body?, hgrow.2.newDirs.bodies]
      exact hb

theorem onlySources_of_after (hgrow : MoreDirs (r.path :: ancestors r.path) w m)
    (honly : RootOnly r w m) (h : After o a r m top k w') : OnlySources r top w w' where
  inside rel hne hhead := by
    rw [h.nodes]
    · exact honly.inside top h.root rel hne
    · obtain ⟨n, rest, rfl⟩ := List.exists_cons_of_ne_nil hne
      exact isWithin_sibling fun he => hhead (by rw [he]; rfl)
  bodies id b hb := by
    refine h.bodies id b ?_
    rw [Tree.body?, hgrow.2.newDirs.bodies]
    exact hb
  grown := ⟨m.tree, hgrow.2, h.nodes⟩

theorem rootMade_of_busy {format : Format} (hinc : isFetched r w = false)
    (hformat : Format.ofUrl? a.url = some format) :
    rootMade o a r w = ((makeDirs r.path).run.run o w).2 := by
  rw [rootMade, if_neg]
  simp [hinc, hformat]

/-- The root of a busy fetch when it has been made. -/
theorem isSound_rootMade (hw : w.IsSound) (hm : ((makeDirs r.path).run.run o w).2 = m) :
    m.IsSound ∧ MoreDirs (r.path :: ancestors r.path) w m := by
  obtain ⟨hend, hgrow⟩ := madeDir_rootMade hw hm
  exact ⟨hend.1, hgrow⟩

/-- Each point of a busy fetch is one before the sources are moved to
their place, or one after. -/
theorem before_or_after {p : Program (Except SourceError Fetched)}
    (hrun : p.Throughout o (Fetches o a r w m) (Outcome o a r w m) w) (n : Nat) :
    Before o r w m (p.after o n w).2 ∨ ∃ top k, After o a r m top k (p.after o n w).2 := by
  refine hrun.at_points (I := fun w' => Before o r w m w' ∨ ∃ top k, After o a r m top k w')
    (fun w' c hc => ?_) (fun res w' hres => ?_) n
  · cases hc with
    | aside h => exact .inl h
    | move h => exact .inl h
    | log h => exact .inr ⟨_, _, h⟩
    | removeAll h hnext => exact .inr ⟨_, _, h⟩
  · rcases res with e | ⟨⟩ | k
    · exact .inl hres.1
    · exact hres.elim
    · exact .inr (hres.imp fun top h => ⟨k, h⟩)

/-- Of the calls of a busy fetch only the one that moves the sources makes them appear. -/
theorem moves_of_appears {c : Call} (hm : m.IsSound) (hd : o.DrawsFresh w.tree)
    (hgrow : MoreDirs (r.path :: ancestors r.path) w m) (hinc : isFetched r m = false)
    (hc : Fetches o a r w m w' c) (hfalse : isFetched r w' = false)
    (htrue : isFetched r (w'.perform o c).2 = true) :
    ∃ staging, c = .change (.renameDir staging r.sources) := by
  cases hc with
  | aside h hc hmakes hnext =>
      rw [isFetched_of_before hm hd hgrow hnext htrue] at hinc
      contradiction
  | @move staging => exact ⟨staging, rfl⟩
  | log h => exact absurd (hfalse.symm.trans h.isDir) nofun
  | removeAll h hnext => exact absurd (hfalse.symm.trans h.isDir) nofun

theorem allOrNothing_of_rootOnly {format : Format} (hw : w.IsSound) (hd : o.DrawsFresh w.tree)
    (hinc : isFetched r w = false) (hformat : Format.ofUrl? a.url = some format)
    (hm : rootMade o a r w = m) (honly : RootOnly r w m) : AllOrNothing o a r w := by
  have hmade := (rootMade_of_busy hinc hformat).symm.trans hm
  obtain ⟨hsound, hgrow⟩ := isSound_rootMade hw hmade
  have hrun := throughout_fetch hw hd.plain hinc hformat hmade
  have hinc' : isFetched r m = false := honly.sources.trans hinc
  have hend : Outcome o a r w m (fetched o a r w).1 (fetched o a r w).2 := hrun.at_end
  refine ⟨fun n top hr => ?_, fun n => ?_, fun e he => ?_, fun k hk => ?_, fun hok => ?_⟩
  · rw [hm]
    rcases before_or_after hrun n with hbefore | ⟨top', k, hafter⟩
    · rw [← cwd_of_before hgrow hbefore] at hr
      exact .inl (sourcesKept_of_before hsound hd hgrow honly hinc hbefore hr)
    · rw [← hgrow.1, ← hafter.cwd] at hr
      obtain rfl := hr.unique hafter.reaches
      exact .inr ⟨⟨k, hafter.holds⟩, hafter.isDir⟩
  · refine hrun.at_steps
      (S := fun w' c w'' => isFetched r w' = false → isFetched r w'' = true →
        ∃ staging, c = some (.change (.renameDir staging r.sources))) ?_ ?_ n
    · intro w' c hc hfalse htrue
      obtain ⟨staging, rfl⟩ := moves_of_appears hsound hd hgrow hinc' hc hfalse htrue
      exact ⟨staging, rfl⟩
    · intro w' hfalse htrue
      rw [hfalse] at htrue
      contradiction
  · rw [he] at hend
    obtain ⟨hbefore, hcwd, hkept⟩ := hend
    refine ⟨?_, ⟨m.tree, hgrow.2, hkept⟩, fun top hr rel hne => ?_⟩
    · rw [← Bool.not_eq_true]
      intro hf
      rw [isFetched_of_before hsound hd hgrow hbefore hf] at hinc'
      contradiction
    · rw [hkept.nodes]
      refine honly.inside top ?_ rel hne
      rw [hgrow.1]
      exact hr.mono hkept.routesKept_symm
  · rw [hk] at hend
    obtain ⟨top, hafter⟩ := hend
    refine ⟨hafter.isDir, top, ?_, hm ▸ hafter.holds, onlySources_of_after hgrow honly hafter⟩
    rw [← hgrow.1, ← hafter.cwd]
    exact hafter.reaches
  · rw [hok] at hend
    exact hend.elim

/-! ### What a fetch rests on -/

/-- The points of a busy fetch while it makes the root. -/
theorem exists_points_of_makeDirs {format : Format} (hinc : isFetched r w = false)
    (hformat : Format.ofUrl? a.url = some format) :
    let p := (makeDirs r.path).run
    ∃ N₀ N, (p.after o N w).2 = (p.run o w).2 ∧ ∀ n, n ≤ N →
      fetchPoint o a r w (N₀ + n) = (p.after o n w).2 ∧
      ∀ c, (p.after o n w).1.next? = some c →
        ((fetch a r r.record).run.after o (N₀ + n) w).1.next? = some c := by
  intro p
  obtain ⟨f, hf, g, hg⟩ : ∃ f : Bool → Program (Except SourceError Fetched),
      (fetch a r r.record).run = r.record.isComplete .fetch >>= f ∧
      ∃ g, f false = p >>= g := by
    refine ⟨_, ExceptT.run_bind_lift _ _, ?_⟩
    simp only [Bool.false_eq_true, if_false]
    rw [hformat]
    simp only
    rw [ExceptT.run_bind, orFail, run_adapt, LawfulMonad.bind_assoc]
    exact ⟨_, rfl⟩
  obtain ⟨N₀, -, -, hrest⟩ := exists_after_bind o (r.record.isComplete .fetch) f w
  obtain ⟨N, hend, hpoints, -⟩ := exists_after_bind o p g w
  refine ⟨N₀, N, congrArg Prod.snd hend, fun n hn => ?_⟩
  have hafter : (fetch a r r.record).run.after o (N₀ + n) w =
      ((p.after o n w).1 >>= g, (p.after o n w).2) := by
    rw [hf, hrest, run_isComplete, hinc, hg]
    exact hpoints n hn
  rw [fetchPoint, hafter]
  exact ⟨rfl, fun c hc => next?_bind hc⟩

/-- If only the move makes the sources appear, making the root does not. -/
theorem isFetched_rootMade {format : Format} (hw : w.IsSound) (hinc : isFetched r w = false)
    (hformat : Format.ofUrl? a.url = some format)
    (hmarker : ∀ n, isFetched r (fetchPoint o a r w n) = false →
      isFetched r (fetchPoint o a r w (n + 1)) = true →
      ∃ staging, ((fetch a r r.record).run.after o n w).1.next? =
        some (.change (.renameDir staging r.sources))) :
    isFetched r ((makeDirs r.path).run.run o w).2 = false := by
  obtain ⟨N₀, N, hend, hpoints⟩ := exists_points_of_makeDirs (o := o) hinc hformat
  have hsteps := (throughout_makeDirs (o := o) (p := r.path) hw).at_steps
    (S := fun w' c w'' => (c = none → w'' = w') ∧
      ∀ c', c = some c' → Making (r.path :: ancestors r.path) c')
    (fun w' c hc => ⟨nofun, fun c' he => Option.some.inj he ▸ hc.2.2⟩) fun w' =>
      ⟨fun _ => rfl, nofun⟩
  -- Step by step while the way to the root is made: none of these calls is a
  -- move, so the sources do not appear.
  have hnone : ∀ n, n ≤ N → isFetched r ((makeDirs r.path).run.after o n w).2 = false := by
    intro n
    induction n with
    | zero => exact fun _ => hinc
    | succ n ih =>
        intro hn
        have hlast := ih (Nat.le_of_succ_le hn)
        obtain ⟨hpoint, hnext⟩ := hpoints n (Nat.le_of_succ_le hn)
        obtain ⟨hdone, hmaking⟩ := hsteps n
        rw [← Bool.not_eq_true]
        intro hf
        cases hc : ((makeDirs r.path).run.after o n w).1.next? with
        | none =>
            rw [hdone hc, hlast] at hf
            contradiction
        | some c =>
            rw [← hpoint] at hlast
            rw [← (hpoints (n + 1) hn).1] at hf
            obtain ⟨staging, hmove⟩ := hmarker _ hlast hf
            have hcall := hmaking c hc
            obtain rfl := Option.some.inj ((hnext c hc).symm.trans hmove)
            nomatch hcall
  rw [← hend]
  exact hnone N (Nat.le_refl N)

/-- Where making the root has not made a directory for the sources, it
has made nothing below it. -/
theorem node?_sources_of_not_isFetched {qs : List Path} (hm : m.IsSound)
    (hgrow : MoreDirs qs w m) (hr : Reaches m.tree m.cwd r.path top)
    (hinc : isFetched r m = false) (hp : r.sources.refusal? = none) (rel : List Name) :
    m.tree.node? (top ++ Root.sourceName :: rel) =
      w.tree.node? (top ++ Root.sourceName :: rel) := by
  have hnot : ∀ mode, m.tree.node? (top ++ [Root.sourceName]) ≠ some (.dir mode) := by
    intro mode hdir
    have htrue := (hr.entry r.extends_sources (by decide) hdir).isDir hp
    exact absurd (hinc.symm.trans htrue) nofun
  rcases hgrow.2.newDirs.nodes (top ++ Root.sourceName :: rel) with hsame | ⟨-, mode, hdir⟩
  · exact hsame
  · by_cases hrel : rel = []
    · subst hrel
      exact absurd hdir (hnot mode)
    · have hnone := hm.closed.node?_below hnot hrel
      rw [List.append_assoc] at hnone
      exact absurd (hnone.symm.trans hdir) nofun

theorem rootOnly_of_allOrNothing {format : Format} (hw : w.IsSound) (hd : o.DrawsFresh w.tree)
    (hinc : isFetched r w = false) (hformat : Format.ofUrl? a.url = some format)
    (hm : rootMade o a r w = m) (hall : AllOrNothing o a r w) : RootOnly r w m := by
  have hmade := (rootMade_of_busy hinc hformat).symm.trans hm
  obtain ⟨hsound, hgrow⟩ := isSound_rootMade hw hmade
  have hinc' : isFetched r m = false := hmade ▸ isFetched_rootMade hw hinc hformat hall.marker
  have hend : Outcome o a r w m (fetched o a r w).1 (fetched o a r w).2 :=
    (throughout_fetch hw hd.plain hinc hformat hmade).at_end
  refine ⟨fun top hr rel hne => ?_, hinc'.trans hinc.symm⟩
  cases hres : (fetched o a r w).1 with
  | error e =>
      rw [hres] at hend
      obtain ⟨-, hcwd, hkept⟩ := hend
      rw [← hkept.nodes]
      refine (hall.failed e hres).2.2 top ?_ rel hne
      rw [← hgrow.1]
      exact hr.mono hkept.routesKept
  | ok res =>
      cases res with
      | already =>
          rw [hres] at hend
          exact hend.elim
      | unpacked k =>
          rw [hres] at hend
          obtain ⟨top', hafter⟩ := hend
          obtain rfl := hr.unique hafter.root
          obtain ⟨-, top', hr', -, hothers⟩ := hall.succeeded k hres
          rw [← hgrow.1, ← hafter.cwd] at hr'
          obtain rfl := hr'.unique hafter.reaches
          obtain ⟨n, rest, rfl⟩ := List.exists_cons_of_ne_nil hne
          -- Below the sources nothing was there before, and all the rest has been kept.
          by_cases hn : n = Root.sourceName
          · subst hn
            exact node?_sources_of_not_isFetched hsound hgrow hr hinc'
              (isDir_iff.mp hafter.isDir).1 rest
          · rw [← hothers.inside _ hne (by simpa using hn)]
            exact (hafter.nodes _ (isWithin_sibling (Ne.symm hn))).symm

/-- A fetch is all or nothing exactly if making the directory of the root, with which it
begins, makes nothing in the root and does not make the sources appear. -/
theorem fetch_allOrNothing_iff (a : SourceArchive) (r : Root) (hw : w.IsSound)
    (hd : o.DrawsFresh w.tree) :
    AllOrNothing o a r w ↔ RootOnly r w (rootMade o a r w) := by
  by_cases hidle : isFetched r w = true ∨ Format.ofUrl? a.url = none
  · have hsame : rootMade o a r w = w := by rw [rootMade, if_pos hidle]
    rw [hsame]
    exact ⟨fun _ => ⟨fun _ _ _ _ => rfl, rfl⟩, fun _ => allOrNothing_of_idle hidle⟩
  · obtain ⟨hinc, hformat⟩ := not_or.mp hidle
    rw [Bool.not_eq_true] at hinc
    obtain ⟨format, hformat⟩ := Option.ne_none_iff_exists'.mp hformat
    exact ⟨rootOnly_of_allOrNothing hw hd hinc hformat rfl,
      allOrNothing_of_rootOnly hw hd hinc hformat rfl⟩

def throughSource : Root := ⟨"l/source/.."⟩

def nowhere : SourceArchive := ⟨"file:///etc/llvm.tar", "R", none⟩

theorem drawsFresh_silent : silent.DrawsFresh bareWorld.tree where
  plain _ := List.not_mem_nil
  unnamed s loc target ht := by
    by_cases hne : loc = []
    · subst hne
      exact absurd ht nofun
    · exact absurd ((node?_empty hne).symm.trans ht) nofun

theorem isFetched_throughSource :
    isFetched throughSource bareWorld = false ∧
      isFetched throughSource (rootMade silent nowhere throughSource bareWorld) = true := by
  constructor
  · cbv
  · cbv

theorem fetch_allOrNothing_iff_throughSource :
    bareWorld.IsSound ∧ silent.DrawsFresh bareWorld.tree ∧
      ¬ AllOrNothing silent nowhere throughSource bareWorld := by
  refine ⟨isSound_bareWorld, drawsFresh_silent, fun hall => ?_⟩
  have honly := (fetch_allOrNothing_iff nowhere throughSource isSound_bareWorld
    drawsFresh_silent).mp hall
  obtain ⟨hfalse, htrue⟩ := isFetched_throughSource
  rw [honly.sources, hfalse] at htrue
  contradiction

end Sources

end LlvmBootstrap
