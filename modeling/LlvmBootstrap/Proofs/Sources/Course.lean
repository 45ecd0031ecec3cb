import LlvmBootstrap.Proofs.Sources.Staging

/-!
The course of a whole fetch that has something to do: first the root grows, then a staging
directory stands in it, and from the moment it is moved the sources are in their place.
-/

namespace LlvmBootstrap.Sources

open Archive LlvmBootstrap.Tree Program

variable {σ : Type} {o : Outside σ} {a : SourceArchive} {r : Root} {w m w' : World σ}
  {top : Location} {x : Name} {staging : Path} {k : Nat}

/-- `k` members of the archive, unpacked: what unpacking the file that `a` stands for, as it is
downloaded from `m` on, has left in an empty directory at `loc`. -/
inductive Unpacked (o : Outside σ) (a : SourceArchive) (m : World σ) (k : Nat) (loc : Location)
    (t : Tree) : Prop
  | intro {format : Format} {file : Bytes} {staging : Path} {w w' : World σ}
      (hformat : Format.ofUrl? a.url = some format)
      (hfile : ((download a.url).run.run o m).1 = .ok file)
      (hdigest : (checkDigest a file).run = pure (.ok ()))
      (hempty : w.HasEmptyDir staging loc)
      (hrun : (extract file format a.top staging).run.run o w = (.ok k, w'))
      (htree : w'.tree = t)

/-- The directory `top` has the sources: its entry for them is what
unpacking all of the archive makes. -/
structure HoldsSources (o : Outside σ) (a : SourceArchive) (m : World σ)
    (top : Location) (k : Nat) (t : Tree) : Prop where
  pos : 0 < k
  unpacked : ∃ loc t', Unpacked o a m k loc t' ∧ t.bodies = t'.bodies ∧
    ∀ rel, t.node? (top ++ Root.sourceName :: rel) = t'.node? (loc ++ rel)

/-- A world between `w` and `m`, which both differ from it in some directories at most. -/
def Growing (r : Root) (w m w' : World σ) : Prop :=
  MoreDirs (r.path :: ancestors r.path) w w' ∧ MoreDirs (r.path :: ancestors r.path) w' m

def Before (o : Outside σ) (r : Root) (w m w' : World σ) : Prop :=
  Growing r w m w' ∨ ∃ top x, Reaches m.tree m.cwd r.path top ∧ IsDrawn o x ∧
    w'.cwd = m.cwd ∧ Beside top x m.tree w'.tree

/-- The world when the sources are in their place, and nothing else differs from `m`. -/
structure After (o : Outside σ) (a : SourceArchive) (r : Root) (m : World σ)
    (top : Location) (k : Nat) (w' : World σ) : Prop where
  cwd : w'.cwd = m.cwd
  root : Reaches m.tree m.cwd r.path top
  routes : RoutesKept m.tree w'.tree
  reaches : Reaches w'.tree w'.cwd r.path top
  nodes : ∀ loc, isWithin (top ++ [Root.sourceName]) loc = false →
    w'.tree.node? loc = m.tree.node? loc
  bodies : ∀ id b, m.tree.body? id = some b → w'.tree.body? id = some b
  holds : HoldsSources o a m top k w'.tree
  isDir : w'.tree.isDir w'.cwd r.sources = true
  dir : ∃ mode, w'.tree.node? (top ++ [Root.sourceName]) = some (.dir mode)
  closed : w'.tree.Closed

/-- `t'` is `t` but for entries of `top` that have the name of a staging directory. -/
structure Apart (o : Outside σ) (top : Location) (t t' : Tree) : Prop where
  nodes : ∀ loc, (∀ x, IsDrawn o x → isWithin (top ++ [x]) loc = false) →
    t'.node? loc = t.node? loc
  bodies : ∀ id b, t.body? id = some b → t'.body? id = some b
  routes : RoutesKept t t'

theorem Apart.of_still (h : m.Still w') : Apart o top m.tree w'.tree := by
  rw [h.1]
  exact ⟨fun _ _ => rfl, fun _ _ hb => hb, .refl _⟩

theorem Apart.of_beside {t t' : Tree} (hc : t.Closed) (hx : IsDrawn o x)
    (h : Beside top x t t') :
    Apart o top t t' :=
  ⟨fun loc hloc => h.nodes loc (hloc x hx), h.bodies, h.routesKept hc⟩

/-- What a call makes before the move: a directory above the root, or
something in a staging directory. -/
inductive Makes (o : Outside σ) (r : Root) (w m w' : World σ) (c : Call) : Prop
  | root (h : MakesDirs w.cwd (r.path :: ancestors r.path) w' c)
  | staging {top : Location} (hr : Reaches m.tree m.cwd r.path top)
      (h : Apart o top m.tree w'.tree) (hnext : Apart o top m.tree (w'.perform o c).2.tree)

inductive Moves (o : Outside σ) (a : SourceArchive) (r : Root) (w m : World σ) :
    Except Errno Unit × World σ → Prop
  | done {top : Location} {k : Nat} {w' : World σ} (h : After o a r m top k w') :
      Moves o a r w m (.ok (), w')
  | refused {e : Errno} {w' : World σ} (h : Before o r w m w') : Moves o a r w m (.error e, w')

/-- The calls of a fetch. The one that puts the sources in their place is the move. -/
inductive Fetches (o : Outside σ) (a : SourceArchive) (r : Root) (w m w' : World σ) :
    Call → Prop
  | aside {c : Call} (h : Before o r w m w') (hc : c.IsAside) (hmakes : Makes o r w m w' c)
      (hnext : Before o r w m (w'.perform o c).2) : Fetches o a r w m w' c
  | move {staging : Path} {top : Location} (h : Before o r w m w') (hsound : w'.IsSound)
      (hr : Reaches m.tree m.cwd r.path top) (hapart : Apart o top m.tree w'.tree)
      (hnext : Moves o a r w m (w'.perform o (.change (.renameDir staging r.sources)))) :
      Fetches o a r w m w' (.change (.renameDir staging r.sources))
  | log {level : Level} {text : String} {top : Location} {k : Nat}
      (h : After o a r m top k w') :
      Fetches o a r w m w' (.log level text)
  | removeAll {staging : Path} {top : Location} {k : Nat} (h : After o a r m top k w')
      (hnext : w'.perform o (.change (.removeAll staging)) = (.error .notFound, w')) :
      Fetches o a r w m w' (.change (.removeAll staging))

def Outcome (o : Outside σ) (a : SourceArchive) (r : Root) (w m : World σ) :
    Except SourceError Fetched → World σ → Prop
  | .error _, w' => Before o r w m w' ∧ w'.cwd = m.cwd ∧ Kept m.tree w'.tree
  | .ok .already, _ => False
  | .ok (.unpacked k), w' => ∃ top, After o a r m top k w'

theorem After.isSound (hm : m.IsSound) (h : After o a r m top k w') : w'.IsSound := by
  obtain ⟨mode, hmode⟩ := hm.cwd
  refine ⟨h.closed, ?_⟩
  rw [h.cwd]
  exact h.routes.dirs _ _ hmode

theorem before_of_still (hgrow : MoreDirs (r.path :: ancestors r.path) w m) (h : m.Still w') :
    Before o r w m w' := by
  obtain ⟨htree, hcwd⟩ := h
  refine .inl ⟨⟨hcwd.trans hgrow.1, htree ▸ hgrow.2⟩, hcwd.symm, ?_⟩
  rw [htree]
  exact .refl ..

theorem before_of_staged (hr : Reaches m.tree m.cwd r.path top)
    (hs : IsStaging o r m top x staging) (h : Staged m top x w') : Before o r w m w' :=
  .inr ⟨top, x, hr, hs.fresh, h.cwd, h.beside⟩

theorem apart_of_staged (hm : m.IsSound) (hs : IsStaging o r m top x staging)
    (h : Staged m top x w') : Apart o top m.tree w'.tree :=
  .of_beside hm.closed hs.fresh h.beside

theorem cwd_of_before (hgrow : MoreDirs (r.path :: ancestors r.path) w m)
    (h : Before o r w m w') :
    w'.cwd = w.cwd := by
  rcases h with ⟨⟨hcwd, -⟩, -⟩ | ⟨-, -, -, -, hcwd, -⟩
  · exact hcwd
  · exact hcwd.trans hgrow.1

/-- A part of a fetch between making the root and the move. -/
theorem fetches_of_before {α : Type} {p : Program α} {I : World σ → Prop}
    {Q : α → World σ → Prop} {w₁ : World σ} (hr : Reaches m.tree m.cwd r.path top)
    (h : p.Throughout o (fun w' c => I w' ∧ c.IsAside) Q w₁) (hQ : ∀ a w', Q a w' → I w')
    (hI : ∀ w', I w' → Before o r w m w' ∧ Apart o top m.tree w'.tree) :
    p.Throughout o (Fetches o a r w m) Q w₁ := by
  refine (h.forward (fun _ _ hc => hc.1) hQ).imp (fun w' c hc => ?_) fun _ _ h => h
  obtain ⟨hbefore, hapart⟩ := hI _ hc.1.1
  obtain ⟨hbefore', hapart'⟩ := hI _ hc.2
  exact .aside hbefore hc.1.2 (.staging hr hapart hapart') hbefore'

/-- A change whose refusal ends the attempt as an error of the sources. -/
theorem throughout_orFail_change {β : Type} {C : World σ → Call → Prop} {c : Change}
    {f : Unit → Attempt SourceError β} {R : Except SourceError β → World σ → Prop}
    (hC : C w (.change c))
    (hok : ∀ t', c.apply w.tree w.cwd = .ok t' →
      (f ()).run.Throughout o C R { w with tree := t' })
    (herr : ∀ e, c.apply w.tree w.cwd = .error e → R (.error (.failed (.system e))) w) :
    (orFail (change c) >>= f).run.Throughout o C R w := by
  refine Throughout.attempt_bind_iff.mpr (Throughout.adapt ⟨hC, ?_⟩)
  cases happ : c.apply w.tree w.cwd with
  | error e =>
      rw [World.perform_change_error happ]
      exact herr e happ
  | ok t' =>
      rw [World.perform_change_ok happ]
      exact hok t' happ

theorem after_of_inPlace {w₂ : World σ} {t' : Tree} (hm : m.IsSound)
    (hr : Reaches m.tree m.cwd r.path top) (hw : Staged m top x w₂)
    (hp : InPlace r m top x w₂.tree t') (hpos : 0 < k)
    (hu : Unpacked o a m k (top ++ [x]) w₂.tree) :
    After o a r m top k { w₂ with tree := t' } where
  cwd := hw.cwd
  root := hr
  routes := hp.routes
  reaches := hw.cwd ▸ hp.reaches
  nodes := hp.placed.nodes
  bodies id b hb := by
    rw [Tree.body?, hp.placed.bodies]
    exact hw.beside.bodies id b hb
  holds := by
    refine ⟨hpos, _, _, hu, hp.placed.bodies, fun rel => ?_⟩
    rw [hp.placed.entry, List.append_assoc]
    rfl
  isDir := hw.cwd ▸ hp.isDir
  dir := hp.dir
  closed := hp.placed.isClosed hm.closed hw.closed hr.dir

/-- From an empty staging directory on: it is filled and moved to the place of the sources, or
it is still there when something goes wrong. -/
theorem throughout_unpackSources {format : Format} {file : Bytes} {w₁ : World σ} {mode : Mode}
    (hm : m.IsSound) (hr : Reaches m.tree m.cwd r.path top)
    (hs : IsStaging o r m top x staging) (hformat : Format.ofUrl? a.url = some format)
    (hfile : ((download a.url).run.run o m).1 = .ok file)
    (hdigest : (checkDigest a file).run = pure (.ok ()))
    (ht : w₁.tree = m.tree.put (top ++ [x]) (.dir mode)) (hc : w₁.cwd = m.cwd) :
    (unpackSources a r format file staging).run.Throughout o (Fetches o a r w m)
      (fun res w' => match res with
        | .error _ => Staged m top x w'
        | .ok .already => False
        | .ok (.unpacked k) => After o a r m top k w' ∧ ∃ t,
            InPlace r m top x t w'.tree) w₁ := by
  have hbefore : ∀ w', Staged m top x w' → Before o r w m w' ∧ Apart o top m.tree w'.tree :=
    fun w' hw' => ⟨before_of_staged hr hs hw', apart_of_staged hm hs hw'⟩
  have hstaged : Staged m top x w₁ := staged_of_put hm hr hs.vacant ht hc
  have hsaid : Staged m top x (w₁.perform o (.log .info "extracting sources")).2 :=
    ⟨hstaged.cwd, hstaged.beside, hstaged.dir, hstaged.closed⟩
  rw [unpackSources]
  refine Throughout.attempt_call_bind_iff.mpr ⟨?_, ?_⟩
  · obtain ⟨h, hapart⟩ := hbefore _ hstaged
    obtain ⟨h', hapart'⟩ := hbefore _ hsaid
    exact .aside h ⟨nofun, nofun⟩ (.staging hr hapart hapart') h'
  have hextract :=
    throughout_extract (o := o) (w := (w₁.perform o (.log .info "extracting sources")).2)
    file format a.top hm hr hs ht hc
  have hempty : (w₁.perform o (.log .info "extracting sources")).2.HasEmptyDir staging
      (top ++ [x]) :=
    hasEmptyDir_staging hm hr hs ht hc
  refine Throughout.attempt_bind
    (fetches_of_before hr hextract (fun _ _ h => h) hbefore).result ?_
    fun _ _ h => h.1
  rintro entries w₂ ⟨hw₂, hrun⟩
  -- An archive without a member below its top directory is refused before the move.
  by_cases hzero : entries = 0
  · rw [if_pos hzero]
    exact hw₂
  rw [if_neg hzero]
  have hunpacked : Unpacked o a m entries (top ++ [x]) w₂.tree :=
    .intro hformat hfile hdigest hempty hrun rfl
  -- What is moved is all that has been unpacked, and it is moved by one call.
  have hafter : ∀ t', (Change.renameDir staging r.sources).apply w₂.tree w₂.cwd = .ok t' →
      InPlace r m top x w₂.tree t' ∧ After o a r m top entries { w₂ with tree := t' } := by
    intro t' happ
    have hplace := renameDir_staging hm hr hs hw₂ happ
    exact ⟨hplace, after_of_inPlace hm hr hw₂ hplace (Nat.pos_of_ne_zero hzero) hunpacked⟩
  refine throughout_orFail_change
    (.move (hbefore _ hw₂).1 (hw₂.isSound hm) hr (hbefore _ hw₂).2 ?_)
    (fun t' happ => ?_) fun _ _ => hw₂
  · cases happ : (Change.renameDir staging r.sources).apply w₂.tree w₂.cwd with
    | error e =>
        rw [World.perform_change_error happ]
        exact .refused (hbefore _ hw₂).1
    | ok t' =>
        rw [World.perform_change_ok happ]
        exact .done (hafter t' happ).2
  · obtain ⟨hplace, hafter⟩ := hafter t' happ
    refine Throughout.attempt_call_bind_iff.mpr ⟨.log hafter, ?_, w₂.tree, hplace⟩
    exact { hafter with }

/-- The staging directory does not outlive the work in it. -/
theorem throughout_withStaging {format : Format} {file : Bytes} {w₁ : World σ}
    (hgrow : MoreDirs (r.path :: ancestors r.path) w m) (hm : m.IsSound)
    (hr : Reaches m.tree m.cwd r.path top) (hd : o.DrawsPlain)
    (hformat : Format.ofUrl? a.url = some format)
    (hfile : ((download a.url).run.run o m).1 = .ok file)
    (hdigest : (checkDigest a file).run = pure (.ok ())) (hw₁ : m.Still w₁) :
    (withStaging r (unpackSources a r format file)).run.Throughout o (Fetches o a r w m)
      (Outcome o a r w m) w₁ := by
  have hstill : ∀ w', m.Still w' → Before o r w m w' ∧ Apart o top m.tree w'.tree :=
    fun w' hw' => ⟨before_of_still hgrow hw', .of_still hw'⟩
  rw [withStaging]
  have hmake := (throughout_makeStaging hr hd maxTries hw₁).imp
    (fun w' _ hc => And.imp_left (hstill w') hc) fun _ _ h => h
  refine Throughout.adapt_bind (fetches_of_before hr hmake ?_ fun _ h => h) ?_ ?_
  · rintro (e | staging) w' hw'
    · exact hstill w' hw'
    · obtain ⟨x, mode, hs, ht, hc⟩ := hw'
      have hstaged := staged_of_put hm hr hs.vacant ht hc
      exact ⟨before_of_staged hr hs hstaged, apart_of_staged hm hs hstaged⟩
  · rintro staging w₂ ⟨x, mode, hs, ht, hc⟩
    refine Throughout.bind (throughout_unpackSources hm hr hs hformat hfile hdigest ht hc) ?_
    rintro (e | fetched) w₃ hw₃
    · obtain ⟨t', hremove, hkept, hbeside⟩ := removeAll_staging hm hr hs hw₃
      have happ : (Change.removeAll staging).apply w₃.tree w₃.cwd = .ok t' := hremove
      have hend : Before o r w m { w₃ with tree := t' } :=
        .inr ⟨top, x, hr, hs.fresh, hw₃.cwd, hbeside⟩
      refine Throughout.change_bind
        (.aside (before_of_staged hr hs hw₃) ⟨nofun, nofun⟩ ?_ ?_) ?_ ?_
      · refine .staging hr (apart_of_staged hm hs hw₃) ?_
        rw [World.perform_change_ok happ]
        exact .of_beside hm.closed hs.fresh hbeside
      · rw [World.perform_change_ok happ]
        exact hend
      · intro t'' happ'
        obtain rfl := Except.ok.inj (happ.symm.trans happ')
        exact ⟨hend, hw₃.cwd, hkept⟩
      · intro e' happ'
        exact absurd (happ.symm.trans happ') nofun
    · cases fetched with
      | already => exact hw₃.elim
      | unpacked k =>
          obtain ⟨hafter, t, hplace⟩ := hw₃
          -- After the move nothing is at the staging path, so the removal
          -- is refused and the sources stay.
          have happ := removeAll_placed hs hplace
          rw [← hafter.cwd] at happ
          refine Throughout.change_bind
            (.removeAll hafter (World.perform_change_error happ)) ?_ ?_
          · intro t' happ'
            exact absurd (happ.symm.trans happ') nofun
          · exact fun _ _ => ⟨top, hafter⟩
  · intro e w' hw'
    exact ⟨(hstill w' hw').1, hw'.2, by rw [hw'.1]; exact Kept.refl _⟩

theorem madeDir_rootMade (hw : w.IsSound) (hm : ((makeDirs r.path).run.run o w).2 = m) :
    MadeDir w.cwd r.path ((makeDirs r.path).run.run o w).1 m ∧
      MoreDirs (r.path :: ancestors r.path) w m := by
  have hsince := (throughout_makeDirs (o := o) (p := r.path) hw).since (MoreDirs.refl _ w)
    (fun _ _ _ => MoreDirs.trans) fun _ _ hc => hc.moreDirs
  rw [← hm]
  exact hsince.at_end

/-- Making the root, as the first part of a fetch. -/
theorem throughout_rootMade (hw : w.IsSound) (hm : ((makeDirs r.path).run.run o w).2 = m) :
    (makeDirs r.path).run.Throughout o (Fetches o a r w m)
      (fun res w' => w' = m ∧ MadeDir w.cwd r.path res m) w := by
  have hsince := (throughout_makeDirs (o := o) (p := r.path) hw).since (MoreDirs.refl _ w)
    (fun _ _ _ => MoreDirs.trans) fun _ _ hc => hc.moreDirs
  obtain ⟨-, htoward⟩ := hsince.toward (MoreDirs.refl _) (fun _ _ _ => MoreDirs.trans)
    fun _ _ hc => hc.1.moreDirs
  rw [hm] at htoward
  have hend : ∀ res w', (makeDirs r.path).run.run o w = (res, w') → w' = m := by
    intro res w' hrun
    rwa [hrun] at hm
  have hsteps := htoward.result.forward (I := Growing r w m) (fun w' _ hc => ⟨hc.1.2, hc.2⟩) ?_
  · refine hsteps.imp (fun w' c hc => ?_) fun res w' hres => ?_
    · obtain ⟨⟨⟨hmakes, hsince⟩, hrest⟩, hnext⟩ := hc
      refine .aside (.inl ⟨hsince, hrest⟩) ?_ (.root hmakes) (.inl hnext)
      cases hmakes.2.2 <;> exact ⟨nofun, nofun⟩
    · obtain ⟨⟨hmade, -⟩, hrun⟩ := hres
      obtain rfl := hend res w' hrun
      exact ⟨rfl, hmade⟩
  · rintro res w' ⟨⟨-, hsince⟩, hrun⟩
    obtain rfl := hend res w' hrun
    exact ⟨hsince, .refl ..⟩

theorem checkDigest_run (a : SourceArchive) (file : Bytes) :
    (checkDigest a file).run = pure (.ok ()) ∨
    ∃ e, (checkDigest a file).run = pure (.error e) := by
  rw [checkDigest]
  split
  · exact .inl rfl
  · dsimp only
    split
    · exact .inl rfl
    · exact .inr ⟨_, rfl⟩

/-- All calls of a fetch that finds the sources missing and knows how they are packed. -/
theorem throughout_fetch {format : Format} (hw : w.IsSound) (hd : o.DrawsPlain)
    (hinc : w.tree.isDir w.cwd r.sources = false) (hformat : Format.ofUrl? a.url = some format)
    (hm : ((makeDirs r.path).run.run o w).2 = m) :
    (fetch a r r.record).run.Throughout o (Fetches o a r w m) (Outcome o a r w m) w := by
  have hgrow := (madeDir_rootMade hw hm).2
  have hmake := throughout_rootMade (o := o) (r := r) (a := a) hw hm
  have hstart : Before o r w m w := .inl ⟨.refl .., hgrow⟩
  rw [fetch]
  have hlook : Makes o r w m w (.look true r.sources) := .root ⟨hw, rfl, .look _⟩
  refine Throughout.attempt_lift_bind_iff.mpr
    ((throughout_isDir (p := r.sources) (.aside hstart ⟨nofun, nofun⟩ hlook hstart)).post ?_)
  rintro b w' ⟨hsame, rfl⟩
  obtain rfl := hsame.symm
  rw [hinc]
  simp only [Bool.false_eq_true, if_false]
  rw [hformat]
  simp only
  refine Throughout.adapt_bind hmake ?_ ?_
  · rintro ⟨⟩ w' ⟨hend, hsound, -, hreach⟩
    obtain rfl := hend.symm
    obtain ⟨top, hr⟩ := hreach rfl
    have hstill : ∀ w', World.Still m w' → Before o r w m w' ∧ Apart o top m.tree w'.tree :=
      fun w' hw' => ⟨before_of_still hgrow hw', .of_still hw'⟩
    -- Up to the staging directory an error leaves all as it was when the root had been made.
    have hend : ∀ e w', World.Still m w' → Outcome o a r w m (.error e) w' := fun e w' hw' =>
      ⟨(hstill w' hw').1, hw'.2, hw'.1.symm ▸ Kept.refl _⟩
    have hdown := Download.throughout_download (o := o) a.url (⟨rfl, rfl⟩ : World.Still m m)
    refine Throughout.attempt_bind
      (fetches_of_before hr hdown (fun _ _ h => h) hstill).result ?_ ?_
    · rintro file w' ⟨hw', hrun⟩
      rw [Throughout.attempt_bind_iff]
      rcases checkDigest_run a file with hdigest | ⟨e, hdigest⟩
      · rw [hdigest]
        exact throughout_withStaging hgrow hsound hr hd hformat
          (congrArg Prod.fst hrun) hdigest hw'
      · rw [hdigest]
        exact hend e w' hw'
    · exact fun e w' hw' => hend e w' hw'.1
  · rintro e w' ⟨rfl, -⟩
    exact ⟨.inl ⟨hgrow, .refl ..⟩, rfl, Kept.refl _⟩

end LlvmBootstrap.Sources
