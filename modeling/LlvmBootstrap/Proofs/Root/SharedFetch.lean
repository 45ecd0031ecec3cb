import LlvmBootstrap.Proofs.Root.Sharing

/-!
A fetch by a run that holds the lock, amid others. The staging directory is off the way to the
lock file, for nothing stood there when it was made, and what is unpacked into it stays inside
whatever others do beside it. The sources are put where the record found none.
-/

namespace LlvmBootstrap

open Archive LlvmBootstrap.Tree Program Sources

namespace Tree

variable {L : List Name → Path → Prop} {t₀ t t' : Tree} {top : Location} {x : Name}

/-- What is confined to a directory is so still when others have
changed what is outside of it. -/
theorem Confined.beside (h : Confined L (top ++ [x]) t₀ t) (hc : t'.Closed)
    (hdir : ∃ mode, t'.node? (top ++ [x]) = some (.dir mode))
    (hlen : t.bodies.length ≤ t'.bodies.length)
    (hsame : ∀ rel, t'.node? (top ++ [x] ++ rel) = t.node? (top ++ [x] ++ rel)) :
    ∃ t₁, t₁.Closed ∧ t₁.bodies.length = t₀.bodies.length ∧ Confined L (top ++ [x]) t₁ t' := by
  obtain ⟨mode, hmode⟩ := hdir
  -- The others' tree with the directory emptied, and without the files that are new in it.
  let t₁ : Tree := ⟨((t'.prune (top ++ [x])).put (top ++ [x]) (.dir mode)).nodes,
    t'.bodies.take t₀.bodies.length⟩
  have hnodes : ∀ loc, t₁.node? loc =
      ((t'.prune (top ++ [x])).put (top ++ [x]) (.dir mode)).node? loc := fun loc => by
    cases loc <;> rfl
  have hlength : t₁.bodies.length = t₀.bodies.length := by
    rw [List.length_take, Nat.min_eq_left (Nat.le_trans h.length_le hlen)]
  have hclosed : t₁.Closed := by
    refine Closed.congr ((hc.prune (by simp)).put ?_ ?_) hnodes
    · rw [node?_prune _ (by simp), not_isWithin_entry, if_neg Bool.false_ne_true]
      exact hc top x (by simp [hmode])
    · rw [node?_prune _ (by simp), isWithin_self, if_pos rfl]
  refine ⟨t₁, hclosed, hlength, fun loc hloc => ?_, fun id hid => ?_, ?_,
    fun rel id hne hn => ?_,
    fun rel hne hn => ?_, fun rel target hne hn => ?_⟩
  · rw [hnodes]
    by_cases heq : loc = top ++ [x]
    · rw [heq, hmode, node?_put_self _ _ (by simp)]
    · have hnot : isWithin (top ++ [x]) loc = false := by
        rw [isWithin_eq_false_iff]
        rintro rel rfl
        refine hloc rel ?_ rfl
        rintro rfl
        simp at heq
      rw [node?_put_of_ne _ _ heq, node?_prune _ (by simp), hnot, if_neg Bool.false_ne_true]
  · rw [hlength] at hid
    exact (List.getElem?_take_of_lt hid).symm
  · rw [hlength]
    exact Nat.le_trans h.length_le hlen
  · rw [hsame] at hn
    obtain ⟨hge, hlt⟩ := h.fresh rel id hne hn
    exact ⟨hlength ▸ hge, Nat.lt_of_lt_of_le hlt hlen⟩
  · rw [hsame] at hn ⊢
    exact h.closed rel hne hn
  · rw [hsame] at hn
    exact h.links rel target hne hn

end Tree

namespace Root

variable {σ : Type} {o : Outside σ} {r : Root} {past past' : List Answered} {w w' w₀ : World σ}
  {h : Handle} {top : Location} {id : FileId} {x : Name} {staging : Path} {t t' : Tree}

/-! ### Unpacking -/

/-- The world while a run unpacks into its staging directory, the entry `x` of the root. -/
structure Unpacking (r : Root) (top : Location) (id : FileId) (h : Handle) (x : Name)
    (w₀ w : World σ) :
    Prop where
  since : ∃ past, Since r top id h w₀ past w
  off : r.Off w.cwd w.tree (top ++ [x])
  dir : ∃ mode, w.tree.node? (top ++ [x]) = some (.dir mode)
  confined : ∃ t₀, t₀.Closed ∧ id < t₀.bodies.length ∧
    Confined (fun _ _ => True) (top ++ [x]) t₀ w.tree

def Beside (o : Outside σ) (r : Root) (h : Handle) (w w' : World σ) : Prop :=
  ∃ past, Holds r past h ∧ Meanwhile o r past w w'

theorem Unpacking.meanwhile (hx : IsDrawn o x) (hu : Unpacking r top id h x w₀ w)
    (hb : Root.Beside o r h w w') : Unpacking r top id h x w₀ w' ∧
      ∀ rel, w'.tree.node? (top ++ [x] ++ rel) = w.tree.node? (top ++ [x] ++ rel) := by
  obtain ⟨past', hholds, hm⟩ := hb
  obtain ⟨past, hs⟩ := hu.since
  have hl := hm.leaves top id hs.lockAt
  have hsame : ∀ rel, w'.tree.node? (top ++ [x] ++ rel) =
      w.tree.node? (top ++ [x] ++ rel) := by
    intro rel
    rw [List.append_assoc, List.singleton_append]
    exact hm.staging top id h hs.lockAt hholds x hx rel
  have hdir : ∃ mode, w'.tree.node? (top ++ [x]) = some (.dir mode) := by
    have hself := hsame []
    rw [List.append_nil] at hself
    rw [hself]
    exact hu.dir
  refine ⟨⟨⟨past, hs.next hm.cwd hl hs.holds hs.once⟩, ?_, hdir, ?_⟩, hsame⟩
  · rw [hm.cwd]
    exact (hs.lockAt.off_iff hl).mpr hu.off
  · obtain ⟨t₀, -, hid, hconf⟩ := hu.confined
    obtain ⟨t₁, hc, hlen, hconf'⟩ := hconf.beside hl.closed hdir hl.length_le hsame
    exact ⟨t₁, hc, hlen ▸ hid, hconf'⟩

theorem Unpacking.reaches (hu : Unpacking r top id h x w₀ w)
    (hext : Path.Extends r.path [x] staging) (hshort : x.length ≤ maxName) :
    Reaches w.tree w.cwd staging (top ++ [x]) := by
  obtain ⟨past, hs⟩ := hu.since
  obtain ⟨mode, hmode⟩ := hu.dir
  exact hs.lockAt.reaches.entry hext hshort hmode

/-- Unpacking touches nothing outside of the staging directory. -/
theorem Unpacking.change {c : Change} (hu : Unpacking r top id h x w₀ w)
    (hext : Path.Extends r.path [x] staging) (hshort : x.length ≤ maxName)
    (ht : TouchesBy (fun _ _ => True) w.tree (top ++ [x]) staging c)
    (happ : c.apply w.tree w.cwd = .ok t') :
    r.Leaves w.cwd w.tree t' ∧ t'.content id = w.tree.content id ∧
      Unpacking r top id h x w₀ { w with tree := t' } := by
  obtain ⟨past, hs⟩ := hu.since
  obtain ⟨t₀, hc₀, hid, hconf⟩ := hu.confined
  have hconf' := ht.confined hconf (hu.reaches hext hshort) happ
  have houtside : ∀ loc, (∀ rel, rel ≠ [] → loc ≠ top ++ [x] ++ rel) →
      t'.node? loc = w.tree.node? loc := fun loc hloc =>
    (hconf'.outside loc hloc).trans (hconf.outside loc hloc).symm
  have hl : r.Leaves w.cwd w.tree t' := by
    refine ⟨hconf'.isClosed hc₀, fun loc hloc => .inl (houtside loc ?_), Change.length_le happ⟩
    rintro rel - rfl
    have hoff := hu.off _ hloc
    rw [isWithin_append] at hoff
    contradiction
  refine ⟨hl, ?_, ⟨past, hs.next rfl hl hs.holds hs.once⟩,
    (hs.lockAt.off_iff hl).mpr hu.off, ?_,
    t₀, hc₀, hid, hconf'⟩
  · rw [Tree.content, Tree.content, hconf'.bodies id hid, hconf.bodies id hid]
  · rw [houtside _ fun rel hne he => hne (List.append_right_eq_self.mp he.symm)]
    exact hu.dir

theorem shelter_unpacking (hext : Path.Extends r.path [x] staging)
    (hshort : x.length ≤ maxName) :
    Shelter (fun _ _ => True) (top ++ [x]) staging (Unpacking r top id h x w₀) where
  named := (hext.last (List.cons_ne_nil _ _)).2
  reaches hu := hu.reaches hext hshort
  vacant_below hu hn hpre := by
    obtain ⟨t₀, -, -, hconf⟩ := hu.confined
    exact hconf.vacant_below hn hpre
  change hu ht happ := (hu.change hext hshort ht happ).2.2

def IsUnpacking (c : Call) : Prop := (∃ follow p, c = .look follow p) ∨ ∃ ch, c = .change ch

theorem isUnpacking_of_touches {L : List Name → Path → Prop} {dest : Path} {c : Call}
    (ht : Touches L t top dest c) : IsUnpacking c := by
  cases ht with
  | lookTop => exact .inl ⟨_, _, rfl⟩
  | look => exact .inl ⟨_, _, rfl⟩
  | change => exact .inr ⟨_, rfl⟩

theorem Working.append {more : List Answered} (hw : Working r top id h past w)
    (hmore : ∀ y ∈ more, IsUnpacking y.call) : Working r top id h (past ++ more) w := by
  have hnot : ∀ c, (∀ follow p, c ≠ .look follow p) → (∀ ch, c ≠ .change ch) →
      ∀ y ∈ more, y.call ≠ c := by
    rintro c hlook hchange y hy rfl
    rcases hmore y hy with ⟨follow, p, hc⟩ | ⟨ch, hc⟩
    · exact hlook follow p hc
    · exact hchange ch hc
  refine ⟨hw.lockAt, ⟨⟨List.mem_append_left _ hw.holds.opened, fun hmem => ?_⟩,
    List.mem_append_left _ hw.holds.locked⟩, fun h' hmem => ?_⟩
  · rcases List.mem_append.mp hmem with hmem | hmem
    · exact hw.holds.open_ hmem
    · exact hnot (.close h) nofun nofun _ hmem rfl
  · rcases List.mem_append.mp hmem with hmem | hmem
    · exact hw.once h' hmem
    · exact absurd rfl (hnot (.openFile r.lock) nofun nofun _ hmem)

structure Staging (r : Root) (top : Location) (id : FileId) (h : Handle) (x : Name)
    (w₀ : World σ) (past : List Answered) (w : World σ) : Prop where
  since : Since r top id h w₀ past w
  off : r.Off w.cwd w.tree (top ++ [x])
  dir : ∃ mode, w.tree.node? (top ++ [x]) = some (.dir mode)

theorem Since.amid_extract (hs : Since r top id h w₀ past w) (hx : IsDrawn o x)
    (hext : Path.Extends r.path [x] staging) (hshort : x.length ≤ maxName)
    (hoff : r.Off w.cwd w.tree (top ++ [x]))
    (hdir : ∃ mode, w.tree.node? (top ++ [x]) = some (.dir mode))
    (hvacant : w.tree.isVacantBelow (top ++ [x]) = true) (file : Bytes) (format : Format)
    (name : String) :
    (extract file format name staging).run.Amid o (Meanwhile o r) (Obeys r)
      (fun _ past' w' => Staging r top id h x w₀ past' w') past w := by
  have hu : Unpacking r top id h x w₀ w :=
    ⟨⟨past, hs⟩, hoff, hdir, w.tree, hs.lockAt.closed, hs.lockAt.filled, .refl hvacant⟩
  -- What others do is not below the staging directory, so no link appears there.
  have hsteady : ∀ w w', Unpacking r top id h x w₀ w → Root.Beside o r h w w' →
      Steady (Unpacking r top id h x w₀) (top ++ [x]) w w' := by
    intro w w' hu hb
    obtain ⟨hu', hsame⟩ := hu.meanwhile hx hb
    refine ⟨hu', fun hun pre hpre hne target hlink => hun pre hpre hne target ?_⟩
    rwa [hsame] at hlink
  have hrun : (unpack (Tar.read (format.stream file)) name staging).run.Amid o
      (fun _ => Root.Beside o r h) (fun _ => Permits (fun _ _ => True)
        (Unpacking r top id h x w₀) (top ++ [x]) staging)
      (fun _ _ => Unpacking r top id h x w₀) past w :=
    amid_unpack (shelter_unpacking hext hshort) hsteady _ _ hu fun _ _ _ => trivial
  -- What unpacking does below the staging directory is an effect that
  -- leaves the lock file as it is.
  refine (hrun.within (K := IsUnpacking) (fun _ _ _ hc => isUnpacking_of_touches hc.2)
    ?_ ?_).post ?_
  · exact fun more w w' hmore hm => ⟨_, (hs.append hmore).holds, hm⟩
  · rintro more w c hmore ⟨hu, ht⟩
    cases ht with
    | lookTop => exact .idle trivial
    | look => exact .idle trivial
    | change ht =>
        refine .effect (hs.append hmore).holds fun top' id' t' hw happ => ?_
        obtain ⟨past', hs'⟩ := hu.since
        obtain ⟨rfl, rfl⟩ := hw.unique hs'.lockAt
        obtain ⟨hl, hcontent, -⟩ := hu.change hext hshort ht happ
        exact ⟨hl, hcontent⟩
  · rintro res _ w' ⟨hu', more, rfl, hmore⟩
    obtain ⟨past', hs'⟩ := hu'.since
    have hmore := hs.append hmore
    exact ⟨hs'.next rfl (.refl hs'.lockAt.closed) hmore.holds hmore.once, hu'.off, hu'.dir⟩

/-! ### The staging directory -/

structure NewStaging (o : Outside σ) (r : Root) (top : Location) (id : FileId) (h : Handle)
    (x : Name) (staging : Path) (w₀ : World σ) (past : List Answered) (w : World σ) : Prop
    extends Staging r top id h x w₀ past w where
  drawn : IsDrawn o x
  named : Path.Extends r.path [x] staging
  refusal : staging.refusal? = none
  short : x.length ≤ maxName
  vacant : w.tree.isVacantBelow (top ++ [x]) = true

theorem newStaging_of_mkdir {w' : World σ} {t' : Tree} {past' : List Answered}
    (hx : IsDrawn o x) (hext : Path.Extends r.path [x] staging)
    (hs : Since r top id h w₀ past w')
    (happ : (Change.mkdir staging).apply w'.tree w'.cwd = .ok t')
    (hs' : Since r top id h w₀ past' { w' with tree := t' }) :
    NewStaging o r top id h x staging w₀ past' { w' with tree := t' } := by
  have hl := hs.lockAt.mkdir (start_eq_of_extends hext) happ
  obtain ⟨harrive, rfl⟩ := (hs.lockAt.reaches.belowEntry hext).eq_of_mkdir happ
  obtain ⟨hnone, hshort, hvacant⟩ := arrive_single_iff.mp harrive
  refine ⟨⟨hs', (hs.lockAt.off_iff hl).mpr (hs.lockAt.off_of_none hvacant), _,
    node?_put_self _ _ (by simp)⟩, hx, hext, hnone, hshort,
    isVacantBelow_iff.mpr fun rel hne => ?_⟩
  rw [node?_put_of_ne _ _ fun he => hne (List.append_right_eq_self.mp he)]
  exact hs.lockAt.closed.node?_below (by simp [hvacant]) hne

theorem Since.amid_makeStaging (hs : Since r top id h w₀ past w) (ho : SparesLock o r)
    (hd : o.DrawsPlain) (tries : Nat) :
    (makeStaging r tries).run.Amid o (Meanwhile o r) (Obeys r)
      (fun res past' w' => Since r top id h w₀ past' w' ∧
        ∀ staging, res = .ok staging → ∃ x,
          NewStaging o r top id h x staging w₀ past' w') past w := by
  induction tries generalizing past w with
  | zero => exact ⟨hs, by simp⟩
  | succ tries ih =>
      rw [makeStaging]
      refine Amid.attempt_call_bind not_false fun w₁ hm => ⟨.idle trivial, ?_⟩
      have hidle : Obeys r past w₁ .draw := .idle trivial
      have hs₁ := (hs.meanwhile hm).turn ho hidle (by simp) (by simp) (.done _)
      have hx := isDrawn_stagingName hd w₁.outside
      have hext : Path.Extends r.path [stagingName (o.draw w₁.outside).1]
          (r.path / (⟨stagingName (o.draw w₁.outside).1⟩ : Path)) :=
        (Path.Extends.refl r.path).concat hx.plain
      refine hs₁.amid_attempt_change ho ?_ ?_ ?_
      · intro w' t' hs' _ happ
        exact ⟨hs'.lockAt.mkdir (start_eq_of_extends hext) happ, content_mkdir happ⟩
      · intro w' t' past' hs' _ happ hs''
        refine ⟨hs'', ?_⟩
        rintro _ ⟨⟩
        exact ⟨_, newStaging_of_mkdir hx hext hs' happ hs''⟩
      · intro e w' past' _ _ hs'
        cases e with
        | «exists» => exact ih hs'
        | _ => exact ⟨hs', by simp⟩

/-! ### The sources -/

theorem Staging.meanwhile (hst : Staging r top id h x w₀ past w) (hx : IsDrawn o x)
    (hm : Meanwhile o r past w w') : Staging r top id h x w₀ past w' := by
  have hl := hm.leaves top id hst.since.lockAt
  have hsame := hm.staging top id h hst.since.lockAt hst.since.holds x hx []
  refine ⟨hst.since.meanwhile hm, ?_, hsame ▸ hst.dir⟩
  rw [hm.cwd]
  exact (hst.since.lockAt.off_iff hl).mpr hst.off

theorem NewStaging.meanwhile (hn : NewStaging o r top id h x staging w₀ past w)
    (hm : Meanwhile o r past w w') : NewStaging o r top id h x staging w₀ past w' := by
  refine ⟨hn.toStaging.meanwhile hn.drawn hm, hn.drawn, hn.named, hn.refusal, hn.short, ?_⟩
  refine isVacantBelow_iff.mpr fun rel hne => ?_
  have hsame := hm.staging top id h hn.since.lockAt hn.since.holds x hn.drawn rel
  rw [List.append_assoc, List.singleton_append, hsame]
  simpa using isVacantBelow_iff.mp hn.vacant rel hne

/-- The sources are put in their place, or the staging directory stays. -/
theorem Staging.amid_move (hst : Staging r top id h x w₀ past w) (ho : SparesLock o r)
    (hx : IsDrawn o x) (hext : Path.Extends r.path [x] staging)
    (hnone : staging.refusal? = none) (hshort : x.length ≤ maxName)
    (hm : r.Missing w₀.cwd top .fetch w₀.tree) :
    (change (.renameDir staging r.sources)).run.Amid o (Meanwhile o r) (Obeys r)
      (fun _ past' w' => Since r top id h w₀ past' w' ∧
        r.Off w'.cwd w'.tree (top ++ [x])) past w := by
  have hmoved : ∀ w' t', Since r top id h w₀ past w' → Meanwhile o r past w w' →
      (Change.renameDir staging r.sources).apply w'.tree w'.cwd = .ok t' →
        r.Leaves w'.cwd w'.tree t' ∧ t'.bodies = w'.tree.bodies := by
    intro w' t' hs' hmw happ
    have hst' := hst.meanwhile hx hmw
    obtain ⟨mode, hdir⟩ := hst'.dir
    have hmissing := hs'.start.missing_next hs'.leaves hm
    rw [← hs'.cwd] at hmissing
    exact hs'.lockAt.renameDir_sources hext hx.ne_source.symm hst'.off hmissing
      (arrive_single_iff.mpr ⟨hnone, hshort, hdir⟩) happ
  refine Since.amid_change (f := pure) hst.since ho ?_ ?_ ?_
  · intro w' t' hs' hmw happ
    obtain ⟨hl, hbodies⟩ := hmoved w' t' hs' hmw happ
    exact ⟨hl, by rw [Tree.content, Tree.body?, hbodies]; rfl⟩
  · intro w' t' past' hs' hmw happ hs''
    obtain ⟨hl, -⟩ := hmoved w' t' hs' hmw happ
    exact ⟨hs'', (hs'.lockAt.off_iff hl).mpr (hst.meanwhile hx hmw).off⟩
  · intro e w' past' hmw _ hs'
    exact ⟨hs', (hst.meanwhile hx hmw).off⟩

theorem NewStaging.amid_unpackSources {archive : SourceArchive} {format : Format}
    {file : Bytes} (hn : NewStaging o r top id h x staging w₀ past w) (ho : SparesLock o r)
    (hm : r.Missing w₀.cwd top .fetch w₀.tree) :
    (unpackSources archive r format file staging).run.Amid o (Meanwhile o r) (Obeys r)
      (fun _ past' w' => Since r top id h w₀ past' w' ∧
        r.Off w'.cwd w'.tree (top ++ [x])) past w := by
  rw [unpackSources]
  refine Amid.attempt_call_bind not_false fun w₁ hm₁ => ⟨.idle trivial, ?_⟩
  have hn₁ := hn.meanwhile hm₁
  have hidle : Obeys r past w₁ (.log .info "extracting sources") := .idle trivial
  have hs₁ := hn₁.since.turn ho hidle (by simp) (by simp) (.done _)
  refine Amid.attempt_bind
    (hs₁.amid_extract hn.drawn hn.named hn.short hn₁.off hn₁.dir hn₁.vacant
      file format archive.top) ?_ fun _ _ _ hst => ⟨hst.since, hst.off⟩
  intro entries past₂ w₂ hst
  split
  · exact ⟨hst.since, hst.off⟩
  · have hmove := hst.amid_move ho hn.drawn hn.named hn.refusal hn.short hm
    refine Amid.adapt_bind hmove ?_ fun _ _ _ hend => hend
    rintro ⟨⟩ past₃ w₃ ⟨hs₃, hoff⟩
    refine Amid.attempt_call_bind not_false fun w₄ hm₄ => ⟨.idle trivial, ?_⟩
    have hlog : (Call.log .info "sources ready").IsIdle := trivial
    have hidle : Obeys r past₃ w₄ (.log .info "sources ready") := .idle hlog
    refine ⟨(hs₃.meanwhile hm₄).turn ho hidle (by simp) (by simp) (.done _), ?_⟩
    rw [World.cwd_of_isIdle o w₄ hlog, World.tree_of_isIdle o w₄ hlog, hm₄.cwd]
    exact (hs₃.lockAt.off_iff (hm₄.leaves top id hs₃.lockAt)).mpr hoff

theorem Since.amid_withStaging {archive : SourceArchive} {format : Format} {file : Bytes}
    (hs : Since r top id h w₀ past w) (ho : SparesLock o r) (hd : o.DrawsPlain)
    (hm : r.Missing w₀.cwd top .fetch w₀.tree) :
    (withStaging r (unpackSources archive r format file)).run.Amid o (Meanwhile o r) (Obeys r)
      (fun _ past' w' => Since r top id h w₀ past' w') past w := by
  rw [withStaging]
  refine Amid.adapt_bind (hs.amid_makeStaging ho hd maxTries) ?_ fun _ _ _ hend => hend.1
  rintro staging past' w' ⟨-, hnew⟩
  obtain ⟨x, hn⟩ := hnew staging rfl
  refine (hn.amid_unpackSources ho hm).bind ?_
  rintro res past'' w'' ⟨hs'', hoff⟩
  refine amid_change hs'' ho ?_ ?_ ?_
  · intro w₁ t₁ hs₁ hm₁ happ
    have hl := hm₁.leaves top id hs''.lockAt
    have hoff₁ : r.Off w₁.cwd w₁.tree (top ++ [x]) :=
      hm₁.cwd ▸ (hs''.lockAt.off_iff hl).mpr hoff
    obtain ⟨hl₁, hbodies⟩ := hs₁.lockAt.removeAll hn.named hoff₁ happ
    exact ⟨hl₁, by rw [Tree.content, Tree.body?, hbodies]; rfl⟩
  · exact fun _ _ _ _ _ _ hend => hend
  · exact fun _ _ _ _ _ hend => hend

theorem Since.amid_makeRoot (hs : Since r top id h w₀ past w) (ho : SparesLock o r) :
    (makeDirs r.path).run.Amid o (Meanwhile o r) (Obeys r)
      (fun _ past' w' => Since r top id h w₀ past' w') past w := by
  by_cases hne : r.path.components = []
  · rw [makeDirs, if_pos hne]
    exact hs
  · have hmade : Made r top id h w₀ (fun _ => True) r.path :=
      ⟨fun _ _ _ _ _ => trivial, fun _ _ _ _ => trivial⟩
    refine (hs.amid_makeDirs hmade hne ho fun q hq => ?_).post fun _ _ _ hend => hend.1
    rw [start_lock, Path.start, Path.start, (isOnWay_of_mem hq).isAbsolute_eq]

theorem Since.amid_fetch (hs : Since r top id h w₀ past w) (ho : SparesLock o r)
    (hd : o.DrawsPlain) (archive : SourceArchive) :
    (fetch archive r r.record).run.Amid o (Meanwhile o r) (Obeys r)
      (fun _ past' w' => Since r top id h w₀ past' w') past w := by
  rw [fetch]
  refine Amid.attempt_lift_bind (hs.amid_isDir ho (p := r.sources)) ?_
  rintro found past₁ w₁ ⟨hs₁, hfound⟩
  cases found with
  | true => exact hs₁.amid_free ho (.idle trivial) fun _ _ _ hs' => hs'
  | false =>
      -- The record has found no sources, so their place is off the way or free to be taken.
      have hm : r.Missing w₁.cwd top .fetch w₁.tree := fun _ => hfound.symm
      simp only [Bool.false_eq_true, if_false]
      cases Format.ofUrl? archive.url with
      | none => exact hs₁
      | some format =>
          have hw₁ : Since r top id h w₁ past₁ w₁ := hs₁.toWorking.since
          have hend : ∀ past' w', Since r top id h w₁ past' w' →
              Since r top id h w₀ past' w' :=
            fun _ _ hs' => hs₁.trans hs'
          refine Amid.adapt_bind (hw₁.amid_makeRoot ho) ?_ fun _ => hend
          rintro ⟨⟩ past₂ w₂ hs₂
          have hdownload : (download archive.url).run.Only (Free r) :=
            (Download.download_onlyIdle archive.url).mono fun _ => .idle
          refine Amid.attempt_bind (hs₂.amid_only ho hdownload) ?_ fun _ => hend
          intro file past₃ w₃ hs₃
          rw [ExceptT.run_bind]
          rcases checkDigest_run archive file with hdigest | ⟨e, hdigest⟩
          · rw [hdigest]
            exact (hs₃.amid_withStaging ho hd hm).post fun _ => hend
          · rw [hdigest]
            exact hend _ _ hs₃

end Root

end LlvmBootstrap
