import LlvmBootstrap.Proofs.Machine.Along
import LlvmBootstrap.Proofs.Root.Frame
import LlvmBootstrap.Proofs.Sources.Atomic

/-!
The parts of a run keep to the frame: making the root, taking its lock, fetching, and the
stages of a build. The tree stays one that a file system can have all along.
-/

namespace LlvmBootstrap

open Archive LlvmBootstrap.Tree Program Sources

def Outside.KeepsSound {σ : Type} (o : Outside σ) : Prop :=
  ∀ (w : World σ) output cmd, w.IsSound → (w.perform o (.spawn output cmd)).2.IsSound

def Call.IsStill : Call → Prop
  | .change _ | .openFile _ | .truncate _ | .write _ _ | .spawn _ _ => False
  | _ => True

theorem World.still_of_isStill {σ : Type} (o : Outside σ) (w : World σ) {c : Call}
    (h : c.IsStill) :
    w.Still (w.perform o c).2 := by
  cases c with
  | change c => exact h.elim
  | openFile p => exact h.elim
  | truncate h' => exact h.elim
  | write h' bytes => exact h.elim
  | spawn output c => exact h.elim
  | tryLock h' =>
      simp only [World.perform, World.tryLock]
      repeat' split
      all_goals exact ⟨rfl, rfl⟩
  | rewind h' =>
      simp only [World.perform, World.rewind]
      split <;> exact ⟨rfl, rfl⟩
  | readRest h' =>
      simp only [World.perform, World.readRest]
      split <;> exact ⟨rfl, rfl⟩
  | _ => exact ⟨rfl, rfl⟩

theorem World.IsSound.still {σ : Type} {w w' : World σ} (hw : w.IsSound) (h : w.Still w') :
    w'.IsSound := by
  refine ⟨h.1 ▸ hw.closed, ?_⟩
  rw [h.1, h.2]
  exact hw.cwd

namespace Root

variable {σ : Type} {o : Outside σ} {b : Build} {a : Arch} {past : List Answered} {r : Root}
  {w w' : World σ} {c : Call} {s : Stage} {top : Location} {qs : List Path}

theorem along_of_throughout {α : Type} {p : Program α} {Q : α → World σ → Prop}
    (h : p.Throughout o (Frame o b a past) Q w) :
    p.Along o (Frame o b a) (fun x past' w' => past ⊆ past' ∧ Q x w') past w :=
  .of_throughout h fun _ _ _ _ => Frame.mono

/-! ### Single calls -/

theorem Frame.of_isStill (h : c.IsStill) : Frame o b a past w c :=
  .idle (w.still_of_isStill o h).1

theorem Frame.of_asks (h : c.Asks) : Frame o b a past w c := by
  cases h with
  | collect cmd => exact .tool ..
  | _ => exact .of_isStill trivial

theorem Frame.of_refused {ch : Change} {e : Errno} (h : ch.apply w.tree w.cwd = .error e) :
    Frame o b a past w (.change ch) :=
  .idle (by rw [World.perform_change_error h])

/-- A directory that can be made is not there, so neither is what it is on the way to. -/
theorem not_reaches_of_mkdir {p q : Path} {t' : Tree} {mode : Mode} (hw : w.IsSound)
    (hq : q.IsOnWay p) (h : w.tree.mkdir w.cwd q mode = .ok t') (top : Location) :
    ¬ Reaches w.tree w.cwd p top := by
  intro hr
  obtain ⟨loc, hr'⟩ := hr.of_isOnWay hw.closed (dir_start hw.cwd _) hq
  rw [hr'.mkdir] at h
  contradiction

theorem Frame.of_mkdir {q : Path} (hw : w.IsSound) (hq : q.IsOnWay b.root.path) :
    Frame o b a past w (.change (.mkdir q)) := by
  cases happ : (Change.mkdir q).apply w.tree w.cwd with
  | error e => exact .of_refused happ
  | ok t' =>
      obtain ⟨-, loc, hvacant, rfl, hr⟩ := Reaches.of_mkdir hw.closed (dir_start hw.cwd _) happ
      refine .way hq (not_reaches_of_mkdir hw hq happ) hvacant ?_ hr
      rw [World.perform_change_ok happ]

theorem Frame.of_making (hw : w.IsSound) (hqs : ∀ q ∈ qs, q.IsOnWay b.root.path)
    (hc : Making qs c) : Frame o b a past w c := by
  cases hc with
  | look p => exact .of_isStill trivial
  | mkdir hq => exact .of_mkdir hw (hqs _ hq)

theorem isOnWay_of_mem {p q : Path} (h : q ∈ p :: ancestors p) : q.IsOnWay p := by
  rcases List.mem_cons.mp h with rfl | h
  · exact .refl _
  · exact (Path.isAbove_of_mem_ancestors h).isOnWay

/-- Where the entry of a stage can be resolved, the root is there. -/
theorem reaches_of_resolve {follow : Bool} {spot : Spot} (hw : w.IsSound)
    (h : w.tree.resolve w.cwd follow (r.marker s) = .ok spot) :
    ∃ top, Reaches w.tree w.cwd r.path top :=
  Reaches.of_resolve hw.closed (dir_start hw.cwd _) (r.extends_marker s) h

theorem trimSlashes_marker (r : Root) (s : Stage) : trimSlashes (r.marker s) = r.marker s := by
  have hsteps := ((r.extends_marker s).last (List.cons_ne_nil _ _)).1
  rw [(r.extends_marker s).moves_eq] at hsteps
  exact trimSlashes_of_steps (List.cons_ne_nil _ _) hsteps

/-- Making the build tree with what is missing above it. -/
theorem Frame.of_making_marker (hw : w.IsSound)
    (hmissing : FoundMissing b.root past (.configure a))
    (hc : Making
      (b.root.marker (.configure a) :: ancestors (b.root.marker (.configure a))) c) :
    Frame o b a past w c := by
  have hext := b.root.extends_marker (.configure a)
  cases hc with
  | look p => exact .of_isStill trivial
  | @mkdir q hq =>
      rcases List.mem_cons.mp hq with rfl | hq
      · cases happ : (Change.mkdir (b.root.marker (.configure a))).apply w.tree w.cwd with
        | error e => exact .of_refused happ
        | ok t' =>
            obtain ⟨dir, n, hresolve, -⟩ := mkdir_eq_ok happ
            rw [trimSlashes_marker] at hresolve
            obtain ⟨top, hr⟩ := reaches_of_resolve hw hresolve
            obtain ⟨harrive, rfl⟩ := (hr.belowEntry hext).eq_of_mkdir happ
            obtain ⟨-, -, hvacant⟩ := arrive_single_iff.mp harrive
            have htree := congrArg (·.2.tree) (World.perform_change_ok (o := o) happ)
            exact .build hr hmissing hvacant htree
      · exact .of_mkdir hw ((Path.isAbove_of_mem_ancestors hq).isOnWay_of_extends hext)

/-- What is removed of an entry is all that stands there. -/
theorem without_removeAll {p : Path} {n : Name} {t t' : Tree} {cwd : Location} (hc : t.Closed)
    (hp : Below t cwd top p [n]) (h : t.removeAll cwd p = .ok t') :
    Without t t' (fun loc => isWithin (top ++ [n]) loc = true) ∧ t'.bodies = t.bodies := by
  rw [hp.removeAll] at h
  split at h
  · contradiction
  · contradiction
  · obtain rfl := Except.ok.inj h
    exact ⟨without_prune (by simp), rfl⟩
  · contradiction
  · rename_i target harrive
    obtain rfl := Except.ok.inj h
    have hremoved := without_remove (t := t) (show top ++ [n] ≠ [] by simp)
    have hlink := node?_of_arrive (List.cons_ne_nil _ _) harrive
    refine ⟨⟨fun loc hloc => hremoved.kept _ ?_, fun loc hloc => ?_⟩, rfl⟩
    · rintro rfl
      exact hloc (isWithin_self _)
    · obtain ⟨rel, rfl⟩ := isWithin_iff.mp hloc
      by_cases hrel : rel = []
      · exact hremoved.removed _ (by rw [hrel, List.append_nil])
      · rw [hremoved.kept _ (by simpa using hrel)]
        exact hc.node?_below (by simp [hlink]) hrel

theorem Frame.of_removeAll (hw : w.IsSound) (hmissing : FoundMissing b.root past s)
    (hfailed : HasFailed b a past s) :
    Frame o b a past w (.change (.removeAll (b.root.marker s))) := by
  cases happ : (Change.removeAll (b.root.marker s)).apply w.tree w.cwd with
  | error e => exact .of_refused happ
  | ok t' =>
      obtain ⟨loc, n, hlookup, -⟩ := removeAll_eq_ok happ
      obtain ⟨spot, hresolve⟩ := exists_resolve_of_lookup hlookup
      obtain ⟨top, hr⟩ := reaches_of_resolve hw hresolve
      obtain ⟨hwithout, hbodies⟩ :=
        without_removeAll hw.closed (hr.belowEntry (b.root.extends_marker s)) happ
      have htree := congrArg (·.2.tree) (World.perform_change_ok (o := o) happ)
      refine .reset hr hmissing hfailed (htree ▸ hwithout) ?_
      rw [htree, hbodies]

/-! ### Fetching -/

variable {m w₀ : World σ} {archive : SourceArchive}

/-- Putting the sources in their place. -/
theorem Frame.of_renameDir {p : Path} (hw : w.IsSound)
    (hr : Reaches w.tree w.cwd b.root.path top) (hmissing : FoundMissing b.root past .fetch)
    (hsame : ∀ t', (Change.renameDir p b.root.sources).apply w.tree w.cwd = .ok t' →
      ∀ loc, isWithin (top ++ [markerName .fetch]) loc = false →
        (∀ x, IsDrawn o x → isWithin (top ++ [x]) loc = false) →
          t'.node? loc = w.tree.node? loc) :
    Frame o b a past w (.change (.renameDir p b.root.sources)) := by
  cases happ : (Change.renameDir p b.root.sources).apply w.tree w.cwd with
  | error e => exact .of_refused happ
  | ok t' =>
      have htree := congrArg (·.2.tree) (World.perform_change_ok (o := o) happ)
      have hbelow := hr.belowEntry (b.root.extends_marker .fetch)
      obtain ⟨hbodies, rfl | ⟨hdir, hvacant⟩⟩ := free_of_renameDir hw.closed hbelow happ
      · exact .idle htree
      · refine .sources hr hmissing ⟨hdir, fun rel hne => ?_⟩ ?_
        · rw [← List.singleton_append, ← List.append_assoc]
          exact isVacantBelow_iff.mp hvacant rel hne
        · rw [htree]
          refine ⟨hsame t' happ, fun id body hbody => ?_⟩
          rw [Tree.body?, hbodies]
          exact hbody

theorem Frame.of_fetches (hfilled : m.tree.Filled)
    (hgrow : MoreDirs (b.root.path :: ancestors b.root.path) w₀ m)
    (hmissing : FoundMissing b.root past .fetch) (h : Fetches o archive b.root w₀ m w c) :
    Frame o b a past w c := by
  -- What has been made in the root since then does not change the way to it.
  have hreaches : ∀ {top}, Before o b.root w₀ m w → Reaches m.tree m.cwd b.root.path top →
      Apart o top m.tree w.tree → Reaches w.tree w.cwd b.root.path top := by
    intro top hbefore hr hapart
    rw [cwd_of_before hgrow hbefore, ← hgrow.1]
    exact hr.mono hapart.routes
  cases h with
  | aside hbefore hc hmakes hnext =>
      cases hmakes with
      | root hmakes => exact .of_making hmakes.1 (fun _ => isOnWay_of_mem) hmakes.2.2
      | staging hr hapart hapart' =>
          refine .staging (hreaches hbefore hr hapart)
            ⟨fun loc hloc => ?_, fun loc id hloc hn => ?_⟩
          · rw [hapart'.nodes loc hloc, hapart.nodes loc hloc]
          · rw [hapart.nodes loc hloc] at hn
            obtain ⟨body, hbody⟩ := hfilled loc id hn
            rw [hapart.bodies id body hbody, hapart'.bodies id body hbody]
  | move hbefore hsound hr hapart hnext =>
      refine .of_renameDir hsound (hreaches hbefore hr hapart) hmissing
        fun t' happ loc hloc hdrawn => ?_
      rw [World.perform_change_ok happ] at hnext
      cases hnext with
      | done hafter =>
          obtain rfl := hr.unique hafter.root
          exact (hafter.nodes loc hloc).trans (hapart.nodes loc hdrawn).symm
  | log hafter => exact .idle rfl
  | removeAll hafter hnext => exact .idle (by rw [hnext])

theorem look_ne_dir {p : Path} (h : w.tree.isDir w.cwd p = false) :
    (w.perform o (.look true p)).1 ≠ .ok .dir := by
  rw [Tree.isDir] at h
  rw [World.perform]
  cases hl : w.tree.lookup w.cwd true p with
  | error e => rintro ⟨⟩
  | ok found =>
      obtain ⟨loc, node⟩ := found
      cases node with
      | dir mode => simp [hl] at h
      | file id => rintro ⟨⟩
      | link target => rintro ⟨⟩

theorem filled_of_newDirs {t t' : Tree} (h : NewDirs t t') (ht : t.Filled) : t'.Filled := by
  intro loc id hn
  rcases h.nodes loc with heq | ⟨-, mode, hdir⟩
  · rw [Tree.body?, h.bodies]
    exact ht loc id (heq.symm.trans hn)
  · exact absurd (hdir.symm.trans hn) (by simp)

theorem along_fetch (hw : w.IsSound) (hfilled : w.tree.Filled) (hd : o.DrawsPlain)
    (archive : SourceArchive) (past : List Answered) :
    (fetch archive b.root b.root.record).run.Along o (Frame o b a)
      (fun res past' w' => past ⊆ past' ∧ ∀ f, res = .ok f → w'.IsSound) past w := by
  by_cases hidle : isFetched b.root w = true ∨ Format.ofUrl? archive.url = none
  · have hrun := (throughout_idle (o := o) hidle).forward (fun _ _ h => h) fun _ _ h => h.1
    have hframe : (fetch archive b.root b.root.record).run.Throughout o (Frame o b a past)
        (fun _ w' => w.Still w') w :=
      hrun.imp (fun w' c hc => .idle (hc.2.1.trans hc.1.1.symm)) fun _ _ h => h.1
    exact (along_of_throughout hframe).post fun _ _ _ h => ⟨h.1, fun _ _ => hw.still h.2⟩
  · obtain ⟨hinc, hformat⟩ := not_or.mp hidle
    rw [Bool.not_eq_true] at hinc
    obtain ⟨format, hformat⟩ := Option.ne_none_iff_exists'.mp hformat
    obtain ⟨hmade, hgrow⟩ := madeDir_rootMade (o := o) (r := b.root) hw rfl
    have hfilled' := filled_of_newDirs hgrow.2.newDirs hfilled
    -- the first call asks the record, and what the rest may do rests on the answer
    obtain ⟨-, hrest⟩ := throughout_fetch (o := o) hw hd hinc hformat rfl
    have hmissing : FoundMissing b.root
        (past ++ [⟨.look true b.root.sources, (w.perform o (.look true b.root.sources)).1⟩])
        .fetch :=
      ⟨_, List.mem_append_right _ (List.mem_singleton.mpr rfl), look_ne_dir hinc⟩
    refine ⟨.of_isStill trivial, ?_⟩
    refine (along_of_throughout (hrest.imp (fun w' c => .of_fetches hfilled' hgrow hmissing)
      fun _ _ h => h)).post ?_
    rintro (e | ⟨⟩ | k) past' w' ⟨hsub, hend⟩
    · exact ⟨fun _ hx => hsub (List.mem_append_left _ hx), fun _ => nofun⟩
    · exact hend.elim
    · obtain ⟨top, hafter⟩ := hend
      exact ⟨fun _ hx => hsub (List.mem_append_left _ hx), fun _ _ => hafter.isSound hmade.1⟩

/-! ### The stages of a build -/

open Build (Does Part)

variable {p : Part} {t : Toolchain} {cmd : Command}

theorem along_isComplete (s : Stage) (past : List Answered) (w : World σ) :
    (b.root.isComplete s).Along o (Frame o b a)
      (fun done past' w' => w' = w ∧ past ⊆ past' ∧
        (done = false → FoundMissing b.root past' s))
      past w := by
  have hmem : ∀ x : Answered, x ∈ past ++ [x] := fun x =>
    List.mem_append_right _ (List.mem_singleton.mpr rfl)
  refine Along.call_bind_iff.mpr ⟨.of_isStill trivial, ?_⟩
  cases hlook : (w.perform o (.look true (b.root.marker s))).1 with
  | error e => exact ⟨rfl, List.subset_append_left .., fun _ => ⟨_, hmem _, nofun⟩⟩
  | ok kind =>
      cases kind with
      | dir => exact ⟨rfl, List.subset_append_left .., nofun⟩
      | file => exact ⟨rfl, List.subset_append_left .., fun _ => ⟨_, hmem _, nofun⟩⟩
      | link => exact ⟨rfl, List.subset_append_left .., fun _ => ⟨_, hmem _, nofun⟩⟩

theorem along_asks {α : Type} {q : Program α} (ho : o.KeepsSound) (hq : q.Only Call.Asks)
    (hw : w.IsSound) (past : List Answered) :
    q.Along o (Frame o b a) (fun _ past' w' => past ⊆ past' ∧ w'.IsSound) past w := by
  refine along_of_throughout
    (hq.throughout (I := World.IsSound) (fun w c hw hc => ⟨.of_asks hc, ?_⟩) hw)
  cases hc with
  | collect cmd => exact ho w _ cmd hw
  | _ => exact hw.still (w.still_of_isStill o trivial)

theorem along_environment_bind {β : Type} {f : Variables → Work BuildError β}
    {R : Except BuildError β × Toolchain → List Answered → World σ → Prop} (ho : o.KeepsSound)
    (hasks : b.host.OnlyAsks) (hw : w.IsSound)
    (hok : ∀ vars t past' w', past ⊆ past' → w'.IsSound →
      ((f vars).start t).Along o (Frame o b a) R past' w')
    (herr : ∀ e t past' w', past ⊆ past' → R (.error e, t) past' w') :
    (((Work.environment b.host).adapt .platform >>= f).start t).Along o
      (Frame o b a) R past w := by
  have henv := along_asks (a := a) (b := b) ho (Work.environment_onlyAsks hasks t) hw past
  refine Along.work_bind (P := fun _ past' w' => past ⊆ past' ∧ w'.IsSound)
    (.work_adapt henv) ?_ ?_
  · exact fun vars t past' w' h => hok vars t past' w' h.1 h.2
  · exact fun e t past' w' h => herr e t past' w' h.1

theorem along_makeMarker (hw : w.IsSound)
    (hmissing : FoundMissing b.root past (.configure a)) :
    (makeDirs (b.root.build a)).run.Along o (Frame o b a)
      (fun _ past' w' => past ⊆ past' ∧ w'.IsSound) past w := by
  have hmake : (makeDirs (b.root.build a)).run.Throughout o (Frame o b a past)
      (fun _ w' => w'.IsSound) w :=
    (throughout_makeDirs hw).imp (fun _ _ hc => .of_making_marker hc.1 hmissing hc.2.2)
      fun _ _ h => h.1
  exact along_of_throughout hmake

theorem isSound_log (hw : w.IsSound) (level : Level) (text : String) :
    (w.perform o (.log level text)).2.IsSound :=
  hw.still (w.still_of_isStill o trivial)

/-- What a stage does before its command. -/
theorem along_ready (ho : o.KeepsSound) (hasks : b.host.OnlyAsks) (hw : w.IsSound)
    (hmissing : FoundMissing b.root past (p.stage a)) :
    ((p.ready b a).start t).Along o (Frame o b a) (fun res past' w' => past ⊆ past' ∧
      ∀ cmd, res.1 = .ok cmd → Does b a (p.stage a) cmd ∧ w'.IsSound) past w := by
  cases p with
  | configure =>
      rw [Part.ready]
      cases b.host.generator a with
      | error e => exact ⟨List.Subset.refl _, by simp⟩
      | ok generator =>
          refine along_environment_bind ho hasks hw (fun vars t past₁ w₁ hsub₁ hw₁ => ?_)
            fun _ _ _ _ h => ⟨h, by simp⟩
          refine Along.work_call_bind (.of_isStill trivial) ?_
          refine Along.ofAttempt_bind (P := fun _ past' w' => past ⊆ past' ∧ w'.IsSound)
            (.adapt (.post (along_makeMarker (isSound_log hw₁ ..)
              ((hmissing.mono hsub₁).mono (List.subset_append_left ..))) ?_)) ?_
            fun _ _ _ h => ⟨h.1, by simp⟩
          · rintro res past' w' ⟨hsub₂, hw'⟩
            exact ⟨fun _ hx => hsub₂ (List.mem_append_left _ (hsub₁ hx)), hw'⟩
          · rintro u past' w' ⟨hsub, hw'⟩
            refine ⟨hsub, ?_⟩
            rintro _ ⟨⟩
            exact ⟨.configure generator vars, hw'⟩
  | install =>
      rw [Part.ready]
      refine along_environment_bind ho hasks hw (fun vars t past₁ w₁ hsub₁ hw₁ => ?_)
        fun _ _ _ _ h => ⟨h, by simp⟩
      refine Along.work_call_bind (.of_isStill trivial) ⟨?_, ?_⟩
      · exact fun _ hx => List.mem_append_left _ (hsub₁ hx)
      · rintro _ ⟨⟩
        exact ⟨.install vars, isSound_log hw₁ ..⟩

theorem along_reset (hw : w.IsSound) (hmissing : FoundMissing b.root past s)
    (hfailed : HasFailed b a past s) :
    (b.root.reset s).run.Along o (Frame o b a) (fun _ past' _ => past ⊆ past') past w := by
  have hreset : (b.root.reset s).run.Throughout o (Frame o b a past) (fun _ _ => True) w := by
    refine Throughout.attempt_call_bind_iff.mpr ⟨.of_removeAll hw hmissing hfailed, ?_⟩
    split <;> exact trivial
  exact (along_of_throughout hreset).post fun _ _ _ h => h.1

/-- The command of a stage, and the reset if it fails. -/
theorem along_runStage (ho : o.KeepsSound) (hr : b.record = b.root.record) (hw : w.IsSound)
    (hdoes : Does b a s cmd) (hmissing : FoundMissing b.root past s) :
    (b.runStage s cmd).run.Along o (Frame o b a)
      (fun res past' w' => past ⊆ past' ∧ ∀ u, res = .ok u → w'.IsSound) past w := by
  rw [Part.run_runStage]
  refine Along.call_bind_iff.mpr ⟨.tool .., ?_⟩
  have hw₁ := ho w .shared cmd hw
  generalize hanswer : (w.perform o (.spawn .shared cmd)).1 = answer
  cases hfailure : Build.failure? s cmd answer with
  | none => exact ⟨List.subset_append_left .., fun _ _ => hw₁⟩
  | some e =>
      have hfailed : HasFailed b a (past ++ [⟨.spawn .shared cmd, answer⟩]) s :=
        ⟨cmd, answer, hdoes, List.mem_append_right _ (List.mem_singleton.mpr rfl),
          (Build.fails_of_failure? hfailure).1⟩
      refine Along.call_bind_iff.mpr ⟨.of_isStill trivial, ?_⟩
      rw [hr]
      refine (along_reset (isSound_log hw₁ ..)
        ((hmissing.mono (List.subset_append_left ..)).mono
        (List.subset_append_left ..)) (hfailed.mono (List.subset_append_left ..))).bind ?_
      intro r past' w' hsub
      have hsub' : past ⊆ past' := fun _ hx =>
        hsub (List.mem_append_left _ (List.mem_append_left _ hx))
      rcases r with e' | ⟨⟩
      · refine Along.call_bind_iff.mpr ⟨.of_isStill trivial, ?_⟩
        exact ⟨fun _ hx => List.mem_append_left _ (hsub' hx), fun _ => nofun⟩
      · exact ⟨hsub', fun _ => nofun⟩

theorem along_check (hr : b.record = b.root.record) (hw : w.IsSound) (p : Part) :
    (p.check b a).Along o (Frame o b a)
      (fun _ past' w' => past ⊆ past' ∧ w'.IsSound) past w := by
  cases p with
  | configure => exact ⟨List.Subset.refl _, hw⟩
  | install =>
      rw [Part.check, hr]
      refine (along_isComplete (.install a) past w).bind ?_
      rintro (_ | _) past' w' ⟨rfl, hsub, -⟩
      · exact ⟨.of_isStill trivial, fun _ hx => List.mem_append_left _ (hsub hx),
          isSound_log hw ..⟩
      · exact ⟨hsub, hw⟩

/-- A whole stage of a build. -/
theorem along_work (ho : o.KeepsSound) (hasks : b.host.OnlyAsks)
    (hr : b.record = b.root.record) (hw : w.IsSound) (p : Part) (t : Toolchain)
    (past : List Answered) :
    ((p.work b a).start t).Along o (Frame o b a)
      (fun res past' w' => past ⊆ past' ∧ ∀ out, res.1 = .ok out → w'.IsSound) past w := by
  rw [Part.start_work, hr]
  refine (along_isComplete (p.stage a) past w).bind ?_
  rintro (_ | _) past₁ w₁ ⟨rfl, hsub₁, hmissing⟩
  · refine (along_ready ho hasks hw (hmissing rfl)).bind ?_
    rintro ⟨e | cmd, t'⟩ past₂ w₂ ⟨hsub₂, hdoes⟩
    · exact ⟨List.Subset.trans hsub₁ hsub₂, fun _ => nofun⟩
    · obtain ⟨hdoes, hw₂⟩ := hdoes cmd rfl
      refine (along_runStage ho hr hw₂ hdoes ((hmissing rfl).mono hsub₂)).bind ?_
      rintro (e | ⟨⟩) past₃ w₃ ⟨hsub₃, hw₃⟩
      · exact ⟨List.Subset.trans hsub₁ (List.Subset.trans hsub₂ hsub₃), fun _ => nofun⟩
      · refine (along_check hr (hw₃ () rfl) p).bind ?_
        rintro ⟨⟩ past₄ w₄ ⟨hsub₄, hw₄⟩
        exact ⟨List.Subset.trans hsub₁
          (List.Subset.trans hsub₂ (List.Subset.trans hsub₃ hsub₄)), fun _ _ => hw₄⟩
  · exact ⟨.of_isStill trivial, fun _ hx => List.mem_append_left _ (hsub₁ hx), fun _ _ =>
      isSound_log hw ..⟩

/-- Both stages of a build. -/
theorem along_build (ho : o.KeepsSound) (hasks : b.host.OnlyAsks)
    (hr : b.record = b.root.record) (hw : w.IsSound) (t : Toolchain) (past : List Answered) :
    ((b.run a).start t).Along o (Frame o b a)
      (fun res past' w' => past ⊆ past' ∧ ∀ p, res.1 = .ok p → w'.IsSound) past w := by
  rw [Build.run]
  refine Along.work_bind (along_work ho hasks hr hw .configure t past) ?_
    fun _ _ _ _ h => ⟨h.1, fun _ => nofun⟩
  rintro out t₁ past₁ w₁ ⟨hsub₁, hw₁⟩
  refine Along.work_bind (along_work ho hasks hr (hw₁ out rfl) .install t₁ past₁) ?_
    fun _ _ _ _ h => ⟨List.Subset.trans hsub₁ h.1, fun _ => nofun⟩
  rintro out' t₂ past₂ w₂ ⟨hsub₂, hw₂⟩
  exact ⟨List.Subset.trans hsub₁ hsub₂, fun _ _ => hw₂ out' rfl⟩

end Root

end LlvmBootstrap
