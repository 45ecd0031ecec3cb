import LlvmBootstrap.Proofs.Root.FrameSteps
import LlvmBootstrap.Proofs.Root.Running

/-!
The lock file of a root. A run opens it, which makes it if need be, takes its lock and writes
its record into it; nothing else of the files is touched by that, for the lock file has no
other name.
-/

namespace LlvmBootstrap

open LlvmBootstrap.Tree Program

namespace Tree

variable {t t' : Tree} {loc : Location} {id : FileId}

theorem Filled.of_kept (ht : t.Filled) (hn : ∀ loc, t'.node? loc = t.node? loc)
    (hb : t.bodies.length ≤ t'.bodies.length) : t'.Filled := by
  intro loc id hid
  obtain ⟨b, hbody⟩ := ht loc id ((hn loc).symm.trans hid)
  obtain ⟨hlt, -⟩ := List.getElem?_eq_some_iff.mp hbody
  exact ⟨_, List.getElem?_eq_getElem (Nat.lt_of_lt_of_le hlt hb)⟩

theorem Filled.of_entries (h : t.nodes.entries.all (fun e => match e.2 with
    | .file id => id < t.bodies.length
    | _ => true) = true) : t.Filled := by
  intro loc id hid
  cases loc with
  | nil => exact nomatch Option.some.inj hid
  | cons n loc =>
      have hlt := List.all_eq_true.mp h _ (SortedMap.get?_eq_some_iff.mp hid)
      exact ⟨_, List.getElem?_eq_getElem (of_decide_eq_true hlt)⟩

theorem body?_setContent_of_ne {content : Bytes} {id' : FileId} (h : id' ≠ id) :
    (t.setContent id content).body? id' = t.body? id' :=
  List.getElem?_set_ne h.symm

end Tree

namespace Root

variable {σ : Type} {o : Outside σ} {b : Build} {a : Arch} {past : List Answered} {r : Root}
  {w w' : World σ} {c : Call} {top : Location} {h : Handle} {t t' : Tree}

structure PlainLock (top : Location) (t : Tree) : Prop where
  not_link : ∀ target, t.node? (top ++ [lockName]) ≠ some (.link target)
  single : ∀ id loc, t.node? (top ++ [lockName]) = some (.file id) →
    t.node? loc = some (.file id) →
    loc = top ++ [lockName]

theorem PlainLock.of_newDirs (h : NewDirs t t') (hp : PlainLock top t) : PlainLock top t' := by
  have hback : ∀ loc node, (∀ mode, node ≠ .dir mode) → t'.node? loc = some node →
      t.node? loc = some node := by
    intro loc node hne hn
    rcases h.nodes loc with heq | ⟨-, mode, hdir⟩
    · exact heq.symm.trans hn
    · exact absurd (Option.some.inj (hn.symm.trans hdir)) (hne mode)
  refine ⟨fun target ht => hp.not_link target (hback _ _ nofun ht), fun id loc hl hn => ?_⟩
  exact hp.single id loc (hback _ _ nofun hl) (hback _ _ nofun hn)

structure LockOpen (r : Root) (top : Location) (h : Handle) (w : World σ) : Prop where
  sound : w.IsSound
  filled : w.tree.Filled
  reaches : Reaches w.tree w.cwd r.path top
  file : ∃ f, w.file? h = some f ∧
    ∀ loc, w.tree.node? loc = some (.file f.id) → loc = top ++ [lockName]

/-- A call that leaves everything in its place and the handle open. -/
theorem LockOpen.next (hw : LockOpen r top h w) (hcwd : w'.cwd = w.cwd)
    (hn : ∀ loc, w'.tree.node? loc = w.tree.node? loc)
    (hb : w.tree.bodies.length ≤ w'.tree.bodies.length)
    (hfile : (w'.file? h).map OpenFile.id = (w.file? h).map OpenFile.id) :
    LockOpen r top h w' := by
  obtain ⟨f, hf, hsingle⟩ := hw.file
  rw [hf] at hfile
  obtain ⟨f', hf', hid⟩ := Option.map_eq_some_iff.mp hfile
  have hroutes : RoutesKept w.tree w'.tree := .of_kept fun loc _ => hn loc
  refine ⟨⟨hw.sound.closed.congr hn, ?_⟩, hw.filled.of_kept hn hb, ?_, f', hf',
    fun loc hloc => ?_⟩
  · obtain ⟨mode, hmode⟩ := hw.sound.cwd
    exact ⟨mode, by rw [hcwd, hn, hmode]⟩
  · rw [hcwd]
    exact hw.reaches.mono hroutes
  · rw [hid, hn] at hloc
    exact hsingle loc hloc

theorem LockOpen.lock (hw : LockOpen b.root top h w)
    (hn : ∀ loc, (w.perform o c).2.tree.node? loc = w.tree.node? loc)
    (hb : ∀ f, w.file? h = some f → ∀ id, id ≠ f.id →
      (w.perform o c).2.tree.body? id = w.tree.body? id) : Frame o b a past w c := by
  obtain ⟨f, hf, hsingle⟩ := hw.file
  refine .lock hw.reaches
    (⟨fun loc _ => hn loc, hb f hf, fun loc hloc => ?_⟩ : OnlyLock top f.id _ _)
  exact hsingle loc ((hn loc).symm.trans hloc)

theorem lockOpen_truncate (hw : LockOpen b.root top h w) :
    Frame o b a past w (.truncate h) ∧
    LockOpen b.root top h (w.perform o (.truncate h)).2 := by
  obtain ⟨f, hf, -⟩ := hw.file
  have hstep : (w.perform o (.truncate h)).2 =
      { w with tree := w.tree.setContent f.id [] } := by
    rw [World.perform, World.truncate, hf]
  refine ⟨hw.lock (fun loc => ?_) fun f' hf' id hid => ?_, ?_⟩
  · rw [hstep]
    exact node?_setContent ..
  · obtain rfl := Option.some.inj (hf.symm.trans hf')
    rw [hstep]
    exact body?_setContent_of_ne hid
  · rw [hstep]
    exact hw.next rfl (fun loc => node?_setContent ..) (by simp [setContent]) rfl

theorem lockOpen_rewind (hw : LockOpen b.root top h w) :
    LockOpen b.root top h (w.perform o (.rewind h)).2 := by
  obtain ⟨f, hf, -⟩ := hw.file
  have hstep : (w.perform o (.rewind h)).2 =
      { w with handles := w.handles.insert h { f with offset := 0 } } := by
    rw [World.perform, World.rewind, hf]
  rw [hstep]
  refine hw.next rfl (fun _ => rfl) (Nat.le_refl _) ?_
  rw [hf, World.file?, SortedMap.get?_insert_self]
  rfl

theorem lockOpen_write (hw : LockOpen b.root top h w) (bytes : Bytes) :
    Frame o b a past w (.write h bytes) ∧
    LockOpen b.root top h (w.perform o (.write h bytes)).2 := by
  obtain ⟨f, hf, -⟩ := hw.file
  have hstep : (w.perform o (.write h bytes)).2 = { w with
      tree := w.tree.setContent f.id (World.overwrite (w.tree.content f.id) f.offset bytes)
      handles := w.handles.insert h { f with offset := f.offset + bytes.length } } := by
    rw [World.perform, World.write, hf]
  refine ⟨hw.lock (fun loc => ?_) fun f' hf' id hid => ?_, ?_⟩
  · rw [hstep]
    exact node?_setContent ..
  · obtain rfl := Option.some.inj (hf.symm.trans hf')
    rw [hstep]
    exact body?_setContent_of_ne hid
  · rw [hstep]
    refine hw.next rfl (fun loc => node?_setContent ..) (by simp [setContent]) ?_
    rw [hf, World.file?, SortedMap.get?_insert_self]
    rfl

/-- A new lock file is the last of the files, so that nothing else is a name of it. -/
theorem lockOpen_of_new {t : Tree} (hw : w.IsSound) (hfilled : w.tree.Filled)
    (hr : Reaches w.tree w.cwd r.path top) (hvacant : w.tree.node? (top ++ [lockName]) = none)
    (ht : t = (w.tree.addBody ⟨umasked 0o666, []⟩).2.put (top ++ [lockName])
      (.file w.tree.bodies.length)) :
    OnlyLock top w.tree.bodies.length w.tree t ∧
      ∀ (w' : World σ) h, w'.tree = t → w'.cwd = w.cwd →
        w'.file? h = some ⟨w.tree.bodies.length, 0⟩ → LockOpen r top h w' := by
  have hnodes : ∀ loc, loc ≠ top ++ [lockName] →
      t.node? loc = w.tree.node? loc := fun loc hne => by
    rw [ht, node?_put_of_ne _ _ hne, node?_addBody]
  have hself : t.node? (top ++ [lockName]) = some (.file w.tree.bodies.length) := by
    rw [ht, node?_put_self _ _ (by simp)]
  have hkept : ∀ loc, w.tree.node? loc ≠ none → t.node? loc = w.tree.node? loc := fun loc hn =>
    hnodes loc fun he => hn (he ▸ hvacant)
  have hbodies : ∀ id, id < w.tree.bodies.length →
      t.body? id = w.tree.body? id := fun id hlt => by
    rw [ht]
    exact List.getElem?_append_left hlt
  -- No other name can be of a file that did not exist.
  have hsingle : ∀ loc, t.node? loc = some (.file w.tree.bodies.length) →
      loc = top ++ [lockName] := by
    intro loc hloc
    by_contra hne
    obtain ⟨body, hbody⟩ := hfilled loc _ ((hnodes loc hne).symm.trans hloc)
    exact absurd (List.getElem?_eq_some_iff.mp hbody).1 (Nat.lt_irrefl _)
  have hlast : t.body? w.tree.bodies.length = some ⟨umasked 0o666, []⟩ := by
    rw [ht]
    exact List.getElem?_concat_length
  have hclosed : t.Closed := by
    rw [ht]
    refine (hw.closed.congr fun loc => node?_addBody ..).put ?_ ?_
    · simpa only [node?_addBody] using hr.dir
    · rw [node?_addBody, hvacant]
  refine ⟨⟨hnodes, fun id hne => ?_, hsingle⟩, fun w' h htree hcwd hfile =>
    ⟨⟨htree ▸ hclosed, ?_⟩, ?_, ?_, _, hfile, htree ▸ hsingle⟩⟩
  · rcases Nat.lt_or_gt_of_ne hne with hlt | hgt
    · exact hbodies id hlt
    · rw [ht, Tree.body?, Tree.body?, List.getElem?_eq_none,
        List.getElem?_eq_none (Nat.le_of_lt hgt)]
      simp only [addBody, put, List.length_append, List.length_singleton]
      exact hgt
  · obtain ⟨mode, hmode⟩ := hw.cwd
    exact ⟨mode, by rw [htree, hcwd, hkept _ (by simp [hmode]), hmode]⟩
  · intro loc id hloc
    rw [htree] at hloc ⊢
    by_cases hne : loc = top ++ [lockName]
    · obtain rfl := Node.file.inj (Option.some.inj (hself.symm.trans (hne ▸ hloc)))
      exact ⟨_, hlast⟩
    · obtain ⟨body, hbody⟩ := hfilled loc id ((hnodes loc hne).symm.trans hloc)
      exact ⟨body, (hbodies id (List.getElem?_eq_some_iff.mp hbody).1).trans hbody⟩
  · rw [htree, hcwd]
    exact hr.mono (.of_kept hkept)

/-- Opening the lock file, which is made if it is not there. -/
theorem lockOpen_openFile (hw : w.IsSound) (hfilled : w.tree.Filled)
    (hr : Reaches w.tree w.cwd b.root.path top) (hp : PlainLock top w.tree) :
    Frame o b a past w (.openFile b.root.lock) ∧
      (w.perform o (.openFile b.root.lock)).2.IsSound ∧
      ∀ h, (w.perform o (.openFile b.root.lock)).1 = .ok h →
        LockOpen b.root top h (w.perform o (.openFile b.root.lock)).2 := by
  have hopen := (hr.belowEntry b.root.extends_lock).openFile 0o666 hp.not_link
  have hrefused : ∀ e, w.tree.openFile w.cwd b.root.lock 0o666 = .error e →
      w.perform o (.openFile b.root.lock) = (.error e, w) := fun e he => by
    rw [World.perform, World.openFile, he]
    rfl
  have hopened : ∀ id t, w.tree.openFile w.cwd b.root.lock 0o666 = .ok (id, t) →
      w.perform o (.openFile b.root.lock) = (.ok w.nextHandle, { w with
        tree := t
        handles := w.handles.insert w.nextHandle ⟨id, 0⟩
        nextHandle := w.nextHandle + 1 }) := fun id t he => by
    rw [World.perform, World.openFile, he]
    rfl
  -- Whether the file is there or is made now, opening it hands out the next
  -- handle, at the start of the file.
  cases ha : w.tree.arrive top b.root.lock [lockName] with
  | error e =>
      have hstep := hrefused e (hopen.trans (by rw [ha]))
      rw [hstep]
      exact ⟨.idle (by rw [hstep]), hw, by simp⟩
  | ok found =>
      have hnode := node?_of_arrive (List.cons_ne_nil _ _) ha
      cases found with
      | none =>
          have hstep := hopened _ _ (hopen.trans (by rw [ha]))
          obtain ⟨honly, hnew⟩ := lockOpen_of_new hw hfilled hr hnode rfl
          have hafter :=
            hnew _ w.nextHandle (congrArg (·.2.tree) hstep) (congrArg (·.2.cwd) hstep) ?_
          · refine ⟨Frame.lock hr (hstep ▸ honly : OnlyLock top w.tree.bodies.length w.tree _),
              hafter.sound, ?_⟩
            rw [hstep] at hafter ⊢
            rintro _ ⟨⟩
            exact hafter
          · rw [hstep]
            exact SortedMap.get?_insert_self ..
      | some node =>
          cases node with
          | dir mode =>
              have hstep := hrefused _ (hopen.trans (by rw [ha]))
              rw [hstep]
              exact ⟨.idle (by rw [hstep]), hw, by simp⟩
          | link target => exact absurd hnode (hp.not_link target)
          | file id =>
              have hstep := hopened _ _ (hopen.trans (by rw [ha]))
              have hsound : (w.perform o (.openFile b.root.lock)).2.IsSound :=
                hw.still (by rw [hstep]; exact ⟨rfl, rfl⟩)
              refine ⟨.idle (by rw [hstep]), hsound, ?_⟩
              rw [hstep] at hsound ⊢
              rintro _ ⟨⟩
              exact ⟨hsound, hfilled, hr, _, SortedMap.get?_insert_self ..,
                fun loc => hp.single id loc hnode⟩

/-! ### Taking the lock -/

theorem lockOpen_tryLock (hw : LockOpen r top h w) :
    LockOpen r top h (w.perform o (.tryLock h)).2 := by
  have hstill := w.still_of_isStill o (c := .tryLock h) trivial
  refine hw.next hstill.2 (fun loc => by rw [hstill.1]) (Nat.le_of_eq (by rw [hstill.1])) ?_
  obtain ⟨f, hf, -⟩ := hw.file
  simp only [World.perform, World.tryLock, hf]
  split <;> exact (congrArg _ hf).trans rfl

theorem throughout_keep (hw : LockOpen b.root top h w) (record : Holder) :
    (RootLock.keep b.root h record).run.Throughout o (Frame o b a past)
      (fun _ w' => w'.IsSound ∧ w'.tree.Filled) w := by
  have htruncate : Frame o b a past w (.truncate h) ∧ _ := lockOpen_truncate hw
  have hw₂ := lockOpen_rewind (o := o) htruncate.2
  have hwrite : Frame o b a past _ (.write h record.toBytes) ∧ _ :=
    lockOpen_write hw₂ record.toBytes
  exact ⟨htruncate.1, .of_isStill trivial, hwrite.1, hwrite.2.sound, hwrite.2.filled⟩

theorem throughout_take (hw : w.IsSound) (hfilled : w.tree.Filled)
    (hr : Reaches w.tree w.cwd b.root.path top) (hp : PlainLock top w.tree) (command : String)
    (a' : Arch) :
    (RootLock.take b.root command a').run.Throughout o (Frame o b a past)
      (fun res w' => ∀ l, res = .ok l → w'.IsSound ∧ w'.tree.Filled) w := by
  have hopened : Frame o b a past w (.openFile b.root.lock) ∧ _ :=
    lockOpen_openFile hw hfilled hr hp
  obtain ⟨hopen, -, hafter⟩ := hopened
  rw [RootLock.take]
  refine Throughout.attempt_call_bind_iff.mpr ⟨hopen, ?_⟩
  generalize w.perform o (.openFile b.root.lock) = opened at hafter
  obtain ⟨e | h, w₁⟩ := opened
  · rintro _ ⟨⟩
  · have hw₁ := hafter h rfl
    refine Throughout.attempt_call_bind_iff.mpr ⟨.of_isStill trivial, ?_⟩
    have hw₂ := lockOpen_tryLock (o := o) hw₁
    generalize w₁.perform o (.tryLock h) = locked at hw₂
    obtain ⟨e | _ | _, w₂⟩ := locked
    · exact ⟨.of_isStill trivial, fun _ h => by cases h⟩
    · refine Throughout.attempt_lift_bind_iff.mpr
        (Throughout.call_bind_iff.mpr ⟨.of_isStill trivial, ?_⟩)
      split <;> exact ⟨.of_isStill trivial, .of_isStill trivial, fun _ h => by cases h⟩
    · refine Throughout.attempt_call_bind_iff.mpr ⟨.of_isStill trivial, ?_⟩
      refine Throughout.attempt_call_bind_iff.mpr ⟨.of_isStill trivial, ?_⟩
      have hw₄ : LockOpen b.root top h ((w₂.perform o .processId).2.perform o .clock).2 :=
        hw₂.next rfl (fun _ => rfl) (Nat.le_refl _) rfl
      exact (throughout_keep hw₄ _).post fun _ _ hend _ _ => hend

/-- Wherever the root comes to be, its lock file is no link and has no other name. -/
def HasPlainLock (r : Root) (w : World σ) : Prop :=
  ∀ t top, Grown w.cwd (r.path :: ancestors r.path) w.tree t → Reaches t w.cwd r.path top →
    PlainLock top w.tree

/-- Making the root, before anything else is done to it. -/
theorem throughout_makeRoot (hw : w.IsSound) (hfilled : w.tree.Filled)
    (hlock : HasPlainLock b.root w) :
    (makeDirs b.root.path).run.Throughout o (Frame o b a past)
      (fun res w' => res = .ok () → w'.IsSound ∧ w'.tree.Filled ∧
        ∃ top, Reaches w'.tree w'.cwd b.root.path top ∧ PlainLock top w'.tree) w := by
  have hmake := (throughout_makeDirs (o := o) (p := b.root.path) hw).since (MoreDirs.refl _ w)
    (fun _ _ _ => MoreDirs.trans) fun _ _ hc => hc.moreDirs
  refine hmake.imp (fun w' c hc => ?_) ?_
  · exact .of_making hc.1.1 (fun _ => isOnWay_of_mem) hc.1.2.2
  · rintro res w' ⟨⟨hw', hcwd, hreach⟩, hgrow⟩ hres
    obtain ⟨top, hr⟩ := hreach hres
    refine ⟨hw', filled_of_newDirs hgrow.2.newDirs hfilled, top, hr, ?_⟩
    exact (hlock w'.tree top hgrow.2 (hcwd ▸ hr)).of_newDirs hgrow.2.newDirs

end Root

end LlvmBootstrap
