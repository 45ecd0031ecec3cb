import LlvmBootstrap.Proofs.Machine.Asking
import LlvmBootstrap.Proofs.Root.Advance

/-!
The calls that change something in a tidy root: opening the lock file, making and removing the
directory of a stage, and running a command that keeps to the directories of its architecture.
-/

namespace LlvmBootstrap

open LlvmBootstrap.Tree Program

/-- What a command that is run for the architecture `a` makes of a tree: it works inside the
build tree and the install directory of `a` where these are there, and takes neither away. The
one that installs may make the install directory, and has made it when it succeeds. -/
structure Tree.Spares (top : Location) (a : Arch) (t t' : Tree)
    (installs succeeds : Prop) : Prop where
  closed : t'.Closed
  outside : ∀ loc, isWithin (top ++ [Root.markerName (.configure a)]) loc = false →
    isWithin (top ++ [Root.markerName (.install a)]) loc = false → t'.node? loc = t.node? loc
  kept : ∀ s, Root.Has top s t → Root.Has top s t'
  absent : ∀ s, t.node? (top ++ [Root.markerName s]) = none →
    t'.node? (top ++ [Root.markerName s]) = none ∨
      installs ∧ s = .install a ∧ Root.Has top s t'
  installed : installs → succeeds → Root.Has top (.install a) t'

def Outside.Tame {σ : Type} (o : Outside σ) (b : Build) (a : Arch) : Prop :=
  ∀ caller output c t s top, t.Closed → Reaches t caller.cwd b.root.path top →
    t.Spares top a (o.spawn caller output c t s).2.1
      (output = .shared ∧ ∃ vars, c = b.installCommand a vars)
      (∃ f, (o.spawn caller output c t s).1 = .ok f ∧ f.status.isSuccess = true)

structure Outside.Suits {σ : Type} (o : Outside σ) (r : Root) (b : Build)
    (a : Arch) : Prop where
  root : b.root = r
  record : b.record = r.record
  asks : b.host.OnlyAsks
  tame : o.Tame b a

namespace Root

variable {σ α β ε ε' : Type} {r : Root} {m w w' : World σ} {top : Location} {s : Stage}
  {o : Outside σ} {c : Call} {p : Program α}

/-! ### The lock file -/

theorem tidy_openLock (hb : Bare r m top) (h : Tidy r m top w) :
    Tidy r m top (w.perform o (.openFile r.lock)).2 ∧
      SameStages top w.tree (w.perform o (.openFile r.lock)).2.tree := by
  have hbelow := h.below hb r.extends_lock
  have hopen := hbelow.openFile 0o666 fun target ht => by
    obtain ⟨id, hid⟩ := (h.entries _ _ ht).of_lock
    contradiction
  rw [World.perform, World.openFile, hopen]
  cases ha : w.tree.arrive top r.lock [lockName] with
  | error e => exact ⟨h, fun _ => Iff.rfl⟩
  | ok found =>
      have hnode := node?_of_arrive (List.cons_ne_nil _ _) ha
      cases found with
      | some node =>
          obtain ⟨id, rfl⟩ := (h.entries _ _ hnode).of_lock
          exact ⟨h.congr (fun _ => rfl) rfl, fun _ => Iff.rfl⟩
      | none =>
          -- A new file stands beside the markers and is none of them.
          have hclosed : (w.tree.addBody ⟨umasked 0o666, []⟩).2.Closed :=
            h.closed.congr fun loc => node?_addBody ..
          have hdir := (h.reaches hb).dir
          rw [← node?_addBody] at hdir hnode
          have hsame : ∀ loc, isWithin (top ++ [lockName]) loc = false →
              ((w.tree.addBody ⟨umasked 0o666, []⟩).2.put (top ++ [lockName])
                (.file w.tree.bodies.length)).node? loc = w.tree.node? loc := by
            intro loc hloc
            rw [node?_put_of_ne _ _ (fun he => by simp [he] at hloc), node?_addBody]
          have hothers : ∀ s, Has top s ((w.tree.addBody ⟨umasked 0o666, []⟩).2.put
              (top ++ [lockName]) (.file w.tree.bodies.length)) ↔ Has top s w.tree := fun s =>
            has_congr (hsame _ (isWithin_sibling (markerName_ne_lockName s).symm))
          refine ⟨h.update rfl (hclosed.put hdir hnode) hsame (fun node hn => ?_) ?_, hothers⟩
          · rw [node?_put_self _ _ (by simp)] at hn
            obtain rfl := Option.some.inj hn
            exact .lock _
          · exact fun s s' hn hs => (hothers s').mpr (h.order s s' hn ((hothers s).mp hs))

/-! ### The directory of a stage -/

theorem not_serves_of_making {qs : List Path} (h : Making qs c) (s : Stage) :
    ¬ Serves r s c := by
  rintro ⟨⟩ <;> cases h

/-- Making the directory of a stage on top of those that are there. -/
theorem traced_makeMarker (hb : Bare r m top) (h : Tidy r m top w) (hs : ¬ Has top s w.tree)
    (hneeds : ∀ s', s.Needs s' → Has top s' w.tree) :
    (makeDirs (r.marker s)).run.Traced o
      (fun res tr w' => (∀ x ∈ tr, ∀ s, ¬ Serves r s x.call) ∧
      match res with
      | .ok () => Tidy r m top w' ∧ Has top s w'.tree ∧ SameBut top s w.tree w'.tree
      | .error _ => w' = w) w := by
  have hext := r.extends_marker s
  have hbelow := h.below hb hext
  have hp : (r.marker s).bytes ≠ [] := (hext.last (List.cons_ne_nil _ _)).2
  have hrun : (makeDirs (r.marker s)).run.Throughout o (fun _ c => Making [r.marker s] c)
      (fun res w' => match res with
        | .ok () => Tidy r m top w' ∧ Has top s w'.tree ∧ SameBut top s w.tree w'.tree
        | .error _ => w' = w) w := by
    refine throughout_makeDirs_of_parent hp (hbelow.mkdir_ne_notFound hp _)
      (.mkdir (List.mem_singleton.mpr rfl)) (.look _) (fun t' happ => ?_) fun res hres => ?_
    · obtain ⟨ha, ht'⟩ := hbelow.eq_of_mkdir happ
      obtain ⟨hrefusal, -, hnone⟩ := arrive_single_iff.mp ha
      have hsame : ∀ loc, isWithin (top ++ [markerName s]) loc = false →
          t'.node? loc = w.tree.node? loc := by
        intro loc hloc
        rw [ht', node?_put_of_ne _ _ (fun he => by simp [he] at hloc)]
      have hmade : Has top s t' := ⟨_, by rw [ht', node?_put_self _ _ (by simp)]⟩
      have hothers : SameBut top s w.tree t' := fun s' hne =>
        has_congr (hsame _ (isWithin_sibling (markerName_ne hne.symm)))
      have hclosed : t'.Closed := ht' ▸ h.closed.put (h.reaches hb).dir hnone
      refine ⟨h.update (n := markerName s) rfl hclosed hsame (fun node hn => ?_) ?_,
        hmade, hothers⟩
      · obtain ⟨mode, hm⟩ := hmade
        obtain rfl := Option.some.inj (hm.symm.trans hn)
        exact .marker hrefusal
      · exact h.order_of_made hothers hmade hneeds
    · rcases res with e | ⟨⟩
      · rfl
      · exact absurd ((h.isDir_marker_iff hb).mp (hres rfl)) hs
  obtain ⟨hres, htr⟩ := Traced.of_throughout hrun
  refine ⟨fun x hx s => ?_, hres⟩
  obtain ⟨-, hmaking⟩ := htr x hx
  exact not_serves_of_making hmaking s

/-- Forgetting a stage that none after it is built on. -/
theorem traced_reset (hb : Bare r m top) (h : Tidy r m top w)
    (hneeded : ∀ s', s'.Needs s → ¬ Has top s' w.tree) (hp : (r.marker s).refusal? = none) :
    (r.reset s).run.Traced o
      (fun res tr w' => (∀ x ∈ tr, ∀ s, ¬ Serves r s x.call) ∧ res = .ok () ∧
        Tidy r m top w' ∧ ¬ Has top s w'.tree ∧ SameBut top s w.tree w'.tree) w := by
  have hquiet : ∀ answer, ∀ x ∈ [(⟨.change (.removeAll (r.marker s)), answer⟩ : Answered)],
      ∀ s,
      ¬ Serves r s x.call := by
    intro answer x hx s
    rw [List.mem_singleton.mp hx]
    rintro ⟨⟩
  have harrive : w.tree.arrive top (r.marker s) [markerName s] =
      .ok (w.tree.node? (top ++ [markerName s])) :=
    arrive_single_iff.mpr ⟨hp, length_markerName_le s, rfl⟩
  have happ : (Change.removeAll (r.marker s)).apply w.tree w.cwd = _ :=
    (h.below hb (r.extends_marker s)).removeAll
  rw [harrive] at happ
  refine Traced.call_bind_iff.mpr ?_
  -- The marker is a directory, or there is nothing that could be removed.
  by_cases hs : Has top s w.tree
  · obtain ⟨mode, hm⟩ := hs
    rw [hm] at happ
    rw [World.perform_change_ok happ]
    have hnode := node?_prune w.tree (show top ++ [markerName s] ≠ [] by simp)
    have hsame : ∀ loc, isWithin (top ++ [markerName s]) loc = false →
        (w.tree.prune (top ++ [markerName s])).node? loc = w.tree.node? loc := by
      intro loc hloc
      rw [hnode, hloc]
      rfl
    have hnone : (w.tree.prune (top ++ [markerName s])).node? (top ++ [markerName s]) =
        none := by
      rw [hnode, isWithin_self]
      rfl
    have hgone : ¬ Has top s (w.tree.prune (top ++ [markerName s])) := by
      rintro ⟨mode, hm⟩
      rw [hnone] at hm
      contradiction
    have hothers : SameBut top s w.tree (w.tree.prune (top ++ [markerName s])) := fun s' hne =>
      has_congr (hsame _ (isWithin_sibling (markerName_ne hne.symm)))
    refine ⟨hquiet _, rfl, h.update (n := markerName s) rfl (h.closed.prune (by simp)) hsame
      (fun node hn => ?_) ?_, hgone, hothers⟩
    · exact absurd (hnone.symm.trans hn) nofun
    · exact h.order_of_gone hothers hgone hneeded
  · rw [h.node?_of_not_has hs] at happ
    rw [World.perform_change_error happ]
    exact ⟨hquiet _, rfl, h, hs, fun _ _ => Iff.rfl⟩

/-! ### Commands -/

theorem bytes_marker (r : Root) (s : Stage) :
    (r.marker s).bytes = r.path.bytes ++ markerName s ∨
      (r.marker s).bytes = r.path.bytes ++ Path.slash :: markerName s := by
  rw [r.marker_eq]
  have habs := Path.isAbsolute_name (isPlain_markerName s)
  exact (Path.bytes_join_of_not_isAbsolute r.path habs).imp And.left And.left

/-- If there can be a path to the build tree, there can be one to the install directory. -/
theorem refusal?_install {a : Arch} (h : (r.marker (.configure a)).refusal? = none) :
    (r.marker (.install a)).refusal? = none := by
  have hshort : (markerName (.install a)).length + 1 ≤ (markerName (.configure a)).length := by
    cases a <;> decide
  have hzero : (0 : UInt8) ∉ markerName (.install a) := by
    cases a <;> decide
  have hslash : (0 : UInt8) ≠ Path.slash := by decide
  -- The name of the install directory is shorter by one at least,
  -- which makes room for a slash.
  obtain ⟨hpath, hlen⟩ : (0 : UInt8) ∉ r.path.bytes ∧
      r.path.bytes.length + (markerName (.configure a)).length ≤ maxPath := by
    obtain ⟨h0, -, hlen⟩ := Path.refusal?_eq_none_iff.mp h
    rcases r.bytes_marker (.configure a) with hb | hb
    · rw [hb, List.mem_append, not_or] at h0
      rw [hb, List.length_append] at hlen
      exact ⟨h0.1, hlen⟩
    · rw [hb, List.mem_append, not_or] at h0
      rw [hb, List.length_append, List.length_cons] at hlen
      exact ⟨h0.1, by omega⟩
  refine Path.refusal?_eq_none_iff.mpr
    ⟨?_, ((r.extends_marker _).last (List.cons_ne_nil _ _)).2, ?_⟩
  · rcases r.bytes_marker (.install a) with hb | hb
    · rw [hb, List.mem_append, not_or]
      exact ⟨hpath, hzero⟩
    · rw [hb, List.mem_append, List.mem_cons, not_or, not_or]
      exact ⟨hpath, hslash, hzero⟩
  · rcases r.bytes_marker (.install a) with hb | hb
    · rw [hb, List.length_append]
      omega
    · rw [hb, List.length_append, List.length_cons]
      omega

theorem tidy_spawn {a : Arch} {installs succeeds : Prop} (h : Tidy r m top w)
    (hs : w.tree.Spares top a w'.tree installs succeeds) (hc : w'.cwd = w.cwd)
    (hbuilt : installs → Has top (.configure a) w.tree) :
    Tidy r m top w' ∧ SameBut top (.install a) w.tree w'.tree ∧
      (¬ installs → SameStages top w.tree w'.tree) := by
  -- A command makes no marker but the one of the install stage, and removes none.
  have hstays : ∀ s, (installs → s ≠ .install a) → (Has top s w'.tree ↔ Has top s w.tree) := by
    intro s hne
    refine ⟨fun hs' => ?_, hs.kept s⟩
    by_contra hnot
    rcases hs.absent s (h.node?_of_not_has hnot) with hnone | ⟨hi, heq, -⟩
    · obtain ⟨mode, hm⟩ := hs'
      rw [hnone] at hm
      contradiction
    · exact hne hi heq
  refine ⟨⟨hc.trans h.cwd, hs.closed, fun loc hloc => ?_, fun n node hn => ?_, ?_⟩, ?_, ?_⟩
  · have hout : ∀ s, isWithin (top ++ [markerName s]) loc = false := by
      intro s
      rw [isWithin_eq_false_iff]
      rintro rel he
      exact hloc (markerName s :: rel) (List.cons_ne_nil _ _)
        (by rw [he, List.append_assoc]; rfl)
    exact (hs.outside loc (hout _) (hout _)).trans (h.outside loc hloc)
  · by_cases hmarker : n = markerName (.configure a) ∨ n = markerName (.install a)
    · obtain ⟨s, rfl⟩ : ∃ s, n = markerName s := by
        rcases hmarker with rfl | rfl
        · exact ⟨_, rfl⟩
        · exact ⟨_, rfl⟩
      by_cases hold : Has top s w.tree
      · obtain ⟨mode, hm⟩ := hs.kept s hold
        obtain rfl := Option.some.inj (hm.symm.trans hn)
        exact .marker (h.refusal?_of_has hold)
      · rcases hs.absent s (h.node?_of_not_has hold) with hnone | ⟨hi, rfl, mode, hm⟩
        · rw [hnone] at hn
          contradiction
        · obtain rfl := Option.some.inj (hm.symm.trans hn)
          exact .marker (refusal?_install (h.refusal?_of_has (hbuilt hi)))
    · obtain ⟨hb, hi⟩ := not_or.mp hmarker
      have hsame := hs.outside (top ++ [n]) (isWithin_sibling (Ne.symm hb))
        (isWithin_sibling (Ne.symm hi))
      exact h.entries n node (hsame ▸ hn)
  · intro s₁ s₂ hn hs₁
    by_cases hnew : installs ∧ s₁ = .install a
    · obtain ⟨hi, rfl⟩ := hnew
      cases hn
      exact hs.kept _ (hbuilt hi)
    · have hold := (hstays s₁ fun hi heq => hnew ⟨hi, heq⟩).mp hs₁
      exact hs.kept s₂ (h.order s₁ s₂ hn hold)
  · exact fun s hne => hstays s fun _ => hne
  · exact fun hi s => hstays s fun hi' => absurd hi' hi

theorem perform_spawn (o : Outside σ) (w : World σ) (output : Output) (cmd : Command) :
    (w.perform o (.spawn output cmd)).1 =
        (o.spawn ⟨w.cwd, w.environ⟩ output cmd w.tree w.outside).1 ∧
      (w.perform o (.spawn output cmd)).2.tree =
        (o.spawn ⟨w.cwd, w.environ⟩ output cmd w.tree w.outside).2.1 ∧
      (w.perform o (.spawn output cmd)).2.cwd = w.cwd := by
  simp only [World.perform, World.spawn]
  split <;> exact ⟨rfl, rfl, rfl⟩

/-- A command that is run for its output, or in no directory of its own, serves no stage. -/
theorem Advances.spawn_bind {b : Build} {a : Arch} {output : Output} {cmd : Command}
    {R : β → World σ → Prop} {f : Except Failure Finished → Program β} (hb : Bare r m top)
    (hbuild : o.Suits r b a) (hw : Tidy r m top w)
    (hidle : output = .collected ∨ cmd.dir = none)
    (hf : ∀ answer w', Tidy r m top w' → SameStages top w.tree w'.tree →
      Advances r m top o R (f answer) w') :
    Advances r m top o R
      ((make (.spawn output cmd) : Program (Except Failure Finished)) >>= f) w := by
  obtain ⟨-, htree, hcwd⟩ := perform_spawn o w output cmd
  have hnot : ¬ (output = .shared ∧ ∃ vars, cmd = b.installCommand a vars) := by
    rintro ⟨rfl, vars, rfl⟩
    rcases hidle with h | h <;> contradiction
  have hspares := hbuild.tame ⟨w.cwd, w.environ⟩ output cmd w.tree w.outside top hw.closed
    (hbuild.root ▸ hw.reaches hb)
  rw [← htree] at hspares
  obtain ⟨hw', -, hsame⟩ := tidy_spawn hw hspares hcwd fun hi => absurd hi hnot
  refine .call_bind (hsame hnot) (fun s => ?_) (hf _ _ hw' (hsame hnot))
  rintro ⟨⟩ <;> rcases hidle with h | h <;> contradiction

theorem Advances.work_spawn_bind {b : Build} {a : Arch} {output : Output} {cmd : Command}
    {t : Toolchain} {R : Except ε β × Toolchain → World σ → Prop}
    {f : Except Failure Finished → Work ε β} (hb : Bare r m top) (hbuild : o.Suits r b a)
    (hw : Tidy r m top w) (hidle : output = .collected ∨ cmd.dir = none)
    (hf : ∀ answer w', Tidy r m top w' → SameStages top w.tree w'.tree →
      Advances r m top o R ((f answer).start t) w') :
    Advances r m top o R
      (((make (.spawn output cmd) : Work ε (Except Failure Finished)) >>= f).start t) w := by
  have hlift : ((make (.spawn output cmd) : Work ε (Except Failure Finished)) >>= f).start t =
      (make (.spawn output cmd) : Program (Except Failure Finished)) >>= fun answer =>
        (f answer).start t := Work.start_lift_bind ..
  rw [hlift]
  exact spawn_bind hb hbuild hw hidle hf

end Root

end LlvmBootstrap
