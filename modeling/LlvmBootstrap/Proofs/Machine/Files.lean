import LlvmBootstrap.Machine.Files
import LlvmBootstrap.Proofs.Machine.Throughout
import LlvmBootstrap.Proofs.Tree.Below
import Mathlib.Data.List.Basic

/-!
Making directories. Whatever becomes of it, all that it does to the tree is to add directories
where nothing stood.
-/

namespace LlvmBootstrap

namespace Tree

structure NewDirs (t t' : Tree) : Prop where
  nodes : ∀ loc, t'.node? loc = t.node? loc ∨
    t.node? loc = none ∧ ∃ mode, t'.node? loc = some (.dir mode)
  bodies : t'.bodies = t.bodies

variable {t t' t'' : Tree} {cwd top : Location} {p : Path} {ns : List Name}

theorem NewDirs.refl (t : Tree) : NewDirs t t := ⟨fun _ => .inl rfl, rfl⟩

theorem NewDirs.trans (h : NewDirs t t') (h' : NewDirs t' t'') : NewDirs t t'' := by
  refine ⟨fun loc => ?_, h'.bodies.trans h.bodies⟩
  rcases h'.nodes loc with heq | ⟨hnone, hdir⟩
  · rw [heq]
    exact h.nodes loc
  · rcases h.nodes loc with heq | ⟨hnone', -⟩
    · exact .inr ⟨heq ▸ hnone, hdir⟩
    · exact .inr ⟨hnone', hdir⟩

theorem NewDirs.node?_eq {n : Node} (h : NewDirs t t') {loc : Location}
    (hn : t.node? loc = some n) :
    t'.node? loc = some n := by
  rcases h.nodes loc with heq | ⟨hnone, -⟩
  · rw [heq, hn]
  · rw [hnone] at hn
    contradiction

theorem NewDirs.routesKept (h : NewDirs t t') : RoutesKept t t' :=
  ⟨fun _ mode hm => ⟨mode, h.node?_eq hm⟩, fun _ _ ht => h.node?_eq ht⟩

/-- What is there now and was not there before is a directory. -/
theorem NewDirs.eq_or_dir {n : Node} (h : NewDirs t t') {loc : Location}
    (hn : t'.node? loc = some n) : t.node? loc = some n ∨ ∃ mode, n = .dir mode := by
  rcases h.nodes loc with heq | ⟨-, mode, hm⟩
  · exact .inl (heq ▸ hn)
  · rw [hm] at hn
    exact .inr ⟨mode, (Option.some.inj hn).symm⟩

theorem NewDirs.unlinked (h : NewDirs t t') (hu : Unlinked t top ns) : Unlinked t' top ns := by
  intro pre hpre hne target ht
  rcases h.eq_or_dir ht with hlink | ⟨mode, hm⟩
  · exact hu pre hpre hne target hlink
  · contradiction

theorem node?_of_walk_vacant {follow : Bool} {links : Nat} {cur dir : Location} {n : Name}
    {cs : List Component} (h : walk t follow links cur cs = .ok (.vacant dir n)) :
    t.node? (dir ++ [n]) = none := by
  fun_induction walk t follow links cur cs with
  | case1 => simp at h
  | case2 links cur cs ih => exact ih h
  | case3 links cur cs ih => exact ih h
  | case4 links cur cs ih => exact ih h
  | case5 => contradiction
  | case6 links cur m hlen hn =>
      obtain ⟨rfl, rfl⟩ := Spot.vacant.inj (Except.ok.inj h)
      exact hn
  | case7 => contradiction
  | case8 => simp at h
  | case9 links cur n cs hlen mode node hcs ih => exact ih h
  | case10 => simp at h
  | case11 => contradiction
  | case12 => simp at h
  | case13 => contradiction
  | case14 cur n cs hlen target node hcs links ih => exact ih h

theorem node?_of_resolve_vacant {follow : Bool} {dir : Location} {n : Name}
    (h : t.resolve cwd follow p = .ok (.vacant dir n)) : t.node? (dir ++ [n]) = none := by
  rw [resolve_eq] at h
  split at h
  · contradiction
  · exact node?_of_walk_vacant h

theorem mkdir_eq_ok {mode : Mode} (h : t.mkdir cwd p mode = .ok t') :
    ∃ dir n, t.resolve cwd false (trimSlashes p) = .ok (.vacant dir n) ∧
      t' = t.put (dir ++ [n]) (.dir (umasked mode)) := by
  unfold mkdir at h
  cases hr : t.resolve cwd false (trimSlashes p) with
  | error e =>
      rw [hr] at h
      contradiction
  | ok s =>
      rw [hr] at h
      cases s with
      | found loc n => contradiction
      | vacant dir n => exact ⟨dir, n, rfl, (Except.ok.inj h).symm⟩

theorem newDirs_of_mkdir {mode : Mode} (h : t.mkdir cwd p mode = .ok t') : NewDirs t t' := by
  obtain ⟨dir, n, hr, rfl⟩ := mkdir_eq_ok h
  refine ⟨fun loc => ?_, rfl⟩
  by_cases heq : loc = dir ++ [n]
  · rw [heq, node?_put_self _ _ (by simp)]
    exact .inr ⟨node?_of_resolve_vacant hr, _, rfl⟩
  · exact .inl (node?_put_of_ne _ _ heq)

end Tree

namespace Path

/-- `above` goes on from a path of the names `ns` below `p`, name by
name, up to the first of them. -/
inductive Climbs (p : Path) : List Name → List Path → Prop
  | first (n : Name) (above : List Path) : Climbs p [n] above
  | more {ns : List Name} {n : Name} {q : Path} {above : List Path} (hne : ns ≠ [])
      (hq : Extends p ns q) (rest : Climbs p ns above) : Climbs p (ns ++ [n]) (q :: above)

/-- The paths of the leading parts of some components, the longest first. -/
def upper (absolute : Bool) (cs : List Component) : List Path :=
  (List.range cs.length).reverse.filterMap fun n =>
    if n = 0 ∨ (n = 1 ∧ absolute) then none else some (ofComponents (cs.take n))

theorem upper_concat (absolute : Bool) (cs : List Component) (c : Component) :
    upper absolute (cs ++ [c]) =
      (if cs.length = 0 ∨ (cs.length = 1 ∧ absolute) then [] else [ofComponents cs]) ++
        upper absolute cs := by
  unfold upper
  rw [List.length_append, List.length_singleton, List.range_succ, List.reverse_append,
    List.reverse_singleton, List.singleton_append, List.filterMap_cons, List.take_left]
  have hrest : (List.range cs.length).reverse.filterMap (fun n =>
        if n = 0 ∨ (n = 1 ∧ absolute) then none
          else some (ofComponents ((cs ++ [c]).take n))) =
      (List.range cs.length).reverse.filterMap (fun n =>
        if n = 0 ∨ (n = 1 ∧ absolute) then none else some (ofComponents (cs.take n))) := by
    refine List.filterMap_congr fun n hn => ?_
    have hlt : n < cs.length := by simpa using hn
    rw [List.take_append_of_le_length (Nat.le_of_lt hlt)]
  rw [hrest]
  by_cases hend : cs.length = 0 ∨ (cs.length = 1 ∧ absolute = true)
  · rw [if_pos hend, if_pos hend]
    rfl
  · rw [if_neg hend, if_neg hend]
    rfl

theorem climbs_upper {p : Path} (absolute : Bool) (hp : p.bytes ≠ [] ∨ absolute = false)
    {ns : List Name} (hne : ns ≠ []) (hplain : ∀ n ∈ ns, IsPlain n) :
    Climbs p ns (upper absolute (p.components ++ ns.map .name)) := by
  obtain ⟨k, hk⟩ : ∃ k, ns.length = k + 1 :=
    Nat.exists_eq_succ_of_ne_zero (mt List.length_eq_zero_iff.mp hne)
  induction k generalizing ns with
  | zero =>
      obtain ⟨n, rfl⟩ := List.length_eq_one_iff.mp hk
      exact .first ..
  | succ k ih =>
      obtain ⟨ms, n, rfl⟩ : ∃ ms n, ns = ms ++ [n] :=
        ⟨_, _, (List.dropLast_concat_getLast hne).symm⟩
      have hlen : ms.length = k + 1 := by simpa using hk
      have hms : ms ≠ [] := by
        rintro rfl
        simp at hlen
      have hmplain : ∀ n ∈ ms, IsPlain n := fun x hx => hplain x (List.mem_append_left _ hx)
      rw [List.map_append, List.map_singleton, ← List.append_assoc, upper_concat, if_neg ?_]
      · exact .more hms (extends_ofComponents p hms hmplain) (ih hms hmplain hlen)
      · rw [List.length_append, List.length_map]
        rcases hp with hp | habs
        · have hcomps : 0 < p.components.length :=
            List.length_pos_iff.mpr (components_ne_nil hp)
          omega
        · simp [habs, hlen]

end Path

namespace Program

theorem climbs_ancestors {p : Path} (hp : p.bytes ≠ []) {ns : List Name} (hne : ns ≠ [])
    (hplain : ∀ n ∈ ns, Path.IsPlain n) :
    Path.Climbs p ns (ancestors (p / Path.ofNames ns)) := by
  have habs : (Path.ofNames ns).isAbsolute = false :=
    Path.isAbsolute_ofNames hplain
  have hmoves : (Path.ofNames ns).moves = ns.map .name := by
    rw [Path.moves, Path.pieces_ofNames hne fun n hn => (hplain n hn).not_slash,
      Path.filterMap_component?_of_isPlain hplain]
  have hcomps : (p / Path.ofNames ns).components = p.components ++ ns.map .name := by
    rw [Path.components_join hp habs, hmoves]
  have hup := Path.climbs_upper (p / Path.ofNames ns).isAbsolute (.inl hp) hne hplain
  rw [← hcomps] at hup
  exact hup

theorem throughout_isDir {σ : Type} {o : Outside σ} {C : World σ → Call → Prop} {w : World σ}
    {p : Path} (h : C w (.look true p)) :
    (isDir p).Throughout o C (fun b w' => w' = w ∧ b = w.tree.isDir w.cwd p) w := by
  rw [isDir]
  refine Throughout.call_bind_iff.mpr ⟨h, ?_⟩
  rw [World.perform, Tree.isDir]
  cases w.tree.lookup w.cwd true p with
  | error e => exact ⟨rfl, rfl⟩
  | ok found =>
      obtain ⟨loc, n⟩ := found
      cases n <;> exact ⟨rfl, rfl⟩

/-- An error that does not count if there is a directory all the same. -/
theorem throughout_dirOr {σ ε : Type} {o : Outside σ} {C : World σ → Call → Prop} {w : World σ}
    {p : Path} {e : ε} {R : Except ε Unit → World σ → Prop} (h : C w (.look true p))
    (hdir : w.tree.isDir w.cwd p = true → R (.ok ()) w)
    (hnot : w.tree.isDir w.cwd p = false → R (.error e) w) :
    (do if ← isDir p then return () else throw e : Attempt ε Unit).run.Throughout o C R w := by
  refine Throughout.attempt_lift_bind_iff.mpr ((throughout_isDir h).post ?_)
  rintro b w' ⟨rfl, hb⟩
  cases b with
  | true => exact hdir hb.symm
  | false => exact hnot hb.symm

theorem throughout_unlessDir {σ ε : Type} {o : Outside σ}
    {C : World σ → Call → Prop} {w : World σ} {p : Path} {e : ε}
    {R : Except ε Unit → World σ → Prop} (h : C w (.look true p))
    (hR : ∀ r, (r = .ok () → w.tree.isDir w.cwd p = true) → R r w) :
    (do if ← isDir p then return () else throw e : Attempt ε Unit).run.Throughout o C R w :=
  throughout_dirOr h (fun hdir => hR _ fun _ => hdir) fun _ => hR _ nofun

/-- Where nothing is missing above a directory, it is made at once, or refused. -/
theorem throughout_makeDirs_of_parent {σ : Type} {o : Outside σ} {C : World σ → Call → Prop}
    {w : World σ} {p : Path} {R : Except Errno Unit → World σ → Prop} (hp : p.bytes ≠ [])
    (hparent : w.tree.mkdir w.cwd p 0o777 ≠ .error .notFound)
    (hmkdir : C w (.change (.mkdir p))) (hlook : C w (.look true p))
    (hok : ∀ t', w.tree.mkdir w.cwd p 0o777 = .ok t' → R (.ok ()) { w with tree := t' })
    (herr : ∀ r, (r = .ok () → w.tree.isDir w.cwd p = true) → R r w) :
    (makeDirs p).run.Throughout o C R w := by
  rw [makeDirs, if_neg (Path.components_ne_nil hp)]
  cases ancestors p with
  | nil =>
      rw [makeDirsFrom, makeDir]
      refine Throughout.attempt_change_bind hmkdir hok fun e _ => ?_
      exact throughout_unlessDir hlook herr
  | cons parent above =>
      rw [makeDirsFrom]
      refine Throughout.attempt_change_bind hmkdir hok fun e happ => ?_
      cases e with
      | notFound => exact absurd happ hparent
      | _ => exact throughout_unlessDir hlook herr

section

variable {σ : Type} {o : Outside σ} {w : World σ} {p : Path}

theorem run_isDir (o : Outside σ) (w : World σ) (p : Path) :
    (isDir p).run o w = (w.tree.isDir w.cwd p, w) := by
  have hlook : (isDir p).Throughout o (fun _ _ => True)
      (fun b u => u = w ∧ b = w.tree.isDir w.cwd p) w :=
    throughout_isDir trivial
  obtain ⟨hstill, hfound⟩ := hlook.at_end
  exact Prod.ext hfound hstill

theorem run_unlessDir (o : Outside σ) (w : World σ) (p : Path) (e : Errno) :
    (do if ← isDir p then return () else throw e : Attempt Errno Unit).run.run o w =
      (if w.tree.isDir w.cwd p = true then .ok () else .error e, w) := by
  rw [run_bind_ok (run_lift (run_isDir o w p))]
  cases w.tree.isDir w.cwd p <;> rfl

theorem run_makeDirs_made {t : Tree} (hp : p.bytes ≠ [])
    (h : w.tree.mkdir w.cwd p 0o777 = .ok t) :
    (makeDirs p).run.run o w = (.ok (), { w with tree := t }) := by
  have hperform : w.perform o (.change (.mkdir p)) = _ :=
    World.perform_change_ok (c := .mkdir p) h
  rw [makeDirs, if_neg (Path.components_ne_nil hp)]
  cases ancestors p with
  | nil => rw [makeDirsFrom, makeDir, run_bind_ok (run_make hperform)]; rfl
  | cons parent above => rw [makeDirsFrom, run_bind_ok (run_make hperform)]; rfl

theorem run_makeDir_refused {e : Errno} (h : w.tree.mkdir w.cwd p 0o777 = .error e) :
    (makeDir p).run.run o w =
      (if w.tree.isDir w.cwd p = true then .ok () else .error e, w) := by
  have hperform : w.perform o (.change (.mkdir p)) = _ :=
    World.perform_change_error (c := .mkdir p) h
  rw [makeDir, run_bind_ok (run_make hperform)]
  exact run_unlessDir ..

theorem run_makeDirsFrom_refused {e : Errno} (h : w.tree.mkdir w.cwd p 0o777 = .error e)
    (hne : e ≠ .notFound) (above : List Path) : (makeDirsFrom p above).run.run o w =
      (if w.tree.isDir w.cwd p = true then .ok () else .error e, w) := by
  have hperform : w.perform o (.change (.mkdir p)) = _ :=
    World.perform_change_error (c := .mkdir p) h
  cases above with
  | nil => exact run_makeDir_refused h
  | cons parent above =>
      rw [makeDirsFrom, run_bind_ok (run_make hperform)]
      cases e with
      | notFound => exact absurd rfl hne
      | _ => exact run_unlessDir ..

/-- Where something is missing above a directory, what is above is made first. -/
theorem run_makeDirsFrom_missing (h : w.tree.mkdir w.cwd p 0o777 = .error .notFound) (q : Path)
    (above : List Path) : (makeDirsFrom p (q :: above)).run.run o w =
      (makeDirsFrom q above >>= fun _ => makeDir p).run.run o w := by
  have hperform : w.perform o (.change (.mkdir p)) = _ :=
    World.perform_change_error (c := .mkdir p) h
  rw [makeDirsFrom, run_bind_ok (run_make hperform)]

theorem run_makeDirs_refused {e : Errno} (hp : p.bytes ≠ [])
    (h : w.tree.mkdir w.cwd p 0o777 = .error e) (hne : e ≠ .notFound) :
    (makeDirs p).run.run o w =
      (if w.tree.isDir w.cwd p = true then .ok () else .error e, w) := by
  rw [makeDirs, if_neg (Path.components_ne_nil hp)]
  exact run_makeDirsFrom_refused h hne _

end

end Program

end LlvmBootstrap
