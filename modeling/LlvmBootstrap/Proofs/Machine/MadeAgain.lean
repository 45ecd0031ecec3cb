import LlvmBootstrap.Proofs.Machine.MadeDirs

/-!
Making a directory again. Nothing is made where one is already. Where the first attempt has
failed, the second one fails in the same way, if the path does not go up: what the first one
has left on the way does not matter, since a directory that has just been made is empty, and
making the next one in it fails only for its name.
-/

namespace LlvmBootstrap

namespace Tree

variable {t : Tree} {cwd top : Location} {p q : Path} {n : Name}

/-- On its way the path asks for a name that is too long for any entry. -/
def Stuck (t : Tree) (cwd : Location) (p : Path) : Prop :=
  ∃ pre n rest links top, p.moves = pre ++ .name n :: rest ∧
    Leads t maxLinks (p.start cwd) pre links top ∧
    maxName < n.length

theorem Stuck.extends (h : Stuck t cwd p) (ns : List Name)
    (hmoves : q.moves = p.moves ++ ns.map .name) (habs : q.isAbsolute = p.isAbsolute) :
    Stuck t cwd q := by
  obtain ⟨pre, n, rest, links, top, hp, hl, hlong⟩ := h
  refine ⟨pre, n, rest ++ ns.map .name, links, top, by simp [hmoves, hp], ?_, hlong⟩
  rwa [Path.start, habs]

theorem Stuck.mkdir (h : Stuck t cwd p) (hp : (trimSlashes p).refusal? = none) (mode : Mode) :
    t.mkdir cwd p mode = .error .nameTooLong := by
  obtain ⟨pre, n, rest, links, top, hmoves, hl, hlong⟩ := h
  have hsteps : ∃ more, steps (trimSlashes p) = pre ++ .name n :: more := by
    rcases Path.steps_eq_moves_or (trimSlashes p) with h | h <;>
      rw [h, moves_trimSlashes, hmoves]
    · exact ⟨_, rfl⟩
    · exact ⟨rest ++ [.here], by simp⟩
  obtain ⟨more, hmore⟩ := hsteps
  have hstart : (trimSlashes p).start cwd = p.start cwd := by
    rw [Path.start, Path.start, isAbsolute_trimSlashes]
  have hresolve : t.resolve cwd false (trimSlashes p) = .error .nameTooLong := by
    rw [resolve_eq, hp]
    dsimp only
    rw [hstart, hmore, hl.walk_append (List.cons_ne_nil _ _), walk, if_pos hlong]
  rw [Tree.mkdir, hresolve]
  rfl

/-- Where nothing stands below a directory, another one can be made unless its path is refused
or its name is too long. -/
theorem Reaches.mkdir_fresh (h : Reaches t cwd p top) (hq : Path.Extends p [n] q)
    (hempty : t.node? (top ++ [n]) = none) (hrefusal : q.refusal? = none)
    {e : Errno} {mode : Mode} (herror : t.mkdir cwd q mode = .error e) :
    e = .nameTooLong ∧ Stuck t cwd q ∧ t.isDir cwd q = false := by
  have hbelow := h.belowEntry hq
  have hlook : t.lookup cwd true q = _ :=
    hbelow.lookup fun _ target hl => by simp [hempty] at hl
  rw [hbelow.mkdir] at herror
  rw [arrive, hrefusal] at herror hlook
  dsimp only at herror hlook
  rw [descend] at herror hlook
  by_cases hlong : maxName < n.length
  · rw [if_pos hlong] at herror hlook
    refine ⟨(Except.error.inj herror).symm, ?_, by rw [Tree.isDir, hlook]⟩
    obtain ⟨links, hl⟩ := h.leads
    refine ⟨p.moves, n, [], links, top, hq.moves_eq, ?_, hlong⟩
    rwa [Path.start, hq.isAbsolute_eq]
  · rw [if_neg hlong, if_pos rfl, hempty] at herror
    contradiction

end Tree

namespace Path

variable {p : Path}

/-- What a path begins with, before its first move. -/
structure IsLead (lead p : Path) : Prop where
  components_eq : p.components = lead.components ++ p.moves
  moves_eq : lead.moves = []
  eq_ofComponents : ofComponents lead.components = lead
  length_le : lead.components.length ≤ 1
  isAbsolute_eq : lead.isAbsolute = p.isAbsolute
  said : lead.bytes ≠ [] ∨ p.isAbsolute = false

/-- A path begins at the root, in the current directory, or in the
current directory without saying so. -/
theorem exists_lead (p : Path) : ∃ lead : Path, IsLead lead p := by
  obtain ⟨cs, hcs, hcomps⟩ := components_eq p
  rcases hcs with ⟨rfl, habs⟩ | ⟨rfl, habs⟩ | ⟨rfl, habs⟩
  · exact ⟨⟨[slash]⟩, hcomps, rfl, rfl, by decide, habs ▸ rfl, .inl (by simp)⟩
  · exact ⟨⟨dot⟩, hcomps, rfl, rfl, by decide, habs ▸ rfl, .inr habs⟩
  · exact ⟨⟨[]⟩, hcomps, rfl, rfl, by decide, habs ▸ rfl, .inr habs⟩

theorem upper_of_length_le {absolute : Bool} {cs : List Component} (h : cs.length ≤ 1) :
    upper absolute cs = [] := by
  cases cs with
  | nil => rfl
  | cons c cs =>
      obtain rfl : cs = [] := by simpa using h
      rfl

/-- A path that does not go up is of names alone, but for where it begins. -/
theorem exists_names (h : Component.up ∉ p.components) :
    ∃ ns : List Name, p.moves = ns.map .name ∧ ∀ n ∈ ns, IsPlain n := by
  obtain ⟨lead, hlead⟩ := exists_lead p
  have hnames : ∀ c ∈ p.moves, ∃ n, IsPlain n ∧ Component.name n = c := by
    intro c hc
    have hproper := isProper_of_mem_moves hc
    have hmove : isMove c = true := List.filter_eq_self.mp (filter_isMove_filterMap _) c hc
    cases c with
    | root => contradiction
    | here => contradiction
    | up => exact absurd (hlead.components_eq ▸ List.mem_append_right _ hc) h
    | name n => exact ⟨n, hproper, rfl⟩
  generalize p.moves = cs at hnames
  induction cs with
  | nil => exact ⟨[], rfl, by simp⟩
  | cons c cs ih =>
      obtain ⟨ns, rfl, hns⟩ := ih fun c' hc' => hnames c' (List.mem_cons_of_mem _ hc')
      obtain ⟨n, hn, rfl⟩ := hnames c (List.mem_cons_self ..)
      exact ⟨n :: ns, rfl, List.forall_mem_cons.mpr ⟨hn, hns⟩⟩

end Path

namespace Program

open LlvmBootstrap.Tree

variable {σ : Type} {o : Outside σ} {w w' : World σ} {dest p q : Path} {ns : List Name}
  {above : List Path}

inductive Climbed (p : Path) (w : World σ) : Except Errno Unit → World σ → Prop
  | still (res : Except Errno Unit) : Climbed p w res w
  | fresh {w' : World σ} {top : Location} (hcwd : w'.cwd = w.cwd) (hsound : w'.IsSound)
      (hr : Reaches w'.tree w'.cwd p top) (hempty : ∀ n, w'.tree.node? (top ++ [n]) = none)
      (hp : p.refusal? = none) : Climbed p w (.ok ()) w'
  | stuck {w' : World σ} (hcwd : w'.cwd = w.cwd) (h : Stuck w'.tree w'.cwd p) :
      Climbed p w (.error .nameTooLong) w'

/-- A path that a directory is missing for is not refused as it is. -/
theorem refusal?_of_mkdir_notFound {t : Tree} {cwd : Location} {mode : Mode}
    (hp : p.bytes ≠ []) (h : t.mkdir cwd p mode = .error .notFound) :
    (trimSlashes p).refusal? = none := by
  have hne := Path.refusal?_ne_notFound (trimSlashes_ne_nil hp)
  rw [Tree.mkdir, resolve_eq] at h
  cases hr : (trimSlashes p).refusal? with
  | none => rfl
  | some e =>
      rw [hr] at h
      exact absurd (hr.trans (congrArg some (Except.error.inj h))) hne

theorem refusal?_of_mkdir_ok {t t' : Tree} {cwd : Location} {mode : Mode}
    (h : t.mkdir cwd p mode = .ok t') : (trimSlashes p).refusal? = none := by
  obtain ⟨dir, n, hr, -⟩ := mkdir_eq_ok h
  rw [resolve_eq] at hr
  split at hr
  · contradiction
  · assumption

theorem climbed_of_mkdir {w₀ : World σ} {t : Tree} (hs : w.IsSound) (hcwd : w.cwd = w₀.cwd)
    (hp : trimSlashes p = p) (h : w.tree.mkdir w.cwd p 0o777 = .ok t) :
    Climbed p w₀ (.ok ()) { w with tree := t } := by
  have hrefusal := refusal?_of_mkdir_ok h
  have hroutes := (newDirs_of_mkdir h).routesKept
  obtain ⟨hc, loc, hnone, rfl, hr⟩ := Reaches.of_mkdir hs.closed (dir_start hs.cwd _) h
  obtain ⟨mode, hm⟩ := hs.cwd
  refine .fresh hcwd ⟨hc, hroutes.dirs _ _ hm⟩ hr (fun n => ?_) (hp ▸ hrefusal)
  rw [node?_put_of_ne _ _ (by simp)]
  exact hs.closed.node?_below (by simp [hnone]) (List.cons_ne_nil _ _)

/-- Below a directory that is there, name by name. -/
theorem climbed_makeDirsFrom {top : Location} (hs : w.IsSound) (ha : Path.Climbs dest ns above)
    (hp : Path.Extends dest ns p) (hr : Reaches w.tree w.cwd dest top) :
    (makeDirsFrom p above).run.Throughout o (fun _ _ => True) (Climbed p w) w := by
  have htrim : ∀ {ms : List Name} {q}, ms ≠ [] → Path.Extends dest ms q →
      trimSlashes q = q := fun hne hq =>
    trimSlashes_of_steps hne ((hq.last hne).1.trans hq.moves_eq)
  have hstill : ∀ q e,
      (do if ← isDir q then return () else throw e : Attempt Errno Unit).run.Throughout o
      (fun _ _ => True) (Climbed q w) w :=
        fun q e => throughout_unlessDir trivial fun r _ => .still r
  -- Up the parents, as in making them: below each call that found its parent missing stands
  -- what the parents came to.
  induction ha generalizing p with
  | first n above =>
      have hb : Below w.tree w.cwd top p [n] := hr.belowEntry hp
      have hok : ∀ t', w.tree.mkdir w.cwd p 0o777 = .ok t' →
          Climbed p w (.ok ()) { w with tree := t' } :=
        fun t' happ => climbed_of_mkdir hs rfl (htrim (List.cons_ne_nil _ _) hp) happ
      cases above with
      | nil =>
          rw [makeDirsFrom, makeDir]
          exact Throughout.attempt_change_bind trivial hok fun e _ => hstill p e
      | cons parent above =>
          rw [makeDirsFrom]
          refine Throughout.attempt_change_bind trivial hok fun e happ => ?_
          cases e with
          | notFound =>
              exact absurd happ (hb.mkdir_ne_notFound (hp.last (List.cons_ne_nil _ _)).2 _)
          | _ => exact hstill p _
  | @more ns n q above hne hq rest ih =>
      have hne' : ns ++ [n] ≠ [] := by simp
      have hext : Path.Extends q [n] p := by
        refine ⟨?_, hp.isAbsolute_eq.trans hq.isAbsolute_eq.symm, fun _ => hp.last hne'⟩
        rw [hp.moves_eq, hq.moves_eq, List.map_append, List.append_assoc]
      rw [makeDirsFrom]
      refine Throughout.attempt_change_bind trivial (fun t' happ => ?_) fun e happ => ?_
      · exact climbed_of_mkdir hs rfl (htrim hne' hp) happ
      · cases e with
        | notFound =>
            have hrefusal : p.refusal? = none := by
              rw [← htrim hne' hp]
              exact refusal?_of_mkdir_notFound (hp.last hne').2 happ
            refine Throughout.attempt_bind (ih hq) ?_ ?_
            · intro _ w' h
              rw [makeDir]
              cases h with
              | still =>
                  refine Throughout.attempt_change_bind trivial
                    (fun t' happ' => ?_) fun e _ => hstill p e
                  exact climbed_of_mkdir hs rfl (htrim hne' hp) happ'
              -- The parent is new and empty, so a directory that is
              -- refused in it would be refused again.
              | fresh hcwd hs' hr' hempty hq' =>
                  refine Throughout.attempt_change_bind trivial
                    (fun t' happ' => ?_) fun e happ' => ?_
                  · exact climbed_of_mkdir hs' hcwd (htrim hne' hp) happ'
                  · obtain ⟨rfl, hstuck, hdir⟩ :=
                      hr'.mkdir_fresh hext (hempty n) hrefusal happ'
                    refine throughout_dirOr trivial (fun h => ?_) fun _ => .stuck hcwd hstuck
                    rw [hdir] at h
                    contradiction
            · intro e w' h
              cases h with
              | still => exact .still _
              | stuck hcwd h =>
                  exact .stuck hcwd (h.extends [n] hext.moves_eq hext.isAbsolute_eq)
        | _ => exact hstill p _

theorem climbed_of_reaches {top : Location} (hr : Reaches w.tree w.cwd p top) :
    (makeDir p).run.Throughout o (fun _ _ => True) (Climbed p w) w := by
  rw [makeDir]
  refine Throughout.attempt_change_bind trivial (fun t' happ => ?_) fun e _ => ?_
  · have hmkdir : w.tree.mkdir w.cwd p 0o777 = .ok t' := happ
    rw [hr.mkdir] at hmkdir
    contradiction
  · exact throughout_unlessDir trivial fun r _ => .still r

/-- The parent of a path that does not go up, if it has one besides the root. -/
theorem exists_parent (hup : Component.up ∉ p.components) : ancestors p = [] ∨
    ∃ q above n, ancestors p = q :: above ∧ p.moves = q.moves ++ [.name n] ∧
      p.isAbsolute = q.isAbsolute ∧
      q.bytes ≠ [] ∧ ∀ w : World σ, w.IsSound →
        (makeDirsFrom q above).run.Throughout o (fun _ _ => True) (Climbed q w) w := by
  obtain ⟨lead, hlead⟩ := Path.exists_lead p
  obtain ⟨ns, hmoves, hplain⟩ := Path.exists_names hup
  have hancestors : ancestors p =
      Path.upper p.isAbsolute (lead.components ++ ns.map .name) := by
    rw [← hmoves, ← hlead.components_eq]
    rfl
  rcases List.eq_nil_or_concat' ns with rfl | ⟨ms, n, rfl⟩
  · rw [hancestors, List.map_nil, List.append_nil]
    exact .inl (Path.upper_of_length_le hlead.length_le)
  rw [List.map_append, List.map_singleton, ← List.append_assoc,
    Path.upper_concat] at hancestors
  split at hancestors
  · next hshort =>
    refine .inl (hancestors.trans (Path.upper_of_length_le ?_))
    rcases hshort with h | ⟨h, -⟩ <;> omega
  · next hlong =>
    refine .inr ⟨_, _, n, hancestors, ?_⟩
    -- What leads the path asks for no move, so it is where the walk starts.
    have hreaches : ∀ w : World σ, w.IsSound →
        Reaches w.tree w.cwd lead (lead.start w.cwd) := fun w hs =>
      ⟨⟨maxLinks, hlead.moves_eq ▸ .done ..⟩, dir_start hs.cwd lead⟩
    by_cases hms : ms = []
    · subst hms
      have hne : lead.bytes ≠ [] := fun h => hlong (.inl (by simp [Path.components_eq_nil h]))
      simp only [List.map_nil, List.append_nil, hlead.eq_ofComponents,
        Path.upper_of_length_le hlead.length_le]
      refine ⟨by simp [hmoves, hlead.moves_eq], hlead.isAbsolute_eq.symm, hne, fun w hs => ?_⟩
      exact climbed_of_reaches (hreaches w hs)
    · have hmplain : ∀ n ∈ ms, Path.IsPlain n :=
        fun n hn => hplain n (List.mem_append_left _ hn)
      have hext := Path.extends_ofComponents lead hms hmplain
      have hlast := hext.last hms
      refine ⟨by simp [hmoves, hext.moves_eq, hlead.moves_eq],
        (hext.isAbsolute_eq.trans hlead.isAbsolute_eq).symm,
        hlast.2, fun w hs => ?_⟩
      exact climbed_makeDirsFrom hs (Path.climbs_upper _ hlead.said hms hmplain) hext
        (hreaches w hs)

/-! ### The second attempt -/

/-- Where a path leads is made again: nothing is, and only the path
itself tells what this comes to. -/
theorem run_makeDirs_of_reaches {top : Location} (hr : Reaches w.tree w.cwd p top) :
    (makeDirs p).run.run o w = (if p.bytes = [] ∨ p.refusal? = none then .ok ()
      else .error ((trimSlashes p).refusal?.getD .exists), w) := by
  by_cases hp : p.bytes = []
  · rw [makeDirs, if_pos (Path.components_eq_nil hp), if_pos (.inl hp)]
    rfl
  · have hmkdir := hr.mkdir 0o777
    have hdir : w.tree.isDir w.cwd p = true ↔ p.bytes = [] ∨ p.refusal? = none :=
      ⟨fun h => .inr (isDir_iff.mp h).1, fun h => hr.isDir (h.resolve_left hp)⟩
    rw [run_makeDirs_refused hp hmkdir fun h => hr.mkdir_ne_notFound hp _ (h ▸ hmkdir)]
    simp only [hdir]

/-- Where making a directory fails, nothing has been made by the last step. -/
theorem run_makeDir_error {e : Errno} (h : (makeDir p).run.run o w = (.error e, w')) :
    w' = w ∧ w.tree.mkdir w.cwd p 0o777 = .error e := by
  cases hmkdir : w.tree.mkdir w.cwd p 0o777 with
  | ok t =>
      have hperform : w.perform o (.change (.mkdir p)) = _ :=
        World.perform_change_ok (c := .mkdir p) hmkdir
      rw [makeDir, run_bind_ok (run_make hperform)] at h
      cases (Prod.mk.inj h).1
  | error e' =>
      rw [run_makeDir_refused hmkdir] at h
      obtain ⟨hres, rfl⟩ := Prod.mk.inj h
      split at hres
      · contradiction
      · exact ⟨rfl, congrArg Except.error (Except.error.inj hres)⟩

theorem run_makeDirs_missing {above : List Path} (hp : p.bytes ≠ [])
    (habove : ancestors p = q :: above) (h : w.tree.mkdir w.cwd p 0o777 = .error .notFound) :
    (makeDirs p).run.run o w = (makeDirsFrom q above >>= fun _ => makeDir p).run.run o w := by
  rw [makeDirs, if_neg (Path.components_ne_nil hp), habove, run_makeDirsFrom_missing h]

theorem run_makeDirsFrom_of_reaches {top : Location} (hr : Reaches w.tree w.cwd q top)
    (hne : q.bytes ≠ []) (hq : q.refusal? = none) (above : List Path) :
    (makeDirsFrom q above).run.run o w = (.ok (), w) := by
  have hfound : (trimSlashes q).refusal?.getD .exists ≠ .notFound := fun heq =>
    hr.mkdir_ne_notFound hne 0o777 ((hr.mkdir _).trans (congrArg Except.error heq))
  rw [run_makeDirsFrom_refused (hr.mkdir _) hfound, if_pos (hr.isDir hq)]

/-- Once it is known what became of the parent: nothing has been made, or the
second attempt fails in the same way. -/
theorem still_or_again {above : List Path} {n : Name} {e : Errno} {res : Except Errno Unit}
    {w₁ : World σ} (hp : p.bytes ≠ []) (habove : ancestors p = q :: above)
    (hmoves : p.moves = q.moves ++ [.name n]) (habs : p.isAbsolute = q.isAbsolute)
    (hq : q.bytes ≠ []) (hmissing : w.tree.mkdir w.cwd p 0o777 = .error .notFound)
    (hparent : (makeDirsFrom q above).run.run o w = (res, w₁)) (hclimbed : Climbed q w res w₁)
    (h : (makeDirs p).run.run o w = (.error e, w')) (hdir : w'.tree.isDir w'.cwd p = false) :
    w' = w ∨ (makeDirs p).run.run o w' = (.error e, w') := by
  have hrefused : ∀ {e'}, w'.tree.mkdir w'.cwd p 0o777 = .error e' → e' ≠ .notFound →
      (makeDirs p).run.run o w' = (.error e', w') := fun {e'} hmkdir hnot => by
    rw [run_makeDirs_refused hp hmkdir hnot, hdir]
    rfl
  rw [run_makeDirs_missing hp habove hmissing] at h
  -- Either nothing has been made, or what stopped the parents is still in
  -- the way, or they are there now.
  cases hclimbed with
  | still =>
      cases res with
      | error e₁ =>
          rw [run_bind_error hparent] at h
          exact .inl (congrArg Prod.snd h).symm
      | ok u =>
          rw [run_bind_ok hparent] at h
          exact .inl (run_makeDir_error h).1
  | stuck hcwd hstuck =>
      rw [run_bind_error hparent] at h
      obtain ⟨⟨⟩, rfl⟩ := Prod.mk.inj h
      have htrim := refusal?_of_mkdir_notFound hp hmissing
      exact .inr (hrefused ((hstuck.extends [n] hmoves habs).mkdir htrim _) (by simp))
  | fresh hcwd hs₁ hr hempty hqr =>
      rw [run_bind_ok hparent] at h
      obtain ⟨rfl, hmkdir⟩ := run_makeDir_error h
      by_cases hnot : e = .notFound
      · -- The parent is there now, and this one still cannot be made in it.
        subst hnot
        rw [run_makeDirs_missing hp habove hmkdir,
          run_bind_ok (run_makeDirsFrom_of_reaches hr hq hqr above)]
        exact .inr h
      · exact .inr (hrefused hmkdir hnot)

/-- Making a directory fails again as it has failed, if the path does not go up. -/
theorem run_makeDirs_again {e : Errno} (hs : w.IsSound) (hup : Component.up ∉ p.components)
    (h : (makeDirs p).run.run o w = (.error e, w')) :
    (makeDirs p).run.run o w' = (.error e, w') := by
  have hp : p.bytes ≠ [] := fun hnil => by
    rw [makeDirs, if_pos (Path.components_eq_nil hnil)] at h
    cases (Prod.mk.inj h).1
  have hagain : w' = w ∨ (makeDirs p).run.run o w' = (.error e, w') := by
    cases hmkdir : w.tree.mkdir w.cwd p 0o777 with
    | ok t =>
        rw [run_makeDirs_made hp hmkdir] at h
        cases (Prod.mk.inj h).1
    | error e₀ =>
        by_cases hmissing : e₀ = .notFound
        · subst hmissing
          rcases exists_parent (o := o) hup with hnone | ⟨q, above, n, habove, hmoves,
            habs, hq, hclimbed⟩
          · rw [makeDirs, if_neg (Path.components_ne_nil hp), hnone] at h
            exact .inl (run_makeDir_error h).1
          · exact still_or_again hp habove hmoves habs hq hmkdir rfl (hclimbed w hs).at_end h
              (isDir_of_makeDirs_error hs h)
        · rw [run_makeDirs_refused hp hmkdir hmissing] at h
          exact .inl (Prod.mk.inj h).2.symm
  rcases hagain with rfl | hagain
  · exact h
  · exact hagain

end Program

end LlvmBootstrap
