import LlvmBootstrap.Archive.Unpack
import LlvmBootstrap.Proofs.Archive.Touches
import LlvmBootstrap.Proofs.Machine.Amid
import LlvmBootstrap.Proofs.Machine.Files

/-!
Unpacking an archive into an empty directory, call by call: every call is one of those of
`Touches`. The way to a member meets no link because it has been looked at just before, and the
directories that are made for it in between are no links. What others do in the meantime is of
no account as long as it makes no links on such a way.
-/

namespace LlvmBootstrap.Archive

open LlvmBootstrap.Tree Program

structure EmptyDir (t : Tree) (cwd : Location) (dest : Path) (top : Location) : Prop where
  reaches : Reaches t cwd dest top
  vacant : t.isVacantBelow top = true
  named : dest.bytes ≠ []

/-- The world while an archive is unpacked by one alone: what has
changed stands below `top`. -/
structure Inside {σ : Type} (L : List Name → Path → Prop) (t₀ : Tree) (cwd top : Location)
    (w : World σ) : Prop where
  cwd : w.cwd = cwd
  confined : Confined L top t₀ w.tree

/-- What holds of the world while an archive is unpacked into `dest`, the directory `top`. -/
structure Shelter {σ : Type} (L : List Name → Path → Prop) (top : Location) (dest : Path)
    (I : World σ → Prop) : Prop where
  named : dest.bytes ≠ []
  reaches : ∀ {w : World σ}, I w → Reaches w.tree w.cwd dest top
  vacant_below : ∀ {w : World σ} {pre ns : List Name}, I w → w.tree.node? (top ++ pre) = none →
    pre <+: ns → w.tree.node? (top ++ ns) = none
  change : ∀ {w : World σ} {c : Change} {t' : Tree}, I w → TouchesBy L w.tree top dest c →
    c.apply w.tree w.cwd = .ok t' → I { w with tree := t' }

/-- `w'` is still as `I` says, and no way below `top` meets a link that met none in `w`. -/
structure Steady {σ : Type} (I : World σ → Prop) (top : Location) (w w' : World σ) : Prop where
  inv : I w'
  unlinked : ∀ {ns : List Name}, Unlinked w.tree top ns → Unlinked w'.tree top ns

def Permits {σ : Type} (L : List Name → Path → Prop) (I : World σ → Prop) (top : Location)
    (dest : Path) (w : World σ) (c : Call) : Prop :=
  I w ∧ Touches L w.tree top dest c

theorem shelter_inside {σ : Type} {L : List Name → Path → Prop} {t₀ : Tree}
    {cwd top : Location} {dest : Path} (he : EmptyDir t₀ cwd dest top) :
    Shelter L top dest (Inside L t₀ cwd top : World σ → Prop) where
  named := he.named
  reaches hw := by
    rw [hw.cwd]
    exact he.reaches.mono (hw.confined.routesKept he.vacant)
  vacant_below hw := hw.confined.vacant_below
  change hw ht happ := by
    refine ⟨hw.cwd, ht.confined hw.confined ?_ happ⟩
    rw [hw.cwd]
    exact he.reaches.mono (hw.confined.routesKept he.vacant)

variable {σ : Type} {o : Outside σ} {R : World σ → World σ → Prop}
  {L : List Name → Path → Prop} {top : Location} {dest p : Path} {I : World σ → Prop}
  {past : List Answered} {w w' w'' : World σ} {ns : List Name}

namespace Steady

theorem refl (hw : I w) : Steady I top w w := ⟨hw, id⟩

theorem trans (h : Steady I top w w') (h' : Steady I top w' w'') : Steady I top w w'' :=
  ⟨h'.inv, fun hu => h'.unlinked (h.unlinked hu)⟩

theorem clear (h : Steady I top w w') (hc : Clear w.tree top dest p ns) :
    Clear w'.tree top dest p ns :=
  ⟨hc.names, hc.ne_nil, h.unlinked hc.unlinked⟩

end Steady

section

variable (hs : Shelter L top dest I) (hR : ∀ w w', I w → R w w' → Steady I top w w')

include hs hR

/-- A change is refused, or it is done inside. -/
theorem amid_change {ε β : Type} {c : Change} {f : (Call.change c).Answer → Attempt ε β}
    {Q : Except ε β → World σ → Prop} (hw : I w)
    (ht : ∀ w', Steady I top w w' → TouchesBy L w'.tree top dest c)
    (hok : ∀ w' t' past', Steady I top w w' → c.apply w'.tree w'.cwd = .ok t' →
      I { w' with tree := t' } →
      (f (.ok ())).run.Amid o (fun _ => R) (fun _ => Permits L I top dest)
        (fun a _ => Q a) past' { w' with tree := t' })
    (herr : ∀ w' e past', Steady I top w w' → c.apply w'.tree w'.cwd = .error e →
      (f (.error e)).run.Amid o (fun _ => R) (fun _ => Permits L I top dest)
        (fun a _ => Q a) past' w') :
    ((make (.change c) : Attempt ε (Call.change c).Answer) >>= f).run.Amid o (fun _ => R)
      (fun _ => Permits L I top dest) (fun a _ => Q a) past w := by
  refine Amid.attempt_call_bind id fun w' hw' => ?_
  have hsteady := hR w w' hw hw'
  refine ⟨⟨hsteady.inv, .change (ht w' hsteady)⟩, ?_⟩
  cases happ : c.apply w'.tree w'.cwd with
  | error e =>
      rw [World.perform_change_error happ]
      exact herr w' e _ hsteady happ
  | ok t' =>
      rw [World.perform_change_ok happ]
      exact hok w' t' _ hsteady happ (hs.change hsteady.inv (ht w' hsteady) happ)

omit hs in
/-- A look, after which the world is as it was. -/
theorem amid_look {ε β : Type} {follow : Bool} {q : Path}
    {f : (Call.look follow q).Answer → Attempt ε β}
    {Q : Except ε β → World σ → Prop} (hw : I w)
    (ht : ∀ w', Steady I top w w' → Touches L w'.tree top dest (.look follow q))
    (h : ∀ w' past', Steady I top w w' →
      (f ((w'.tree.lookup w'.cwd follow q).map (·.2.objectKind))).run.Amid o (fun _ => R)
        (fun _ => Permits L I top dest) (fun a _ => Q a) past' w') :
    ((make (.look follow q) : Attempt ε (Call.look follow q).Answer) >>= f).run.Amid o
      (fun _ => R) (fun _ => Permits L I top dest) (fun a _ => Q a) past w := by
  refine Amid.attempt_call_bind id fun w' hw' => ?_
  have hsteady := hR w w' hw hw'
  exact ⟨⟨hsteady.inv, ht w' hsteady⟩, h w' _ hsteady⟩

/-! ### Looking for links -/

omit hR in
theorem node?_of_notFound (hw : I w) (hc : Clear w.tree top dest p ns)
    (h : w.tree.arrive top p ns = .error .notFound) : w.tree.node? (top ++ ns) = none := by
  unfold arrive at h
  split at h
  · rename_i e hr
    rw [Except.error.inj h] at hr
    exact absurd hr (Path.refusal?_ne_notFound (hc.names.last hc.ne_nil).2)
  · obtain ⟨pre, hpre, hnone⟩ := vacant_of_descend hc.ne_nil h
    exact hs.vacant_below hw hnone hpre

omit hR in
/-- Below a place where nothing stands there is no link either. -/
theorem unlinked_append (hw : I w) (hu : Unlinked w.tree top ns)
    (hn : w.tree.node? (top ++ ns) = none) (rest : List Name) :
    Unlinked w.tree top (ns ++ rest) := by
  intro pre hpre hne target ht
  rcases List.prefix_or_prefix_of_prefix hpre (List.prefix_append ns rest) with hle | hle
  · exact hu pre hle hne target ht
  · rw [hs.vacant_below hw hn hle] at ht
    contradiction

theorem amid_meetsLink {dir : Path} {pre names : List Name} (hw : I w)
    (hd : Path.Extends dest pre dir) (hp : ∀ n ∈ names, Path.IsPlain n)
    (hu : Unlinked w.tree top pre) :
    (meetsLink dir names).run.Amid o (fun _ => R) (fun _ => Permits L I top dest)
      (fun r _ w' => Steady I top w w' ∧ (r = .ok false → Unlinked w'.tree top (pre ++ names)))
      past w := by
  -- Along the names: `pre` are those behind, on which no link has been met.
  induction names generalizing dir pre past w with
  | nil => exact ⟨.refl hw, fun _ => by rwa [List.append_nil]⟩
  | cons n ns ih =>
      have hclear : ∀ w', Steady I top w w' →
          Clear w'.tree top dest (dir / (⟨n⟩ : Path)) (pre ++ [n]) := fun w' hw' =>
        ⟨hd.concat (hp n (List.mem_cons_self ..)), by simp, by
          rw [List.dropLast_concat]
          exact hw'.unlinked hu⟩
      rw [meetsLink]
      refine amid_look hR (Q := fun r w' => Steady I top w w' ∧
          (r = .ok false → Unlinked w'.tree top (pre ++ n :: ns))) hw
        (fun w' hw' => .look (hclear w' hw') fun hf => absurd hf Bool.false_ne_true)
        fun w' past' hw' => ?_
      have hc := hclear w' hw'
      rw [(hc.below (hs.reaches hw'.inv)).lookup_false]
      have hmore : (∀ target, w'.tree.node? (top ++ (pre ++ [n])) ≠ some (.link target)) →
          (meetsLink (dir / (⟨n⟩ : Path)) ns).run.Amid o (fun _ => R)
            (fun _ => Permits L I top dest)
            (fun r _ w'' => Steady I top w w'' ∧
              (r = .ok false → Unlinked w''.tree top (pre ++ n :: ns)))
            past' w' := by
        intro hn
        refine (ih hw'.inv hc.names (fun m hm => hp m (List.mem_cons_of_mem _ hm))
          ((hw'.unlinked hu).concat hn)).post fun r _ w'' ⟨hw'', hun⟩ =>
            ⟨hw'.trans hw'', fun hr => ?_⟩
        have hun := hun hr
        rwa [List.append_assoc] at hun
      -- Where nothing stands the walk ends, and there is no link further down either.
      have hend : w'.tree.node? (top ++ (pre ++ [n])) = none →
          Unlinked w'.tree top (pre ++ n :: ns) := by
        intro hn
        have hun := unlinked_append hs hw'.inv
          ((hw'.unlinked hu).concat fun target ht => by simp [hn] at ht) hn ns
        rwa [List.append_assoc] at hun
      cases ha : w'.tree.arrive top (dir / (⟨n⟩ : Path)) (pre ++ [n]) with
      | error e =>
          cases e with
          | notFound => exact ⟨hw', fun _ => hend (node?_of_notFound hs hw'.inv hc ha)⟩
          | _ => exact ⟨hw', nofun⟩
      | ok found =>
          have hnode := node?_of_arrive hc.ne_nil ha
          cases found with
          | none => exact ⟨hw', fun _ => hend hnode⟩
          | some node =>
              cases node with
              | link target => exact ⟨hw', nofun⟩
              | dir mode =>
                  refine hmore fun target ht => ?_
                  simp [hnode] at ht
              | file id =>
                  refine hmore fun target ht => ?_
                  simp [hnode] at ht

/-! ### Making directories -/

omit hs hR in
/-- A change below the destination that makes a directory. -/
theorem steady_of_mkdir {t' : Tree} {mode : Mode} (hw' : Steady I top w w')
    (hI : I { w' with tree := t' }) (happ : w'.tree.mkdir w'.cwd p mode = .ok t') :
    Steady I top w { w' with tree := t' } :=
  ⟨hI, fun hu => (newDirs_of_mkdir happ).unlinked (hw'.unlinked hu)⟩

omit hs in
/-- An error that does not count if there is a directory all the same. -/
theorem amid_unlessDir {ε : Type} {q : Path} {e : ε} (hw : I w)
    (h : ∀ w', Steady I top w w' → Touches L w'.tree top dest (.look true q)) :
    (do if ← Program.isDir q then return () else throw e : Attempt ε Unit).run.Amid o
      (fun _ => R) (fun _ => Permits L I top dest) (fun _ _ => Steady I top w) past w := by
  refine Amid.attempt_lift_bind (P := fun _ _ => Steady I top w) ?_ fun b past' w' hw' => ?_
  · rw [Program.isDir]
    refine Amid.call_bind id fun w' hw' => ?_
    have hsteady := hR w w' hw hw'
    refine ⟨⟨hsteady.inv, h w' hsteady⟩, ?_⟩
    split <;> exact hsteady
  · cases b <;> exact hw'

omit hs in
theorem amid_unlessDir_of_clear {ε : Type} {e : ε} (hw : Steady I top w w')
    (hc : Clear w'.tree top dest p ns) (hu : Unlinked w'.tree top ns) :
    (do if ← Program.isDir p then return () else throw e : Attempt ε Unit).run.Amid o
      (fun _ => R) (fun _ => Permits L I top dest) (fun _ _ => Steady I top w) past w' := by
  refine (amid_unlessDir hR hw.inv fun w'' hw'' => ?_).post fun _ _ _ => hw.trans
  exact .look (hw''.clear hc) fun _ => hw''.unlinked hu

theorem amid_makeDir (hw : I w) (hc : Clear w.tree top dest p ns)
    (hu : Unlinked w.tree top ns) :
    (makeDir p).run.Amid o (fun _ => R) (fun _ => Permits L I top dest)
      (fun _ _ => Steady I top w) past w := by
  rw [makeDir]
  refine amid_change hs hR (Q := fun _ => Steady I top w) hw
    (fun w' hw' => .mkdir (hw'.clear hc))
    (fun w' t' _ hw' happ hI => ?_) fun w' e _ hw' _ => ?_
  · exact steady_of_mkdir hw' hI happ
  · exact amid_unlessDir_of_clear hR hw' (hw'.clear hc) (hw'.unlinked hu)

theorem amid_makeDirsFrom {above : List Path} (hw : I w) (ha : Path.Climbs dest ns above)
    (hp : Path.Extends dest ns p) (hu : Unlinked w.tree top ns) :
    (makeDirsFrom p above).run.Amid o (fun _ => R) (fun _ => Permits L I top dest)
      (fun _ _ => Steady I top w) past w := by
  -- Up the parents of the path, as far as they lie below the destination.
  induction ha generalizing p past w with
  | first n above =>
      have hc : Clear w.tree top dest p [n] := ⟨hp, by simp, unlinked_nil _ _⟩
      cases above with
      | nil => exact amid_makeDir hs hR hw hc hu
      | cons parent above =>
          rw [makeDirsFrom]
          refine amid_change hs hR (Q := fun _ => Steady I top w) hw
            (fun w' hw' => .mkdir (hw'.clear hc))
            (fun w' t' _ hw' happ hI => ?_) fun w' e _ hw' happ => ?_
          · exact steady_of_mkdir hw' hI happ
          · -- The parent is the destination itself, which is there: nothing is made above it.
            have hnot : e ≠ .notFound := by
              rintro rfl
              have hb := (hw'.clear hc).below (hs.reaches hw'.inv)
              exact hb.mkdir_ne_notFound (hp.last hc.ne_nil).2 _ happ
            cases e with
            | notFound => contradiction
            | _ => exact amid_unlessDir_of_clear hR hw' (hw'.clear hc) (hw'.unlinked hu)
  | @more ns n q above hne hq rest ih =>
      have hc : Clear w.tree top dest p (ns ++ [n]) :=
        ⟨hp, by simp, by simpa using hu.of_prefix (List.prefix_append ns [n])⟩
      rw [makeDirsFrom]
      refine amid_change hs hR (Q := fun _ => Steady I top w) hw
        (fun w' hw' => .mkdir (hw'.clear hc))
        (fun w' t' _ hw' happ hI => ?_) fun w' e _ hw' _ => ?_
      · exact steady_of_mkdir hw' hI happ
      · cases e with
        | notFound =>
            have hup : Unlinked w.tree top ns := hu.of_prefix (List.prefix_append ns [n])
            refine Amid.attempt_bind (P := fun _ _ => Steady I top w) ?_ ?_ fun _ _ _ h => h
            · exact (ih hw'.inv hq (hw'.unlinked hup)).post fun _ _ _ => hw'.trans
            · rintro ⟨⟩ past' w'' hw''
              refine (amid_makeDir hs hR hw''.inv (hw''.clear hc) (hw''.unlinked hu)).post ?_
              exact fun _ _ _ => hw''.trans
        | _ => exact amid_unlessDir_of_clear hR hw' (hw'.clear hc) (hw'.unlinked hu)

/-- The directories above a member's place. The destination itself is there. -/
theorem amid_makeDirs (hw : I w) (hp : ∀ n ∈ ns, Path.IsPlain n)
    (hu : Unlinked w.tree top ns) :
    (makeDirs (dest / Path.ofNames ns)).run.Amid o (fun _ => R) (fun _ => Permits L I top dest)
      (fun _ _ => Steady I top w) past w := by
  have habs := Path.isAbsolute_ofNames hp
  have hbytes := Path.join_ne_nil hs.named habs
  have hext := Path.extends_ofNames dest hp
  rw [makeDirs, if_neg (Path.components_ne_nil hbytes)]
  by_cases hne : ns = []
  · subst hne
    -- With no names the path is another spelling of the destination,
    -- where no directory can be made.
    have hreach : ∀ w', Steady I top w w' →
        Reaches w'.tree w'.cwd (dest / Path.ofNames []) top := fun w' hw' =>
      reaches_top (hs.reaches hw'.inv) hext
    have hrefused (w' t') (hw' : Steady I top w w') :
        (Change.mkdir (dest / Path.ofNames [])).apply w'.tree w'.cwd ≠ .ok t' := by
      rw [Change.apply, (hreach w' hw').mkdir]
      simp
    have hthere : ∀ {w' past'} (e : Errno), Steady I top w w' →
        (do if ← Program.isDir (dest / Path.ofNames []) then return () else throw e :
          Attempt Errno Unit).run.Amid o (fun _ => R) (fun _ => Permits L I top dest)
          (fun _ _ => Steady I top w) past' w' := fun e hw' =>
      (amid_unlessDir hR hw'.inv fun _ _ => .lookTop hext).post fun _ _ _ => hw'.trans
    cases ancestors (dest / Path.ofNames []) with
    | nil =>
        rw [makeDirsFrom, makeDir]
        refine amid_change hs hR (Q := fun _ => Steady I top w) hw (fun _ _ => .mkdirTop hext)
          (fun w' t' _ hw' happ _ => absurd happ (hrefused w' t' hw'))
          fun w' e _ hw' _ => hthere e hw'
    | cons parent above =>
        rw [makeDirsFrom]
        refine amid_change hs hR (Q := fun _ => Steady I top w) hw (fun _ _ => .mkdirTop hext)
          (fun w' t' _ hw' happ _ => absurd happ (hrefused w' t' hw'))
          fun w' e _ hw' happ => ?_
        cases e with
        | notFound => exact absurd happ ((hreach w' hw').mkdir_ne_notFound hbytes _)
        | _ => exact hthere _ hw'
  · exact amid_makeDirsFrom hs hR hw (climbs_ancestors hs.named hne hp) hext hu

/-! ### Making a member -/

/-- A change that is done inside or refused, with nothing behind it. -/
theorem amid_lastChange {c : Change} {Q : Except Errno Unit → World σ → Prop} (hw : I w)
    (ht : ∀ w', Steady I top w w' → TouchesBy L w'.tree top dest c)
    (hok : ∀ w' t', Steady I top w w' → c.apply w'.tree w'.cwd = .ok t' →
      I { w' with tree := t' } →
      Q (.ok ()) { w' with tree := t' })
    (herr : ∀ w' e, Steady I top w w' → Q (.error e) w') :
    (change c).run.Amid o (fun _ => R) (fun _ => Permits L I top dest)
      (fun a _ => Q a) past w := by
  exact amid_change hs hR (Q := Q) (f := fun answer => ExceptT.mk (pure answer)) hw ht
    (fun w' t' _ => hok w' t') fun w' e _ hw' _ => herr w' e hw'

/-- Putting something in place of what stands there. `N` says that it is no link. -/
theorem amid_replacing {c : Change} {N : Prop} (hw : I w) (hc : Clear w.tree top dest p ns)
    (ht : ∀ t, Clear t top dest p ns → TouchesBy L t top dest c)
    (hn : N → ∀ t cwd t', c.apply t cwd = .ok t' → NoNewLinks t t') :
    (replacing p c).run.Amid o (fun _ => R) (fun _ => Permits L I top dest)
      (fun _ _ w' => I w' ∧ (N → Steady I top w w')) past w := by
  have hsame : ∀ {w'}, Steady I top w w' → I w' ∧ (N → Steady I top w w') :=
    fun hw' => ⟨hw'.inv, fun _ => hw'⟩
  have hdone : ∀ {w' t'}, Steady I top w w' → c.apply w'.tree w'.cwd = .ok t' →
      I { w' with tree := t' } →
      I { w' with tree := t' } ∧
        (N → Steady I top w { w' with tree := t' }) := fun hw' happ hI =>
    ⟨hI, fun h => ⟨hI, fun hu => (hn h _ _ _ happ).unlinked (hw'.unlinked hu)⟩⟩
  rw [replacing]
  refine amid_change hs hR (Q := fun _ w' => I w' ∧ (N → Steady I top w w')) hw
    (fun w' hw' => ht _ (hw'.clear hc)) (fun w' t' _ hw' happ hI => hdone hw' happ hI)
    fun w' e _ hw' happ => ?_
  -- What is in the way is removed and the change tried once more. If somebody else has removed
  -- it meanwhile that is as good.
  cases e with
  | «exists» =>
      refine amid_change hs hR (Q := fun _ w' => I w' ∧ (N → Steady I top w w')) hw'.inv
        (fun w'' hw'' => .unlink (hw''.clear (hw'.clear hc)))
        (fun w'' t' _ hw'' happ' hI => ?_)
        fun w'' e' _ hw'' happ' => ?_
      · have hgone : Steady I top w { w'' with tree := t' } :=
          ⟨hI, fun hu => (noNewLinks_of_unlink happ').unlinked ((hw'.trans hw'').unlinked hu)⟩
        refine amid_lastChange hs hR (Q := fun _ w' => I w' ∧ (N → Steady I top w w')) hI
          (fun w₃ hw₃ => ht _ ((hgone.trans hw₃).clear hc))
          (fun w₃ t₃ hw₃ happ₃ hI₃ => hdone (hgone.trans hw₃) happ₃ hI₃)
          fun w₃ _ hw₃ => hsame (hgone.trans hw₃)
      · have hthere := hw'.trans hw''
        cases e' with
        | notFound =>
            refine amid_lastChange hs hR
              (Q := fun _ w' => I w' ∧ (N → Steady I top w w')) hthere.inv
              (fun w₃ hw₃ => ht _ ((hthere.trans hw₃).clear hc))
              (fun w₃ t₃ hw₃ happ₃ hI₃ => hdone (hthere.trans hw₃) happ₃ hI₃)
              fun w₃ _ hw₃ => hsame (hthere.trans hw₃)
        | _ => exact hsame hthere
  | _ => exact hsame hw'

theorem amid_setMode {m : Tar.Member} (hw : I w) (hc : Clear w.tree top dest p ns)
    (hu : Unlinked w.tree top ns) :
    (setMode m p).run.Amid o (fun _ => R) (fun _ => Permits L I top dest)
      (fun _ _ => I) past w := by
  rw [setMode]
  split
  · exact amid_lastChange hs hR (Q := fun _ => I) hw
      (fun w' hw' => .chmod (hw'.clear hc) (hw'.unlinked hu) _) (fun _ _ _ _ hI => hI)
      fun _ _ hw' => hw'.inv
  · exact hw

theorem amid_makeMemberDir (hw : I w) (hc : Clear w.tree top dest p ns) :
    (makeMemberDir p).run.Amid o (fun _ => R) (fun _ => Permits L I top dest)
      (fun _ _ => Steady I top w) past w := by
  rw [makeMemberDir]
  refine amid_change hs hR (Q := fun _ => Steady I top w) hw
    (fun w' hw' => .mkdir (hw'.clear hc))
    (fun w' t' _ hw' happ hI => ?_) fun w' e _ hw' happ => ?_
  · exact steady_of_mkdir hw' hI happ
  · cases e with
    | «exists» =>
        refine amid_look hR (Q := fun _ => Steady I top w) hw'.inv
          (fun w'' hw'' => .look (hw''.clear (hw'.clear hc)) fun hf =>
            absurd hf Bool.false_ne_true)
          fun w'' _ hw'' => ?_
        generalize Except.map _ _ = found
        rcases found with e | kind
        · exact hw'.trans hw''
        · cases kind <;> exact hw'.trans hw''
    | _ => exact hw'

omit hs hR in
/-- Errors told as errors of the sources: what holds of the world in any case still does. -/
theorem amid_orFail {α : Type} {a : Attempt Errno α}
    {C : List Answered → World σ → Call → Prop} {P : World σ → Prop}
    (h : a.run.Amid o (fun _ => R) C (fun _ _ => P) past w) :
    (orFail a).run.Amid o (fun _ => R) C (fun _ _ => P) past w := Amid.adapt h

theorem amid_makeMember {m : Tar.Member} (hw : I w) (hc : Clear w.tree top dest p ns)
    (hu : Unlinked w.tree top ns)
    (hl : m.kind = .symlink → ∀ target, m.target = some target → L ns target) :
    (makeMember m p).run.Amid o (fun _ => R) (fun _ => Permits L I top dest)
      (fun _ _ => I) past w := by
  rw [makeMember]
  cases hk : m.kind with
  | metadata => exact hw
  | hardLink => exact hw
  | directory =>
      refine amid_orFail (Amid.attempt_bind (amid_makeMemberDir hs hR hw hc) ?_ ?_)
      · rintro ⟨⟩ past' w' hw'
        exact amid_setMode hs hR hw'.inv (hw'.clear hc) (hw'.unlinked hu)
      · exact fun _ _ w' hw' => hw'.inv
  | symlink =>
      simp only
      cases ht : m.target with
      | none => exact hw
      | some target =>
          simp only
          split
          · exact hw
          · refine amid_orFail ((amid_replacing hs hR hw hc (N := False) ?_ ?_).post ?_)
            · exact fun t hc' => .symlink hc' (hl hk target ht)
            · -- A symbolic link is what a member may leave that is a link.
              exact False.elim
            · exact fun _ _ w' h => h.1
  | file =>
      have hcreate : (replacing p (.create p m.content)).run.Amid o (fun _ => R)
          (fun _ => Permits L I top dest)
          (fun _ _ w' => I w' ∧ (True → Steady I top w w')) past w :=
        amid_replacing hs hR hw hc (fun t hc' => .create hc' _)
          fun _ t cwd t' h => noNewLinks_of_createNew h
      refine Amid.attempt_bind (P := fun _ _ => Steady I top w)
        (amid_orFail (hcreate.post fun _ _ _ h => h.2 trivial)) ?_ fun _ _ _ h => h.inv
      rintro ⟨⟩ past' w' hw'
      split
      · exact hw'.inv
      · exact amid_orFail (amid_setMode hs hR hw'.inv (hw'.clear hc) (hw'.unlinked hu))

end

end LlvmBootstrap.Archive
