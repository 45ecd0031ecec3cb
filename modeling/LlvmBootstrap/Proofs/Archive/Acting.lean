import LlvmBootstrap.Proofs.Archive.HardLinks

/-!
Where the calls act that make a member of an archive. On a way down that meets no link, each of
them acts at the place that the names of the path spell, whatever tree it is made in and
however it ends.
-/

namespace LlvmBootstrap

namespace Tree

/-- All that may differ in `t'` is what stands at `loc` and the file
that stood there; new files aside. -/
structure ActsAt (loc : Location) (t t' : Tree) : Prop where
  nodes : ∀ loc', loc' ≠ loc → t'.node? loc' = t.node? loc'
  bodies : ∀ id, id < t.bodies.length → t.node? loc ≠ some (.file id) →
    t'.body? id = t.body? id

/-- What acts at a place again and again: a file that comes to stand there is new. -/
structure RenewsAt (loc : Location) (t t' : Tree) : Prop extends ActsAt loc t t' where
  length_le : t.bodies.length ≤ t'.bodies.length
  fresh : ∀ id, t'.node? loc = some (.file id) → t.node? loc = some (.file id) ∨
    t.bodies.length ≤ id
  dir : ∀ mode, t.node? loc = some (.dir mode) → ∃ mode', t'.node? loc = some (.dir mode')

variable {t t' t'' : Tree} {cwd top loc : Location} {p : Path} {ns : List Name}
  {n : Node} {mode : Mode}

theorem ActsAt.refl (loc : Location) (t : Tree) : ActsAt loc t t :=
  ⟨fun _ _ => rfl, fun _ _ _ => rfl⟩

theorem actsAt_put (t : Tree) (loc : Location) (n : Node) : ActsAt loc t (t.put loc n) :=
  ⟨fun _ h => node?_put_of_ne t n h, fun _ _ _ => rfl⟩

theorem actsAt_setBody {id : FileId} (hn : t.node? loc = some (.file id)) (b : FileBody) :
    ActsAt loc t (t.setBody id b) := by
  refine ⟨fun _ _ => node?_setBody .., fun id' _ hid' => body?_setBody_of_ne ?_⟩
  rintro rfl
  exact hid' hn

theorem body?_addBody_of_lt (b : FileBody) {id : FileId} (h : id < t.bodies.length) :
    (t.addBody b).2.body? id = t.body? id := by
  rw [body?, bodies_addBody, List.getElem?_append_left h]
  rfl

namespace RenewsAt

theorem refl (loc : Location) (t : Tree) : RenewsAt loc t t :=
  ⟨.refl loc t, Nat.le_refl _, fun _ h => .inl h, fun mode h => ⟨mode, h⟩⟩

theorem trans (h : RenewsAt loc t t') (h' : RenewsAt loc t' t'') : RenewsAt loc t t'' where
  nodes loc' hne := (h'.nodes loc' hne).trans (h.nodes loc' hne)
  bodies id hlt hid := by
    rw [h'.bodies id (hlt.trans_le h.length_le), h.bodies id hlt hid]
    intro hid'
    -- A file that is older than both steps stood there before the first one.
    rcases h.fresh id hid' with hold | hnew
    · exact hid hold
    · omega
  length_le := h.length_le.trans h'.length_le
  fresh id hid := by
    rcases h'.fresh id hid with hmid | hnew
    · exact h.fresh id hmid
    · exact .inr (h.length_le.trans hnew)
  dir mode hm := by
    obtain ⟨mode', hm'⟩ := h.dir mode hm
    exact h'.dir mode' hm'

theorem put (hne : loc ≠ []) (hn : ∀ id, n ≠ .file id)
    (hdir : ∀ mode, t.node? loc = some (.dir mode) → ∃ mode', n = .dir mode') :
    RenewsAt loc t (t.put loc n) := by
  refine ⟨actsAt_put t loc n, Nat.le_refl _, fun id hid => ?_, fun mode hm => ?_⟩
  · rw [node?_put_self t n hne] at hid
    exact absurd (Option.some.inj hid) (hn id)
  · obtain ⟨mode', rfl⟩ := hdir mode hm
    exact ⟨mode', node?_put_self t _ hne⟩

theorem newFile (hne : loc ≠ []) (hn : t.node? loc = none) (b : FileBody) :
    RenewsAt loc t ((t.addBody b).2.put loc (.file t.bodies.length)) where
  nodes loc' h := by rw [node?_put_of_ne _ _ h, node?_addBody]
  bodies id hlt _ := body?_addBody_of_lt b hlt
  length_le := by
    change t.bodies.length ≤ (t.addBody b).2.bodies.length
    rw [bodies_addBody, List.length_append]
    exact Nat.le_add_right ..
  fresh id hid := by
    rw [node?_put_self _ _ hne] at hid
    exact .inr (Node.file.inj (Option.some.inj hid)).le
  dir mode hm := by
    rw [hn] at hm
    contradiction

theorem remove (hne : loc ≠ []) (hdir : ∀ mode, t.node? loc ≠ some (.dir mode)) :
    RenewsAt loc t (t.remove loc) where
  nodes _ h := node?_remove_of_ne t h
  bodies _ _ _ := rfl
  length_le := Nat.le_refl _
  fresh id hid := by
    rw [node?_remove t hne, if_pos rfl] at hid
    contradiction
  dir mode hm := absurd hm (hdir mode)

theorem setBody {id : FileId} (hn : t.node? loc = some (.file id)) (b : FileBody) :
    RenewsAt loc t (t.setBody id b) := by
  refine ⟨actsAt_setBody hn b, ?_, fun _ h => ?_, fun mode hm => ⟨mode, ?_⟩⟩
  · rw [bodies_setBody, List.length_set]
  · rw [node?_setBody] at h
    exact .inl h
  · rwa [node?_setBody]

/-- Where no link stood, the ways that led somewhere still do. -/
theorem routesKept (h : RenewsAt loc t t')
    (hlink : ∀ target, t.node? loc ≠ some (.link target)) :
    RoutesKept t t' where
  dirs loc' mode hm := by
    by_cases heq : loc' = loc
    · exact heq ▸ h.dir mode (heq ▸ hm)
    · exact ⟨mode, (h.nodes loc' heq).trans hm⟩
  links loc' target ht := by
    by_cases heq : loc' = loc
    · exact absurd (heq ▸ ht) (hlink target)
    · exact (h.nodes loc' heq).trans ht

end RenewsAt

namespace Below

theorem place_ne_nil (h : Below t cwd top p ns) : top ++ ns ≠ [] :=
  List.append_ne_nil_of_right_ne_nil top h.ne_nil

/-- What happens at the end of the way down leaves the way as it is. -/
theorem renewed (h : Below t cwd top p ns)
    (hlink : ∀ target, t.node? (top ++ ns) ≠ some (.link target))
    (hren : RenewsAt (top ++ ns) t t') : Below t' cwd top p ns := by
  obtain ⟨lead, links, hsteps, hleads⟩ := h.route
  refine ⟨⟨lead, links, hsteps, hleads.mono (hren.routesKept hlink)⟩, h.ne_nil,
    fun pre hpre hne target => ?_⟩
  -- The way to the directory above stops short of the place.
  have hother : top ++ pre ≠ top ++ ns := by
    intro heq
    have hle := hpre.length_le
    have hpos := List.length_pos_iff.mpr h.ne_nil
    rw [List.append_cancel_left heq, List.length_dropLast] at hle
    omega
  rw [hren.nodes _ hother]
  exact h.unlinked pre hpre hne target

theorem renewsAt_of_mkdir (h : Below t cwd top p ns) (happ : t.mkdir cwd p mode = .ok t') :
    RenewsAt (top ++ ns) t t' ∧ ∃ mode', t'.node? (top ++ ns) = some (.dir mode') := by
  obtain ⟨-, rfl⟩ := h.eq_of_mkdir happ
  exact ⟨.put h.place_ne_nil (by simp) fun _ _ => ⟨_, rfl⟩, _,
    node?_put_self t _ h.place_ne_nil⟩

theorem renewsAt_of_createNew {content : Bytes} (h : Below t cwd top p ns)
    (happ : t.createNew cwd p content = .ok t') :
    RenewsAt (top ++ ns) t t' ∧ ∃ id, t'.node? (top ++ ns) = some (.file id) := by
  rw [h.createNew] at happ
  split at happ
  · contradiction
  · contradiction
  · next ha =>
    obtain rfl := Except.ok.inj happ
    exact ⟨.newFile h.place_ne_nil (node?_of_arrive h.ne_nil ha) _, _,
      node?_put_self _ _ h.place_ne_nil⟩

theorem renewsAt_of_symlink {target : Path} (h : Below t cwd top p ns)
    (happ : t.symlink cwd target p = .ok t') :
    RenewsAt (top ++ ns) t t' ∧ ∃ target', t'.node? (top ++ ns) = some (.link target') := by
  rw [h.symlink] at happ
  split at happ
  · contradiction
  · contradiction
  · contradiction
  · next ha =>
    obtain rfl := Except.ok.inj happ
    refine ⟨.put h.place_ne_nil (by simp) fun mode hm => ?_, _,
      node?_put_self t _ h.place_ne_nil⟩
    rw [node?_of_arrive h.ne_nil ha] at hm
    contradiction

theorem renewsAt_of_unlink (h : Below t cwd top p ns) (happ : t.unlink cwd p = .ok t') :
    RenewsAt (top ++ ns) t t' := by
  rw [h.unlink] at happ
  split at happ
  · contradiction
  · contradiction
  · contradiction
  · next n hdir ha =>
    obtain rfl := Except.ok.inj happ
    refine .remove h.place_ne_nil fun mode hm => ?_
    rw [node?_of_arrive h.ne_nil ha] at hm
    exact hdir mode (Option.some.inj hm)

theorem renewsAt_of_chmod (h : Below t cwd top p ns)
    (hlink : ∀ target, t.node? (top ++ ns) ≠ some (.link target))
    (happ : t.chmod cwd p mode = .ok t') :
    RenewsAt (top ++ ns) t t' ∧ t'.node? (top ++ ns) ≠ none := by
  rw [h.chmod mode hlink] at happ
  split at happ
  · contradiction
  · contradiction
  · obtain rfl := Except.ok.inj happ
    refine ⟨.put h.place_ne_nil (by simp) fun _ _ => ⟨_, rfl⟩, ?_⟩
    rw [node?_put_self t _ h.place_ne_nil]
    exact nofun
  · next ha =>
    obtain rfl := Except.ok.inj happ
    have hn := node?_of_arrive h.ne_nil ha
    refine ⟨.setBody hn _, ?_⟩
    rw [node?_setBody, hn]
    exact nofun
  · contradiction

/-- A second name, whatever the path of the first one is and wherever it leads. -/
theorem actsAt_of_link {src : Path} (h : Below t cwd top p ns)
    (happ : t.link cwd src p = .ok t') :
    ActsAt (top ++ ns) t t' ∧ t'.node? (top ++ ns) ≠ none := by
  revert happ
  rw [Tree.link, h.resolve_false]
  rcases t.lookup cwd false src with e | ⟨loc, n⟩
  · rintro ⟨⟩
  · rcases t.arrive top p ns with e | found
    · rintro ⟨⟩
    · cases found with
      | some n' => rintro ⟨⟩
      | none =>
          cases n with
          | dir mode => rintro ⟨⟩
          | _ =>
              intro happ
              obtain rfl := Except.ok.inj happ
              rw [append_dropLast_concat top h.ne_nil, node?_put_self t _ h.place_ne_nil]
              exact ⟨actsAt_put .., by simp⟩

/-- What is opened at the end of the way down stands there then, and
is new if nothing stood there. -/
theorem renewsAt_of_openFile {id : FileId} (h : Below t cwd top p ns)
    (hlink : ∀ target, t.node? (top ++ ns) ≠ some (.link target))
    (happ : t.openFile cwd p mode = .ok (id, t')) :
    RenewsAt (top ++ ns) t t' ∧ t'.node? (top ++ ns) = some (.file id) := by
  rw [h.openFile mode hlink] at happ
  split at happ
  · contradiction
  · next id' ha =>
    obtain ⟨rfl, rfl⟩ := Prod.mk.inj (Except.ok.inj happ)
    exact ⟨.refl .., node?_of_arrive h.ne_nil ha⟩
  · contradiction
  · next ha =>
    obtain ⟨rfl, rfl⟩ := Prod.mk.inj (Except.ok.inj happ)
    exact ⟨.newFile h.place_ne_nil (node?_of_arrive h.ne_nil ha) _,
      node?_put_self _ _ h.place_ne_nil⟩

/-- A copy, whatever the path of the original is and wherever it leads. -/
theorem renewsAt_of_copyFile {src : Path} (h : Below t cwd top p ns)
    (hlink : ∀ target, t.node? (top ++ ns) ≠ some (.link target))
    (happ : t.copyFile cwd src p = .ok t') :
    RenewsAt (top ++ ns) t t' ∧ t'.node? (top ++ ns) ≠ none := by
  revert happ
  rw [Tree.copyFile]
  rcases t.lookup cwd true src with e | ⟨loc, n⟩
  · rintro ⟨⟩
  · cases n with
    | dir mode => rintro ⟨⟩
    | link target => rintro ⟨⟩
    | file source =>
        change (t.openFile cwd p (t.mode source) >>= fun x =>
          Except.ok ((x.2.setContent x.1 []).setBody x.1
          ⟨t.mode source, (x.2.setContent x.1 []).content source⟩)) = _ → _
        cases hopen : t.openFile cwd p (t.mode source) with
        | error e => rintro ⟨⟩
        | ok opened =>
            intro happ
            obtain rfl := Except.ok.inj happ
            obtain ⟨hren, hn⟩ := h.renewsAt_of_openFile hlink hopen
            have hn' : (opened.2.setContent opened.1 []).node? (top ++ ns) =
                some (.file opened.1) :=
              (node?_setContent ..).trans hn
            refine ⟨(hren.trans (.setBody hn _)).trans (.setBody hn' _), ?_⟩
            simp [hn']

end Below

end Tree

namespace Archive

open LlvmBootstrap.Tree Program Tar

variable {σ : Type} {o : Outside σ} {w : World σ} {top : Location} {p : Path}
  {ns : List Name} {m : Member}

/-- What is made replaces what stood there, and a link to be followed is none of it. -/
theorem throughout_replacing {c : Change} (made : Tree → Prop)
    (hb : Below w.tree w.cwd top p ns)
    (hlink : ∀ target, w.tree.node? (top ++ ns) ≠ some (.link target))
    (hc : ∀ t t', Below t w.cwd top p ns → c.apply t w.cwd = .ok t' →
      RenewsAt (top ++ ns) t t' ∧ made t') :
    (replacing p c).run.Throughout o (fun _ _ => True) (fun res w' => w'.cwd = w.cwd ∧
      RenewsAt (top ++ ns) w.tree w'.tree ∧ (res = .ok () → made w'.tree)) w := by
  refine Throughout.attempt_change_bind trivial (fun t' happ => ?_) fun e _ => ?_
  · obtain ⟨hren, hmade⟩ := hc _ _ hb happ
    exact ⟨rfl, hren, fun _ => hmade⟩
  · cases e with
    | «exists» =>
        -- What is in the way is removed, and then the same is tried again.
        refine Throughout.attempt_change_bind trivial (fun t₁ hgone => ?_) fun e' _ => ?_
        · have hren := hb.renewsAt_of_unlink hgone
          refine Throughout.change_bind trivial (fun t₂ happ => ?_) fun _ _ =>
            ⟨rfl, hren, nofun⟩
          obtain ⟨hren', hmade⟩ := hc _ _ (hb.renewed hlink hren) happ
          exact ⟨rfl, hren.trans hren', fun _ => hmade⟩
        · cases e' with
          | notFound =>
              refine Throughout.change_bind trivial (fun t₂ happ => ?_) fun _ _ =>
                ⟨rfl, .refl .., nofun⟩
              obtain ⟨hren, hmade⟩ := hc _ _ hb happ
              exact ⟨rfl, hren, fun _ => hmade⟩
          | _ => exact ⟨rfl, .refl .., nofun⟩
    | _ => exact ⟨rfl, .refl .., nofun⟩

theorem throughout_setMode (hb : Below w.tree w.cwd top p ns)
    (hlink : ∀ target, w.tree.node? (top ++ ns) ≠ some (.link target))
    (hthere : w.tree.node? (top ++ ns) ≠ none) :
    (setMode m p).run.Throughout o (fun _ _ => True)
      (fun _ w' => RenewsAt (top ++ ns) w.tree w'.tree ∧
        w'.tree.node? (top ++ ns) ≠ none) w := by
  rw [setMode]
  split
  · refine Throughout.change_bind trivial (fun t' happ => ?_) fun _ _ => ⟨.refl .., hthere⟩
    exact hb.renewsAt_of_chmod hlink happ
  · exact ⟨.refl .., hthere⟩

theorem throughout_makeMemberDir (hb : Below w.tree w.cwd top p ns) :
    (makeMemberDir p).run.Throughout o (fun _ _ => True) (fun res w' => w'.cwd = w.cwd ∧
      RenewsAt (top ++ ns) w.tree w'.tree ∧
      (res = .ok () → ∃ mode, w'.tree.node? (top ++ ns) = some (.dir mode))) w := by
  refine Throughout.attempt_change_bind trivial (fun t' happ => ?_) fun e _ => ?_
  · obtain ⟨hren, hmade⟩ := hb.renewsAt_of_mkdir happ
    exact ⟨rfl, hren, fun _ => hmade⟩
  · cases e with
    | «exists» =>
        refine Throughout.attempt_call_bind_iff.mpr ⟨trivial, ?_⟩
        rw [World.perform, hb.lookup_false]
        cases ha : w.tree.arrive top p ns with
        | error e => exact ⟨rfl, .refl .., by simp⟩
        | ok found =>
            rcases found with _ | mode | id | target
            · exact ⟨rfl, .refl .., by simp⟩
            · exact ⟨rfl, .refl .., fun _ => ⟨mode, node?_of_arrive hb.ne_nil ha⟩⟩
            · exact ⟨rfl, .refl .., by simp⟩
            · exact ⟨rfl, .refl .., by simp⟩
    | _ => exact ⟨rfl, .refl .., by simp⟩

/-- The run that makes a member acts at its place; if it succeeds, the member stands there. -/
theorem throughout_makeMember (hb : Below w.tree w.cwd top p ns)
    (hlink : ∀ target, w.tree.node? (top ++ ns) ≠ some (.link target)) :
    (makeMember m p).run.Throughout o (fun _ _ => True) (fun res w' =>
      RenewsAt (top ++ ns) w.tree w'.tree ∧
      (res = .ok () → m.kind ≠ .metadata → m.kind ≠ .hardLink →
        w'.tree.node? (top ++ ns) ≠ none)) w := by
  -- The permissions are set on what has just been made, which is no link.
  have hmode : ∀ {w₁ : World σ}, w₁.cwd = w.cwd → RenewsAt (top ++ ns) w.tree w₁.tree →
      (∀ target, w₁.tree.node? (top ++ ns) ≠ some (.link target)) →
      w₁.tree.node? (top ++ ns) ≠ none →
      (setMode m p).run.Throughout o (fun _ _ => True)
        (fun _ w' => RenewsAt (top ++ ns) w.tree w'.tree ∧
          w'.tree.node? (top ++ ns) ≠ none) w₁ := by
    intro w₁ hcwd hren hlink₁ hthere
    refine (throughout_setMode (hcwd ▸ hb.renewed hlink hren) hlink₁ hthere).post
      fun _ w' h => ?_
    exact ⟨hren.trans h.1, h.2⟩
  cases hk : m.kind with
  | metadata =>
      simp only [makeMember, hk]
      exact ⟨.refl .., by simp⟩
  | hardLink =>
      simp only [makeMember, hk]
      exact ⟨.refl .., by simp⟩
  | directory =>
      simp only [makeMember, hk]
      refine Throughout.adapt
        (Throughout.attempt_bind (throughout_makeMemberDir hb) ?_ fun e w' h => ?_)
      · rintro ⟨⟩ w₁ ⟨hcwd, hren, hdir⟩
        obtain ⟨mode, hdir⟩ := hdir rfl
        refine (hmode hcwd hren (by simp [hdir]) (by simp [hdir])).post fun _ w' h => ?_
        exact ⟨h.1, fun _ _ _ => h.2⟩
      · exact ⟨h.2.1, by simp [Except.mapError]⟩
  | symlink =>
      simp only [makeMember, hk]
      cases m.target with
      | none => exact ⟨.refl .., by simp⟩
      | some target =>
          by_cases hnil : target.bytes = []
          · simp only [hnil, if_true]
            exact ⟨.refl .., by simp⟩
          · simp only [hnil, if_false]
            have hrun := throughout_replacing (o := o) (c := .symlink target p)
              (fun t => ∃ target', t.node? (top ++ ns) = some (.link target')) hb hlink
              fun t t' hb' happ => hb'.renewsAt_of_symlink happ
            refine Throughout.adapt (hrun.post fun res w' h => ⟨h.2.1, fun hres _ _ => ?_⟩)
            cases res with
            | error e => contradiction
            | ok u =>
                obtain ⟨target', ht⟩ := h.2.2 rfl
                simp [ht]
  | file =>
      simp only [makeMember, hk]
      have hrun := throughout_replacing (o := o) (c := .create p m.content)
        (fun t => ∃ id, t.node? (top ++ ns) = some (.file id)) hb hlink
        fun t t' hb' happ => hb'.renewsAt_of_createNew happ
      refine Throughout.adapt_bind hrun ?_ fun e w' h => ⟨h.2.1, by simp⟩
      rintro ⟨⟩ w₁ ⟨hcwd, hren, hfile⟩
      obtain ⟨id, hfile⟩ := hfile rfl
      cases hwhole : m.isWhole with
      | false => exact ⟨hren, by simp⟩
      | true =>
          have hset := hmode hcwd hren (by simp [hfile]) (by simp [hfile])
          exact Throughout.adapt (hset.post fun _ w' h => ⟨h.1, fun _ _ _ => h.2⟩)

/-- The run that makes a hard link, or a copy, acts at its place,
whatever the path to the original is. -/
theorem throughout_makeHardLink (src : Path) (hb : Below w.tree w.cwd top p ns)
    (hlink : ∀ target, w.tree.node? (top ++ ns) ≠ some (.link target)) :
    (makeHardLink src p).run.Throughout o (fun _ _ => True) (fun res w' =>
      ActsAt (top ++ ns) w.tree w'.tree ∧
        (res = .ok () → w'.tree.node? (top ++ ns) ≠ none)) w := by
  refine Throughout.attempt_change_bind trivial (fun t' happ => ?_) fun e _ => ?_
  · obtain ⟨hacts, hthere⟩ := hb.actsAt_of_link happ
    exact ⟨hacts, fun _ => hthere⟩
  · refine Throughout.adapt
      (Throughout.change_bind trivial (fun t' happ => ?_) fun _ _ => ⟨.refl .., nofun⟩)
    obtain ⟨hren, hthere⟩ := hb.renewsAt_of_copyFile hlink happ
    exact ⟨hren.toActsAt, fun _ => hthere⟩

end Archive

end LlvmBootstrap
