import LlvmBootstrap.Proofs.Machine.Files
import LlvmBootstrap.Proofs.Tree.Confined

/-!
What stands at the places of a tree when permissions and the numbers of files are left aside,
and how the calls that make files and directories below a directory show in that.
-/

namespace LlvmBootstrap.Tree

inductive Item where
  | dir
  | file (content : Bytes)
  | link (target : Path)
  deriving DecidableEq

def item (t : Tree) : Node → Item
  | .dir _ => .dir
  | .file id => .file (t.content id)
  | .link target => .link target

def item? (t : Tree) (loc : Location) : Option Item := (t.node? loc).map t.item

variable {t t' : Tree} {loc loc' top : Location} {ns : List Name} {id : FileId} {n : Node}

@[simp] theorem item?_eq_none_iff : t.item? loc = none ↔ t.node? loc = none :=
  Option.map_eq_none_iff

theorem item?_eq_some (h : t.node? loc = some n) : t.item? loc = some (t.item n) := by
  rw [item?, h, Option.map_some]

theorem item?_eq_dir_iff :
    t.item? loc = some .dir ↔ ∃ mode, t.node? loc = some (.dir mode) := by
  rw [item?, Option.map_eq_some_iff]
  constructor
  · rintro ⟨n, hn, hitem⟩
    cases n with
    | dir mode => exact ⟨mode, hn⟩
    | _ => contradiction
  · rintro ⟨mode, hmode⟩
    exact ⟨_, hmode, rfl⟩

theorem item?_eq_link_iff {target : Path} :
    t.item? loc = some (.link target) ↔ t.node? loc = some (.link target) := by
  rw [item?, Option.map_eq_some_iff]
  constructor
  · rintro ⟨n, hn, hitem⟩
    cases n with
    | link target' => rw [hn, Item.link.inj hitem]
    | _ => contradiction
  · exact fun h => ⟨_, h, rfl⟩

/-- The same stands at a place where the same node stands and files hold the same. -/
theorem item?_congr (hnode : t'.node? loc = t.node? loc)
    (hcontent : ∀ id, t.node? loc = some (.file id) → t'.content id = t.content id) :
    t'.item? loc = t.item? loc := by
  rw [item?, item?, hnode]
  cases hn : t.node? loc with
  | none => rfl
  | some n =>
      cases n with
      | file id => rw [Option.map_some, Option.map_some, item, item, hcontent id hn]
      | _ => rfl

theorem item?_put (t : Tree) (n : Node) (h : loc ≠ []) (loc' : Location) :
    (t.put loc n).item? loc' = if loc' = loc then some (t.item n) else t.item? loc' := by
  rw [item?, node?_put t n h]
  split
  · cases n <;> rfl
  · exact item?_congr rfl fun _ _ => rfl

theorem item?_remove (t : Tree) (h : loc ≠ []) (loc' : Location) :
    (t.remove loc).item? loc' = if loc' = loc then none else t.item? loc' := by
  rw [item?, node?_remove t h]
  split
  · rfl
  · exact item?_congr rfl fun _ _ => rfl

theorem content_setBody_of_eq {b : FileBody} (h : b.content = t.content id) (id' : FileId) :
    (t.setBody id b).content id' = t.content id' := by
  rw [content, body?, bodies_setBody, List.getElem?_set]
  split
  · next heq =>
    subst heq
    split
    · exact h
    · next hlt =>
      rw [content, body?, List.getElem?_eq_none (Nat.le_of_not_lt hlt)]
  · rfl

theorem item?_setBody_of_eq {b : FileBody} (h : b.content = t.content id) (loc : Location) :
    (t.setBody id b).item? loc = t.item? loc :=
  item?_congr (node?_setBody ..) fun id' _ => content_setBody_of_eq h id'

/-- A new file shows nowhere yet. -/
theorem item?_addBody (b : FileBody)
    (h : ∀ id, t.node? loc = some (.file id) → id < t.bodies.length) :
    (t.addBody b).2.item? loc = t.item? loc := by
  refine item?_congr (node?_addBody ..) fun id hid => ?_
  rw [content, body?, bodies_addBody, List.getElem?_append_left (h id hid)]
  rfl

theorem content_addBody (t : Tree) (b : FileBody) :
    (t.addBody b).2.content t.bodies.length = b.content := by
  rw [content, body?, bodies_addBody, List.getElem?_concat_length]
  rfl

def ChangedAt (top : Location) (ns : List Name) (it : Option Item) (t t' : Tree) : Prop :=
  ∀ rel, rel ≠ [] → t'.item? (top ++ rel) = if rel = ns then it else t.item? (top ++ rel)

theorem ChangedAt.self {it : Option Item} (h : t.item? (top ++ ns) = it) :
    ChangedAt top ns it t t := by
  intro rel _
  split
  · next heq => rw [heq, h]
  · rfl

theorem ChangedAt.trans {t'' : Tree} {it it' : Option Item} (h : ChangedAt top ns it t t')
    (h' : ChangedAt top ns it' t' t'') : ChangedAt top ns it' t t'' := by
  intro rel hne
  rw [h' rel hne]
  split
  · rfl
  · next heq => rw [h rel hne, if_neg heq]

theorem ChangedAt.of_same {t'' : Tree} {it : Option Item} (h : ChangedAt top ns it t t')
    (hsame : ∀ loc, t''.item? loc = t'.item? loc) : ChangedAt top ns it t t'' := by
  intro rel hne
  rw [hsame, h rel hne]

theorem changedAt_put (t : Tree) (top : Location) (n : Node) (hne : ns ≠ []) :
    ChangedAt top ns (some (t.item n)) t (t.put (top ++ ns) n) := by
  intro rel _
  rw [item?_put t n (List.append_ne_nil_of_right_ne_nil top hne)]
  simp only [List.append_cancel_left_eq]

/-! ### Calls below a directory -/

section

variable {L : List Name → Path → Prop} {t₀ : Tree} {cwd : Location} {p : Path} {mode : Mode}

theorem changedAt_of_mkdir (h : Below t cwd top p ns) (happ : t.mkdir cwd p mode = .ok t') :
    t.item? (top ++ ns) = none ∧ ChangedAt top ns (some .dir) t t' := by
  obtain ⟨ha, rfl⟩ := h.eq_of_mkdir happ
  exact ⟨item?_eq_none_iff.mpr (node?_of_arrive h.ne_nil ha), changedAt_put t top _ h.ne_nil⟩

theorem changedAt_of_createNew {content : Bytes} (hc : Confined L top t₀ t)
    (h : Below t cwd top p ns) (happ : t.createNew cwd p content = .ok t') :
    t.item? (top ++ ns) = none ∧ ChangedAt top ns (some (.file content)) t t' := by
  rw [h.createNew] at happ
  split at happ
  · contradiction
  · contradiction
  · next ha =>
    obtain rfl := Except.ok.inj happ
    refine ⟨item?_eq_none_iff.mpr (node?_of_arrive h.ne_nil ha), fun rel hne => ?_⟩
    rw [changedAt_put _ top _ h.ne_nil rel hne, item, content_addBody]
    split
    · rfl
    · exact item?_addBody _ fun id hid => (hc.fresh rel id hne hid).2

theorem changedAt_of_unlink (h : Below t cwd top p ns) (happ : t.unlink cwd p = .ok t') :
    t.item? (top ++ ns) ≠ some .dir ∧ ChangedAt top ns none t t' := by
  rw [h.unlink] at happ
  split at happ
  · contradiction
  · contradiction
  · contradiction
  · next n hdir ha =>
    obtain rfl := Except.ok.inj happ
    have hn := node?_of_arrive h.ne_nil ha
    refine ⟨fun hitem => ?_, fun rel _ => ?_⟩
    · obtain ⟨mode, hmode⟩ := item?_eq_dir_iff.mp hitem
      rw [hn] at hmode
      exact hdir mode (Option.some.inj hmode)
    · rw [item?_remove t (List.append_ne_nil_of_right_ne_nil top h.ne_nil)]
      simp only [List.append_cancel_left_eq]

/-- Permissions do not show. -/
theorem item?_of_chmod (h : Below t cwd top p ns)
    (hlast : ∀ target, t.node? (top ++ ns) ≠ some (.link target))
    (happ : t.chmod cwd p mode = .ok t') (loc : Location) : t'.item? loc = t.item? loc := by
  rw [h.chmod mode hlast] at happ
  split at happ
  · contradiction
  · contradiction
  · next ha =>
    obtain rfl := Except.ok.inj happ
    rw [item?_put t _ (List.append_ne_nil_of_right_ne_nil top h.ne_nil)]
    split
    · next heq =>
      rw [heq, item?_eq_some (node?_of_arrive h.ne_nil ha)]
      rfl
    · rfl
  · obtain rfl := Except.ok.inj happ
    exact item?_setBody_of_eq rfl loc
  · contradiction

end

theorem NewDirs.item? (h : NewDirs t t') (loc : Location) :
    t'.item? loc = t.item? loc ∨ t.item? loc = none ∧ t'.item? loc = some .dir := by
  rcases h.nodes loc with hsame | ⟨hnone, hdir⟩
  · exact .inl (item?_congr hsame fun id _ => by rw [content, content, body?, body?, h.bodies])
  · exact .inr ⟨item?_eq_none_iff.mpr hnone, item?_eq_dir_iff.mpr hdir⟩

end LlvmBootstrap.Tree
