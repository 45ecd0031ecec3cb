import LlvmBootstrap.Proofs.Tree.Confined

/-!
What can be seen of a tree from one directory down, with new files numbered from zero. Where
two trees look the same from a directory each, a call below it gives the same answer in both,
and leaves trees that look the same again.
-/

namespace LlvmBootstrap

/-- A node with the numbers of files counted from `base`. -/
def Node.since (base : Nat) : Node → Node
  | .file id => .file (id - base)
  | n => n

namespace Tree

structure Seen where
  node? : List Name → Option Node
  bodies : List FileBody

/-- What stands below `top`, and the files from the number `base` on. -/
def seen (t : Tree) (top : Location) (base : Nat) : Seen where
  node? ns := if ns = [] then none else (t.node? (top ++ ns)).map (Node.since base)
  bodies := t.bodies.drop base

namespace Seen

def put (s : Seen) (ns : List Name) (n : Option Node) : Seen :=
  { s with node? := fun rel => if rel = ns then n else s.node? rel }

def setBody (s : Seen) (id : FileId) (b : FileBody) : Seen :=
  { s with bodies := s.bodies.set id b }

def addBody (s : Seen) (b : FileBody) : Seen := { s with bodies := s.bodies ++ [b] }

def body? (s : Seen) (id : FileId) : Option FileBody := s.bodies[id]?

end Seen

variable {L : List Name → Path → Prop} {t t₀ t' t₀' : Tree} {cwd cwd' top top' : Location}
  {base base' : Nat} {p src : Path} {ns ns' : List Name}

theorem seen_put (n : Node) (hne : ns ≠ []) :
    (t.put (top ++ ns) n).seen top base = (t.seen top base).put ns (some (n.since base)) := by
  simp only [seen, Seen.put, node?_put_below t n top hne, Seen.mk.injEq, bodies_put, and_true]
  funext rel
  by_cases h : rel = ns
  · simp [h, hne]
  · simp [h]

theorem seen_remove (hne : ns ≠ []) :
    (t.remove (top ++ ns)).seen top base = (t.seen top base).put ns none := by
  simp only [seen, Seen.put, node?_remove_below t top hne, Seen.mk.injEq,
    bodies_remove, and_true]
  funext rel
  by_cases h : rel = ns
  · simp [h]
  · simp [h]

theorem seen_setBody {id : FileId} (h : base ≤ id) (b : FileBody) :
    (t.setBody id b).seen top base = (t.seen top base).setBody (id - base) b := by
  simp only [seen, Seen.setBody, node?_setBody, bodies_setBody, Seen.mk.injEq, true_and]
  rw [List.drop_set, if_neg (Nat.not_lt.mpr h)]

theorem seen_addBody (h : base ≤ t.bodies.length) (b : FileBody) :
    (t.addBody b).2.seen top base = (t.seen top base).addBody b := by
  simp only [seen, Seen.addBody, node?_addBody, bodies_addBody, Seen.mk.injEq, true_and]
  rw [List.drop_append_of_le_length h]

theorem body?_eq_seen {id : FileId} (h : base ≤ id) :
    t.body? id = (t.seen top base).body? (id - base) := by
  rw [Seen.body?, seen, List.getElem?_drop, Nat.add_sub_cancel' h, body?]

theorem length_eq_seen (t : Tree) (top : Location) (base : Nat) :
    t.bodies.length - base = (t.seen top base).bodies.length := by
  rw [seen, List.length_drop]

/-! ### The same from two places -/

/-- Two trees in which new things stand below one directory each, and
which look the same from there. -/
structure Alike (L : List Name → Path → Prop) (top : Location) (t₀ t : Tree) (top' : Location)
    (t₀' t' : Tree) : Prop where
  left : Confined L top t₀ t
  right : Confined L top' t₀' t'
  seen : t.seen top t₀.bodies.length = t'.seen top' t₀'.bodies.length

namespace Alike

theorem node? (h : Alike L top t₀ t top' t₀' t') (hne : ns ≠ []) :
    (t.node? (top ++ ns)).map (Node.since t₀.bodies.length) =
      (t'.node? (top' ++ ns)).map (Node.since t₀'.bodies.length) := by
  have := congrFun (congrArg Seen.node? h.seen) ns
  simpa [Tree.seen, hne] using this

theorem unlinked (h : Alike L top t₀ t top' t₀' t') (hu : Unlinked t top ns) :
    Unlinked t' top' ns := by
  intro pre hpre hne target ht
  have hn := h.node? hne
  rw [ht] at hn
  cases hp : t.node? (top ++ pre) with
  | none => simp [hp] at hn
  | some n =>
      cases n with
      | dir mode => simp [hp, Node.since] at hn
      | file id => simp [hp, Node.since] at hn
      | link target' => exact hu pre hpre hne target' hp

theorem descend (h : Alike L top t₀ t top' t₀' t') {rel : List Name} (hne : ns ≠ []) :
    (t.descend (top ++ rel) ns).map (Option.map (Node.since t₀.bodies.length)) =
      (t'.descend (top' ++ rel) ns).map (Option.map (Node.since t₀'.bodies.length)) := by
  induction ns generalizing rel with
  | nil => contradiction
  | cons n ns ih =>
      rw [Tree.descend, Tree.descend, List.append_assoc, List.append_assoc]
      have hn : _ = _ :=
        h.node? (List.append_ne_nil_of_right_ne_nil rel (List.cons_ne_nil n []))
      by_cases hlong : maxName < n.length
      · rw [if_pos hlong, if_pos hlong]
        rfl
      · rw [if_neg hlong, if_neg hlong]
        by_cases hnil : ns = []
        · rw [if_pos hnil, if_pos hnil]
          exact congrArg Except.ok hn
        · rw [if_neg hnil, if_neg hnil]
          -- A directory on the way has the same below it in both trees;
          -- anything else ends both ways down.
          have hrest := @ih (rel ++ [n]) hnil
          cases hm : t.node? (top ++ (rel ++ [n])) with
          | none =>
              rw [hm] at hn
              rw [Option.map_eq_none_iff.mp hn.symm]
              rfl
          | some m =>
              rw [hm] at hn
              obtain ⟨m', hm', hmm⟩ := Option.map_eq_some_iff.mp hn.symm
              rw [hm']
              cases m <;> cases m' <;> simp [Node.since] at hmm
              · exact hrest
              · rfl
              · rfl

/-- A way down ends the same in both trees. -/
theorem arrive {p' : Path} (h : Alike L top t₀ t top' t₀' t') (hp : p'.refusal? = p.refusal?)
    (hne : ns ≠ []) :
    (∃ e, t.arrive top p ns = .error e ∧ t'.arrive top' p' ns = .error e) ∨
      (t.arrive top p ns = .ok none ∧ t'.arrive top' p' ns = .ok none) ∨
      ∃ n n', t.arrive top p ns = .ok (some n) ∧ t'.arrive top' p' ns = .ok (some n') ∧
        n.since t₀.bodies.length = n'.since t₀'.bodies.length := by
  unfold Tree.arrive
  rw [hp]
  cases p.refusal? with
  | some e => exact .inl ⟨e, rfl, rfl⟩
  | none =>
      have hd := @descend _ _ _ _ _ _ _ _ h [] hne
      simp only [List.append_nil] at hd ⊢
      cases hr : t.descend top ns with
      | error e =>
          cases hr' : t'.descend top' ns with
          | error e' =>
              rw [hr, hr'] at hd
              exact .inl ⟨e, rfl, congrArg _ (Except.error.inj hd).symm⟩
          | ok n' => simp [hr, hr', Except.map] at hd
      | ok n =>
          cases hr' : t'.descend top' ns with
          | error e' => simp [hr, hr', Except.map] at hd
          | ok n' =>
              rw [hr, hr'] at hd
              have hmap := Except.ok.inj hd
              cases n with
              | none =>
                  rw [Option.map_eq_none_iff.mp hmap.symm]
                  exact .inr (.inl ⟨rfl, rfl⟩)
              | some n =>
                  obtain ⟨m', rfl, hm⟩ := Option.map_eq_some_iff.mp hmap.symm
                  exact .inr (.inr ⟨n, m', rfl, rfl, hm.symm⟩)

end Alike

end Tree

end LlvmBootstrap
