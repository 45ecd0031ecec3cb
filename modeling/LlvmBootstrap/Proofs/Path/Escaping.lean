import LlvmBootstrap.Proofs.Path.Moves

/-!
Paths that escape: absolute ones, and those that climb above where they start. They are exactly
the paths of which `normalize?` leaves nothing.
-/

namespace LlvmBootstrap.Path

def downs (cs : List Component) : Nat := cs.countP fun c => c matches .name _

def ups (cs : List Component) : Nat := cs.count .up

/-- The path is absolute, or some leading part of it has more `..` than names. -/
def Escapes (p : Path) : Prop :=
  p.isAbsolute = true ∨ ∃ pre, pre <+: p.components ∧ downs pre < ups pre

/-- Below a directory `d` names down, some components climb above
where that is counted from. -/
def Climbing (d : Nat) (cs : List Component) : Prop :=
  ∃ pre, pre <+: cs ∧ d + downs pre < ups pre

theorem not_climbing_nil (d : Nat) : ¬ Climbing d [] := by
  rintro ⟨pre, hpre, hlt⟩
  rw [List.prefix_nil.mp hpre] at hlt
  simp [downs, ups] at hlt

/-- The first component is a step, and what follows climbs from where that leads. -/
theorem climbing_cons_iff {d : Nat} {c : Component} {cs : List Component} (d' : Nat)
    (hstep : ∀ pre, d + downs (c :: pre) < ups (c :: pre) ↔ d' + downs pre < ups pre) :
    Climbing d (c :: cs) ↔ Climbing d' cs := by
  constructor
  · rintro ⟨_ | ⟨x, pre⟩, hpre, hlt⟩
    · simp [downs, ups] at hlt
    · obtain ⟨rfl, hrest⟩ := List.cons_prefix_cons.mp hpre
      exact ⟨pre, hrest, (hstep pre).mp hlt⟩
  · rintro ⟨pre, hpre, hlt⟩
    exact ⟨c :: pre, List.cons_prefix_cons.mpr ⟨rfl, hpre⟩, (hstep pre).mpr hlt⟩

theorem climbing_up (cs : List Component) : Climbing 0 (.up :: cs) :=
  ⟨[.up], List.cons_prefix_cons.mpr ⟨rfl, List.nil_prefix⟩, by simp [downs, ups]⟩

theorem normalizeFrom_eq_none_iff {stack : List Name} {cs : List Component} :
    normalizeFrom stack cs = none ↔ .root ∈ cs ∨ Climbing stack.length cs := by
  fun_induction normalizeFrom stack cs with
  | case1 stack => simp [not_climbing_nil]
  | case2 stack n cs ih =>
      rw [ih, List.length_cons, climbing_cons_iff (stack.length + 1) fun pre => ?_]
      · simp
      · simp only [downs, ups, List.countP_cons_of_pos, List.count_cons_of_ne,
          ne_eq, reduceCtorEq, not_false_eq_true]
        omega
  | case3 stack cs ih =>
      rw [ih, climbing_cons_iff stack.length fun pre => ?_]
      · simp
      · simp [downs, ups]
  | case4 cs => simp [climbing_up]
  | case5 cs top below ih =>
      rw [ih, List.length_cons, climbing_cons_iff below.length fun pre => ?_]
      · simp
      · simp only [downs, ups, List.count_cons_self, Bool.false_eq_true, not_false_eq_true,
          List.countP_cons_of_neg]
        omega
  | case6 => simp

theorem root_mem_components_iff {p : Path} : .root ∈ p.components ↔ p.isAbsolute = true := by
  obtain ⟨lead, hlead, hcomps⟩ := components_eq p
  have hmoves : Component.root ∉ p.moves := by
    intro hmem
    obtain ⟨n, -, hn⟩ := List.mem_filterMap.mp hmem
    exact component?_ne_root n hn
  rw [hcomps, List.mem_append]
  rcases hlead with ⟨rfl, habs⟩ | ⟨rfl, habs⟩ | ⟨rfl, habs⟩ <;> simp [habs, hmoves]

/-- Nothing is left of a path exactly if it escapes. -/
theorem normalize?_eq_none_iff {p : Path} : p.normalize? = none ↔ p.Escapes := by
  rw [normalize?, normalizeFrom_eq_none_iff, root_mem_components_iff]
  simp [Escapes, Climbing]

end LlvmBootstrap.Path
