import LlvmBootstrap.Proofs.Machine.Traced

/-!
Runs whose calls are permitted by what came before them. `Along` says of each call of a run
that it is permitted in the world it is made in and after the calls that were made until then.
It is proved along the program; where the past does not matter, `Throughout` is enough.
-/

namespace LlvmBootstrap

namespace Program

variable {σ α β ε ε' : Type} {o : Outside σ} {C C' : List Answered → World σ → Call → Prop}
  {P Q : α → List Answered → World σ → Prop} {p : Program α}
  {past : List Answered} {w : World σ} {c : Call}

/-- Each call is permitted by `C` after the calls before it, of which the first ones are
`past`; the result is one of `Q`. -/
def Along (o : Outside σ) (C : List Answered → World σ → Call → Prop)
    (Q : α → List Answered → World σ → Prop) : Program α → List Answered → World σ → Prop
  | .done a, past, w => Q a past w
  | .call c next, past, w =>
    C past w c ∧
      Along o C Q (next (w.perform o c).1) (past ++ [⟨c, (w.perform o c).1⟩]) (w.perform o c).2

namespace Along

theorem call_bind_iff {f : c.Answer → Program β} {R : β → List Answered → World σ → Prop} :
    ((make c : Program c.Answer) >>= f).Along o C R past w ↔ C past w c ∧
      (f (w.perform o c).1).Along o C R (past ++ [⟨c, (w.perform o c).1⟩]) (w.perform o c).2 :=
  Iff.rfl

theorem bind_iff {f : α → Program β} {R : β → List Answered → World σ → Prop} :
    (p >>= f).Along o C R past w ↔
      p.Along o C (fun a past' w' => (f a).Along o C R past' w') past w := by
  induction p generalizing past w with
  | done a => exact Iff.rfl
  | call c next ih => exact and_congr_right fun _ => ih _

theorem imp (h : p.Along o C P past w) (hC : ∀ past w c, C past w c → C' past w c)
    (hQ : ∀ a past' w', P a past' w' → Q a past' w') : p.Along o C' Q past w := by
  induction p generalizing past w with
  | done a => exact hQ a past w h
  | call c next ih => exact ⟨hC _ _ _ h.1, ih _ h.2⟩

theorem post (h : p.Along o C P past w) (hQ : ∀ a past' w', P a past' w' → Q a past' w') :
    p.Along o C Q past w :=
  h.imp (fun _ _ _ h => h) hQ

theorem bind {f : α → Program β} {R : β → List Answered → World σ → Prop}
    (h : p.Along o C P past w)
    (hf : ∀ a past' w', P a past' w' → (f a).Along o C R past' w') :
    (p >>= f).Along o C R past w :=
  bind_iff.mpr (h.post hf)

/-- A part of a run in which the past does not matter. What it permits stays permitted. -/
theorem of_throughout {Q : α → World σ → Prop} (h : p.Throughout o (C past) Q w)
    (hC : ∀ past past' w c, past ⊆ past' → C past w c → C past' w c) :
    p.Along o C (fun a past' w' => past ⊆ past' ∧ Q a w') past w := by
  suffices ∀ past', past ⊆ past' →
    p.Along o C (fun a past'' w' => past ⊆ past'' ∧ Q a w') past' w from
    this past (List.Subset.refl _)
  intro past' hsub
  induction p generalizing past' w with
  | done a => exact ⟨hsub, h⟩
  | call c next ih =>
      refine ⟨hC _ _ _ _ hsub h.1, ih _ h.2 _ fun x hx => ?_⟩
      exact List.mem_append_left _ (hsub hx)

/-- The call that a run makes after its first `n` calls. -/
theorem at_step (h : p.Along o C Q past w) (n : Nat) (hc : (p.after o n w).1.next? = some c) :
    C (past ++ (p.trace o w).take n) (p.after o n w).2 c := by
  induction n generalizing p past w with
  | zero =>
      cases p with
      | done a => contradiction
      | call c' next =>
          obtain rfl := Option.some.inj hc
          rw [List.take_zero, List.append_nil]
          exact h.1
  | succ n ih =>
      cases p with
      | done a => contradiction
      | call c' next =>
          have hnext := ih h.2 hc
          rw [List.append_assoc] at hnext
          exact hnext

/-! ### Attempts and programs with a toolchain -/

theorem adapt {x : Attempt ε α} {f : ε → ε'} {R : Except ε' α → List Answered → World σ → Prop}
    (h : x.run.Along o C (fun res past' w' => R (res.mapError f) past' w') past w) :
    (x.adapt f).run.Along o C R past w := by
  rw [run_adapt]
  exact h.bind fun _ _ _ hR => hR

variable {t : Toolchain}

theorem work_bind {x : Work ε α} {f : α → Work ε β}
    {P : Except ε α × Toolchain → List Answered → World σ → Prop}
    {R : Except ε β × Toolchain → List Answered → World σ → Prop}
    (h : (x.start t).Along o C P past w)
    (hok : ∀ a t past' w', P (.ok a, t) past' w' → ((f a).start t).Along o C R past' w')
    (herr : ∀ e t past' w', P (.error e, t) past' w' → R (.error e, t) past' w') :
    ((x >>= f).start t).Along o C R past w := by
  rw [Work.start_bind]
  refine h.bind ?_
  rintro ⟨e | a, t⟩ past' w' hP
  · exact herr e t past' w' hP
  · exact hok a t past' w' hP

theorem work_call_bind {f : c.Answer → Work ε β}
    {R : Except ε β × Toolchain → List Answered → World σ → Prop} (hc : C past w c)
    (hf : ((f (w.perform o c).1).start t).Along o C R (past ++ [⟨c, (w.perform o c).1⟩])
      (w.perform o c).2) :
    (((make c : Work ε c.Answer) >>= f).start t).Along o C R past w := by
  have hlift : ((make c : Work ε c.Answer) >>= f).start t = make c >>= fun answer =>
      (f answer).start t := Work.start_lift_bind ..
  rw [hlift]
  exact ⟨hc, hf⟩

theorem work_adapt {x : Work ε α} {f : ε → ε'}
    {R : Except ε' α × Toolchain → List Answered → World σ → Prop}
    (h : (x.start t).Along o C
      (fun res past' w' => R (res.1.mapError f, res.2) past' w') past w) :
    ((x.adapt f).start t).Along o C R past w := by
  rw [Work.start_adapt]
  exact h.bind fun _ _ _ hR => hR

theorem ofAttempt_bind {x : Attempt ε α} {f : α → Work ε β}
    {P : Except ε α → List Answered → World σ → Prop}
    {R : Except ε β × Toolchain → List Answered → World σ → Prop}
    (h : x.run.Along o C P past w)
    (hok : ∀ a past' w', P (.ok a) past' w' → ((f a).start t).Along o C R past' w')
    (herr : ∀ e past' w', P (.error e) past' w' → R (.error e, t) past' w') :
    ((Work.ofAttempt x >>= f).start t).Along o C R past w := by
  rw [Work.start_ofAttempt_bind]
  refine h.bind ?_
  rintro (e | a) past' w' hP
  · exact herr e past' w' hP
  · exact hok a past' w' hP

end Along

end Program

end LlvmBootstrap
