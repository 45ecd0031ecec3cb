import LlvmBootstrap.Proofs.Root.Progress

/-!
Programs that work on a tidy root. A program that `Advances` leaves the root tidy, and what it
does is progress of the stages. The rules follow the program, with one for the calls that
change nothing.
-/

namespace LlvmBootstrap

open LlvmBootstrap.Tree Program

/-- Calls that leave everything in its place and serve no stage. -/
def Call.IsPassive : Call → Prop
  | .change _ | .openFile _ | .send _ | .spawn _ _ => False
  | _ => True

namespace Root

variable {σ α β ε ε' : Type} {r : Root} {m w w' : World σ} {top : Location} {s : Stage}
  {o : Outside σ} {c : Call} {p : Program α}

theorem perform_of_isPassive (o : Outside σ) (w : World σ) (h : c.IsPassive) :
    (∀ loc, (w.perform o c).2.tree.node? loc = w.tree.node? loc) ∧
    (w.perform o c).2.cwd = w.cwd := by
  cases c with
  | look follow p => exact ⟨fun _ => rfl, rfl⟩
  | read p => exact ⟨fun _ => rfl, rfl⟩
  | change c => exact h.elim
  | openFile p => exact h.elim
  | tryLock h =>
      simp only [World.perform, World.tryLock]
      repeat' split
      all_goals exact ⟨fun _ => rfl, rfl⟩
  -- Through a handle only what a file holds can change.
  | truncate h =>
      simp only [World.perform, World.truncate]
      split
      · exact ⟨fun _ => rfl, rfl⟩
      · exact ⟨fun loc => node?_setContent .., rfl⟩
  | rewind h =>
      simp only [World.perform, World.rewind]
      split <;> exact ⟨fun _ => rfl, rfl⟩
  | write h bytes =>
      simp only [World.perform, World.write]
      split
      · exact ⟨fun _ => rfl, rfl⟩
      · exact ⟨fun loc => node?_setContent .., rfl⟩
  | readRest h =>
      simp only [World.perform, World.readRest]
      split <;> exact ⟨fun _ => rfl, rfl⟩
  | close h => exact ⟨fun _ => rfl, rfl⟩
  | cwd => exact ⟨fun _ => rfl, rfl⟩
  | environ => exact ⟨fun _ => rfl, rfl⟩
  | processId => exact ⟨fun _ => rfl, rfl⟩
  | clock => exact ⟨fun _ => rfl, rfl⟩
  | draw => exact ⟨fun _ => rfl, rfl⟩
  | send url => exact h.elim
  | spawn output c => exact h.elim
  | log level text => exact ⟨fun _ => rfl, rfl⟩
  | print text => exact ⟨fun _ => rfl, rfl⟩
  | complain text => exact ⟨fun _ => rfl, rfl⟩

theorem not_serves_of_isPassive (h : c.IsPassive) (s : Stage) : ¬ Serves r s c := by
  rintro ⟨⟩ <;> exact h

/-- From a tidy root on, the program leaves a tidy root, with progress of the stages. -/
def Advances (r : Root) (m : World σ) (top : Location) (o : Outside σ) (Q : α → World σ → Prop)
    (p : Program α) (w : World σ) : Prop :=
  p.Traced o (fun a tr w' => Tidy r m top w' ∧ Progress r top w.tree tr w'.tree ∧ Q a w') w

namespace Advances

variable {P Q : α → World σ → Prop} {R : β → World σ → Prop}

theorem done {a : α} (hw : Tidy r m top w) (hQ : Q a w) :
    Advances r m top o Q (pure a : Program α) w :=
  ⟨hw, .refl .., hQ⟩

theorem post (h : Advances r m top o P p w) (hQ : ∀ a w', Tidy r m top w' → P a w' → Q a w') :
    Advances r m top o Q p w :=
  ⟨h.1, h.2.1, hQ _ _ h.1 h.2.2⟩

theorem bind {f : α → Program β} (h : Advances r m top o P p w)
    (hf : ∀ a w', Tidy r m top w' → P a w' → Advances r m top o R (f a) w') :
    Advances r m top o R (p >>= f) w := by
  refine Traced.bind_iff.mpr ?_
  obtain ⟨hw, hp, hP⟩ := h
  obtain ⟨hw', hp', hR⟩ := hf _ _ hw hP
  exact ⟨hw', hp.trans hp', hR⟩

/-- A call that serves no stage and leaves their directories. -/
theorem call_bind {f : c.Answer → Program β}
    (hsame : SameStages top w.tree (w.perform o c).2.tree) (hc : ∀ s, ¬ Serves r s c)
    (hf : Advances r m top o R (f (w.perform o c).1) (w.perform o c).2) :
    Advances r m top o R ((make c : Program c.Answer) >>= f) w := by
  have hcall : Progress r top w.tree [⟨c, (w.perform o c).1⟩] (w.perform o c).2.tree := by
    refine .of_quiet (fun x hx s => ?_) hsame
    rw [List.mem_singleton.mp hx]
    exact hc s
  obtain ⟨hw', hp, hR⟩ := hf
  exact Traced.call_bind_iff.mpr ⟨hw', hcall.trans hp, hR⟩

theorem passive_bind {f : c.Answer → Program β} (hw : Tidy r m top w) (hc : c.IsPassive)
    (hf : Tidy r m top (w.perform o c).2 → SameStages top w.tree (w.perform o c).2.tree →
      Advances r m top o R (f (w.perform o c).1) (w.perform o c).2) :
    Advances r m top o R ((make c : Program c.Answer) >>= f) w := by
  obtain ⟨hn, hcwd⟩ := perform_of_isPassive o w hc
  have hw' := hw.congr hn hcwd
  have hsame : SameStages top w.tree (w.perform o c).2.tree := fun s => has_congr (hn _)
  exact call_bind hsame (not_serves_of_isPassive hc) (hf hw' hsame)

/-- A program that changes nothing. -/
theorem of_passive (hw : Tidy r m top w)
    (h : p.Throughout o (fun _ c => c.IsPassive) Q w) :
    Advances r m top o (fun a w' => Q a w' ∧ SameStages top w.tree w'.tree) p w := by
  induction p generalizing w with
  | done a => exact done hw ⟨h, fun _ => Iff.rfl⟩
  | call c next ih =>
      refine passive_bind (f := next) hw h.1 fun hw' hsame => ?_
      refine (ih _ hw' h.2).post ?_
      rintro a w'' - ⟨hQ, hsame'⟩
      exact ⟨hQ, fun s => (hsame' s).trans (hsame s)⟩

/-! ### Attempts and programs with a toolchain -/

theorem attempt_lift_bind {x : Program α} {f : α → Attempt ε β}
    {R : Except ε β → World σ → Prop} (h : Advances r m top o P x w)
    (hf : ∀ a w', Tidy r m top w' → P a w' → Advances r m top o R (f a).run w') :
    Advances r m top o R ((liftM x : Attempt ε α) >>= f).run w := by
  have hlift : ((liftM x : Attempt ε α) >>= f).run = x >>= fun a => (f a).run :=
    ExceptT.run_bind_lift ..
  rw [hlift]
  exact h.bind hf

theorem attempt_call_bind {f : c.Answer → Attempt ε β} {R : Except ε β → World σ → Prop}
    (hsame : SameStages top w.tree (w.perform o c).2.tree)
    (hc : ∀ s, ¬ Serves r s c)
    (hf : Advances r m top o R (f (w.perform o c).1).run (w.perform o c).2) :
    Advances r m top o R ((make c : Attempt ε c.Answer) >>= f).run w :=
  call_bind (f := fun answer => (f answer).run) hsame hc hf

theorem attempt_passive_bind {f : c.Answer → Attempt ε β} {R : Except ε β → World σ → Prop}
    (hw : Tidy r m top w) (hc : c.IsPassive)
    (hf : Tidy r m top (w.perform o c).2 →
      SameStages top w.tree (w.perform o c).2.tree →
      Advances r m top o R (f (w.perform o c).1).run (w.perform o c).2) :
    Advances r m top o R ((make c : Attempt ε c.Answer) >>= f).run w :=
  passive_bind (f := fun answer => (f answer).run) hw hc hf

theorem adapt {x : Attempt ε α} {f : ε → ε'} {R : Except ε' α → World σ → Prop}
    (h : Advances r m top o (fun res w' => R (res.mapError f) w') x.run w) :
    Advances r m top o R (x.adapt f).run w := by
  rw [run_adapt]
  exact h.bind fun _ _ hw' hR => done hw' hR

variable {t : Toolchain}

theorem work_bind {x : Work ε α} {f : α → Work ε β}
    {P : Except ε α × Toolchain → World σ → Prop} {R : Except ε β × Toolchain → World σ → Prop}
    (h : Advances r m top o P (x.start t) w) (hok : ∀ a t w',
      Tidy r m top w' → P (.ok a, t) w' → Advances r m top o R ((f a).start t) w')
    (herr : ∀ e t w', Tidy r m top w' → P (.error e, t) w' → R (.error e, t) w') :
    Advances r m top o R ((x >>= f).start t) w := by
  rw [Work.start_bind]
  refine h.bind ?_
  rintro ⟨e | a, t⟩ w' hw' hP
  · exact done hw' (herr e t w' hw' hP)
  · exact hok a t w' hw' hP

theorem work_passive_bind {f : c.Answer → Work ε β}
    {R : Except ε β × Toolchain → World σ → Prop} (hw : Tidy r m top w) (hc : c.IsPassive)
    (hf : Tidy r m top (w.perform o c).2 →
      SameStages top w.tree (w.perform o c).2.tree →
      Advances r m top o R ((f (w.perform o c).1).start t) (w.perform o c).2) :
    Advances r m top o R (((make c : Work ε c.Answer) >>= f).start t) w := by
  have hlift : ((make c : Work ε c.Answer) >>= f).start t = make c >>= fun answer =>
      (f answer).start t := Work.start_lift_bind ..
  rw [hlift]
  exact passive_bind hw hc hf

theorem work_adapt {x : Work ε α} {f : ε → ε'} {R : Except ε' α × Toolchain → World σ → Prop}
    (h : Advances r m top o (fun res w' => R (res.1.mapError f, res.2) w') (x.start t) w) :
    Advances r m top o R ((x.adapt f).start t) w := by
  rw [Work.start_adapt]
  exact h.bind fun _ _ hw' hR => done hw' hR

theorem ofAttempt_bind {x : Attempt ε α} {f : α → Work ε β} {P : Except ε α → World σ → Prop}
    {R : Except ε β × Toolchain → World σ → Prop} (h : Advances r m top o P x.run w)
    (hok : ∀ a w', Tidy r m top w' → P (.ok a) w' → Advances r m top o R ((f a).start t) w')
    (herr : ∀ e w', Tidy r m top w' → P (.error e) w' → R (.error e, t) w') :
    Advances r m top o R ((Work.ofAttempt x >>= f).start t) w := by
  rw [Work.start_ofAttempt_bind]
  refine h.bind ?_
  rintro (e | a) w' hw' hP
  · exact done hw' (herr e w' hw' hP)
  · exact hok a w' hw' hP

end Advances

end Root

end LlvmBootstrap
