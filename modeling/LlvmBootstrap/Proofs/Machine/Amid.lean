import LlvmBootstrap.Proofs.Machine.Traced

/-!
Runs that others come between. `Amid` says of each call of a run that it is permitted in
whatever world it is made in, when all that is known is how others change the world in between.
A call on a lock file may fail as well. It is proved along the program, and is `Throughout`
where no others are.
-/

namespace LlvmBootstrap

def Call.MayFail : Call → Prop
  | .tryLock _ | .truncate _ | .rewind _ | .write _ _ => True
  | _ => False

/-- What a call may come to. A write that fails may have written a part. -/
inductive World.Performs {σ : Type} (o : Outside σ) (w : World σ) :
    (c : Call) → c.Answer → World σ → Prop
  | done (c : Call) : Performs o w c (w.perform o c).1 (w.perform o c).2
  | tryLock (h : Handle) (e : Errno) : Performs o w (.tryLock h) (.error e) w
  | truncate (h : Handle) (e : Errno) : Performs o w (.truncate h) (.error e) w
  | rewind (h : Handle) (e : Errno) : Performs o w (.rewind h) (.error e) w
  | write (h : Handle) (bytes : Bytes) (e : Errno) (written : Nat) :
      Performs o w (.write h bytes) (.error e) (w.write h (bytes.take written))

theorem World.Performs.sure {σ : Type} {o : Outside σ} {w w' : World σ} {c : Call}
    {answer : c.Answer} (h : w.Performs o c answer w') (hc : ¬ c.MayFail) :
    answer = (w.perform o c).1 ∧ w' = (w.perform o c).2 := by
  cases h with
  | done => exact ⟨rfl, rfl⟩
  | tryLock | truncate | rewind | write => exact absurd trivial hc

namespace Program

variable {σ α β ε ε' : Type} {o : Outside σ} {R R' : List Answered → World σ → World σ → Prop}
  {C C' : List Answered → World σ → Call → Prop} {P Q : α → List Answered → World σ → Prop}
  {p : Program α} {past : List Answered} {w w' : World σ} {c : Call} {t : Toolchain}

/-- Each call is permitted by `C` after the calls before it, of which the first ones are
`past`, and after what others have done, as `R` says; the result is one of `Q`. -/
def Amid (o : Outside σ) (R : List Answered → World σ → World σ → Prop)
    (C : List Answered → World σ → Call → Prop) (Q : α → List Answered → World σ → Prop) :
    Program α → List Answered → World σ → Prop
  | .done a, past, w => Q a past w
  | .call c next, past, w => ∀ w', R past w w' → C past w' c ∧
      ∀ answer w'', w'.Performs o c answer w'' →
        Amid o R C Q (next answer) (past ++ [⟨c, answer⟩]) w''

namespace Amid

theorem call_bind_iff {f : c.Answer → Program β} {S : β → List Answered → World σ → Prop} :
    ((make c : Program c.Answer) >>= f).Amid o R C S past w ↔ ∀ w', R past w w' → C past w' c ∧
      ∀ answer w'', w'.Performs o c answer w'' →
        (f answer).Amid o R C S (past ++ [⟨c, answer⟩]) w'' :=
  Iff.rfl

/-- A call that does not fail by itself. -/
theorem call_bind {f : c.Answer → Program β} {S : β → List Answered → World σ → Prop}
    (hc : ¬ c.MayFail) (h : ∀ w', R past w w' → C past w' c ∧
      (f (w'.perform o c).1).Amid o R C S (past ++ [⟨c, (w'.perform o c).1⟩])
        (w'.perform o c).2) :
    ((make c : Program c.Answer) >>= f).Amid o R C S past w := by
  refine call_bind_iff.mpr fun w' hR => ⟨(h w' hR).1, fun answer w'' hperf => ?_⟩
  obtain ⟨rfl, rfl⟩ := hperf.sure hc
  exact (h w' hR).2

theorem bind_iff {f : α → Program β} {S : β → List Answered → World σ → Prop} :
    (p >>= f).Amid o R C S past w ↔
      p.Amid o R C (fun a past' w' => (f a).Amid o R C S past' w') past w := by
  induction p generalizing past w with
  | done a => exact Iff.rfl
  | call c next ih =>
      constructor
      · exact fun h w' hR =>
          ⟨(h w' hR).1, fun answer w'' hp => (ih _).mp ((h w' hR).2 answer w'' hp)⟩
      · exact fun h w' hR =>
          ⟨(h w' hR).1, fun answer w'' hp => (ih _).mpr ((h w' hR).2 answer w'' hp)⟩

theorem post (h : p.Amid o R C P past w) (hQ : ∀ a past' w', P a past' w' → Q a past' w') :
    p.Amid o R C Q past w := by
  induction p generalizing past w with
  | done a => exact hQ a past w h
  | call c next ih =>
      exact fun w' hR => ⟨(h w' hR).1, fun answer w'' hp => ih _ ((h w' hR).2 answer w'' hp)⟩

theorem bind {f : α → Program β} {S : β → List Answered → World σ → Prop}
    (h : p.Amid o R C P past w)
    (hf : ∀ a past' w', P a past' w' → (f a).Amid o R C S past' w') :
    (p >>= f).Amid o R C S past w :=
  bind_iff.mpr (h.post hf)

/-- A part of a run whose calls are all of `K`, with less known of the
others and more asked of the calls. -/
theorem within {K : Call → Prop} (h : p.Amid o R' C' Q past w)
    (hK : ∀ past w c, C' past w c → K c)
    (hR : ∀ more w w', (∀ x ∈ more, K x.call) → R (past ++ more) w w' → R' (past ++ more) w w')
    (hC : ∀ more w c, (∀ x ∈ more, K x.call) → C' (past ++ more) w c → C (past ++ more) w c) :
    p.Amid o R C (fun a past' w' => Q a past' w' ∧ ∃ more, past' = past ++ more ∧
      ∀ x ∈ more, K x.call) past w := by
  suffices ∀ more, (∀ x ∈ more, K x.call) → p.Amid o R' C' Q (past ++ more) w →
      p.Amid o R C (fun a past' w' => Q a past' w' ∧ ∃ more, past' = past ++ more ∧
        ∀ x ∈ more, K x.call) (past ++ more) w by
    have hnil := this [] (fun _ => nofun)
    rw [List.append_nil] at hnil
    exact hnil h
  clear h
  intro more hmore h
  induction p generalizing more w with
  | done a => exact ⟨h, more, rfl, hmore⟩
  | call c next ih =>
      intro w' hw'
      obtain ⟨hc, hrest⟩ := h w' (hR more w w' hmore hw')
      refine ⟨hC more w' c hmore hc, fun answer w'' hp => ?_⟩
      have hnext := hrest answer w'' hp
      rw [List.append_assoc] at hnext ⊢
      refine ih answer _ (fun x hx => ?_) hnext
      rcases List.mem_append.mp hx with hx | hx
      · exact hmore x hx
      · rw [List.mem_singleton.mp hx]
        exact hK _ _ _ hc

/-- What holds amid others still holds after they have changed the world. -/
theorem rely (h : p.Amid o R C Q past w)
    (htrans : ∀ w w' w'', R past w w' → R past w' w'' → R past w w'')
    (hQ : ∀ a w w', Q a past w → R past w w' → Q a past w') (hR : R past w w') :
    p.Amid o R C Q past w' := by
  cases p with
  | done a => exact hQ a w w' h hR
  | call c next => exact fun w'' hR' => h w'' (htrans _ _ _ hR hR')

/-- With no others a run is as it is alone. -/
theorem throughout {C : World σ → Call → Prop} {Q : α → World σ → Prop}
    (h : p.Amid o (fun _ => Eq) (fun _ => C) (fun a _ => Q a) past w) :
    p.Throughout o C Q w := by
  induction p generalizing past w with
  | done a => exact h
  | call c next ih =>
      obtain ⟨hc, hrest⟩ := h w rfl
      exact ⟨hc, ih _ (hrest _ _ (.done c))⟩

/-! ### Attempts and programs with a toolchain -/

theorem attempt_call_bind {f : c.Answer → Attempt ε β}
    {S : Except ε β → List Answered → World σ → Prop} (hc : ¬ c.MayFail)
    (h : ∀ w', R past w w' → C past w' c ∧ (f (w'.perform o c).1).run.Amid o R C S
      (past ++ [⟨c, (w'.perform o c).1⟩]) (w'.perform o c).2) :
    ((make c : Attempt ε c.Answer) >>= f).run.Amid o R C S past w :=
  call_bind (f := fun r => (f r).run) hc h

theorem attempt_bind {x : Attempt ε α} {f : α → Attempt ε β}
    {P : Except ε α → List Answered → World σ → Prop}
    {S : Except ε β → List Answered → World σ → Prop} (h : x.run.Amid o R C P past w)
    (hok : ∀ a past' w', P (.ok a) past' w' → (f a).run.Amid o R C S past' w')
    (herr : ∀ e past' w', P (.error e) past' w' → S (.error e) past' w') :
    (x >>= f).run.Amid o R C S past w := by
  rw [ExceptT.run_bind]
  refine h.bind ?_
  rintro (e | a) past' w' hP
  · exact herr e past' w' hP
  · exact hok a past' w' hP

theorem attempt_lift_bind {x : Program α} {f : α → Attempt ε β}
    {S : Except ε β → List Answered → World σ → Prop} (h : x.Amid o R C P past w)
    (hf : ∀ a past' w', P a past' w' → (f a).run.Amid o R C S past' w') :
    ((liftM x : Attempt ε α) >>= f).run.Amid o R C S past w := by
  rw [show ((liftM x : Attempt ε α) >>= f).run = x >>= fun a => (f a).run from
    ExceptT.run_bind_lift ..]
  exact h.bind hf

theorem adapt {x : Attempt ε α} {f : ε → ε'} {S : Except ε' α → List Answered → World σ → Prop}
    (h : x.run.Amid o R C (fun res past' w' => S (res.mapError f) past' w') past w) :
    (x.adapt f).run.Amid o R C S past w := by
  rw [run_adapt]
  exact h.bind fun _ _ _ hR => hR

theorem adapt_bind {x : Attempt ε α} {f : ε → ε'} {g : α → Attempt ε' β}
    {P : Except ε α → List Answered → World σ → Prop}
    {S : Except ε' β → List Answered → World σ → Prop} (h : x.run.Amid o R C P past w)
    (hok : ∀ a past' w', P (.ok a) past' w' → (g a).run.Amid o R C S past' w')
    (herr : ∀ e past' w', P (.error e) past' w' → S (.error (f e)) past' w') :
    (x.adapt f >>= g).run.Amid o R C S past w := by
  rw [ExceptT.run_bind, run_adapt, LawfulMonad.bind_assoc]
  refine h.bind ?_
  rintro (e | a) past' w' hP
  · exact herr e past' w' hP
  · exact hok a past' w' hP

theorem work_bind {x : Work ε α} {f : α → Work ε β}
    {P : Except ε α × Toolchain → List Answered → World σ → Prop}
    {S : Except ε β × Toolchain → List Answered → World σ → Prop}
    (h : (x.start t).Amid o R C P past w)
    (hok : ∀ a t past' w', P (.ok a, t) past' w' → ((f a).start t).Amid o R C S past' w')
    (herr : ∀ e t past' w', P (.error e, t) past' w' → S (.error e, t) past' w') :
    ((x >>= f).start t).Amid o R C S past w := by
  rw [Work.start_bind]
  refine h.bind ?_
  rintro ⟨e | a, t⟩ past' w' hP
  · exact herr e t past' w' hP
  · exact hok a t past' w' hP

theorem work_adapt_bind {x : Work ε α} {f : ε → ε'} {g : α → Work ε' β}
    {P : Except ε α × Toolchain → List Answered → World σ → Prop}
    {S : Except ε' β × Toolchain → List Answered → World σ → Prop}
    (h : (x.start t).Amid o R C P past w)
    (hok : ∀ a t past' w', P (.ok a, t) past' w' → ((g a).start t).Amid o R C S past' w')
    (herr : ∀ e t past' w', P (.error e, t) past' w' → S (.error (f e), t) past' w') :
    ((x.adapt f >>= g).start t).Amid o R C S past w := by
  rw [Work.start_bind, Work.start_adapt, LawfulMonad.bind_assoc]
  refine h.bind ?_
  rintro ⟨e | a, t⟩ past' w' hP
  · exact herr e t past' w' hP
  · exact hok a t past' w' hP

theorem ofAttempt_bind {x : Attempt ε α} {f : ε → ε'} {g : α → Work ε' β}
    {P : Except ε α → List Answered → World σ → Prop}
    {S : Except ε' β × Toolchain → List Answered → World σ → Prop}
    (h : x.run.Amid o R C P past w)
    (hok : ∀ a past' w', P (.ok a) past' w' → ((g a).start t).Amid o R C S past' w')
    (herr : ∀ e past' w', P (.error e) past' w' → S (.error (f e), t) past' w') :
    ((Work.ofAttempt (x.adapt f) >>= g).start t).Amid o R C S past w := by
  rw [Work.start_ofAttempt_bind, run_adapt, LawfulMonad.bind_assoc]
  refine h.bind ?_
  rintro (e | a) past' w' hP
  · exact herr e past' w' hP
  · exact hok a past' w' hP

theorem work_lift_bind {x : Program α} {f : α → Work ε β}
    {S : Except ε β × Toolchain → List Answered → World σ → Prop} (h : x.Amid o R C P past w)
    (hf : ∀ a past' w', P a past' w' → ((f a).start t).Amid o R C S past' w') :
    (((liftM x : Work ε α) >>= f).start t).Amid o R C S past w := by
  rw [Work.start_lift_bind]
  exact h.bind hf

end Amid

end Program

end LlvmBootstrap
