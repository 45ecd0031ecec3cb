import LlvmBootstrap.Proofs.Machine.Throughout
import LlvmBootstrap.Toolchain

/-!
The calls of a run as a list. `Traced` says something of the result of a run, of its calls and
of the world in the end at once, and is proved along the program, the calls of its parts joined
in order.
-/

namespace LlvmBootstrap

structure Answered where
  call : Call
  answer : call.Answer

namespace Program

variable {σ α β : Type} {o : Outside σ} {p : Program α} {w : World σ}

def trace (o : Outside σ) : Program α → World σ → List Answered
  | .done _, _ => []
  | .call c next, w =>
    ⟨c, (w.perform o c).1⟩ :: trace o (next (w.perform o c).1) (w.perform o c).2

theorem trace_bind (o : Outside σ) (p : Program α) (f : α → Program β) (w : World σ) :
    (p >>= f).trace o w = p.trace o w ++ (f (p.run o w).1).trace o (p.run o w).2 := by
  induction p generalizing w with
  | done a => rfl
  | call c next ih => exact congrArg (List.cons _) (ih _ _)

def Traced (o : Outside σ) (Q : α → List Answered → World σ → Prop) (p : Program α)
    (w : World σ) :
    Prop :=
  Q (p.run o w).1 (p.trace o w) (p.run o w).2

namespace Traced

theorem post {P Q : α → List Answered → World σ → Prop} (h : p.Traced o P w)
    (hQ : ∀ a tr w', P a tr w' → Q a tr w') : p.Traced o Q w :=
  hQ _ _ _ h

theorem bind_iff {f : α → Program β} {R : β → List Answered → World σ → Prop} :
    (p >>= f).Traced o R w ↔
      p.Traced o (fun a tr w' => (f a).Traced o (fun b tr' => R b (tr ++ tr')) w') w := by
  rw [Traced, run_bind, trace_bind]
  exact Iff.rfl

theorem call_bind_iff {c : Call} {f : c.Answer → Program β}
    {R : β → List Answered → World σ → Prop} :
    ((make c : Program c.Answer) >>= f).Traced o R w ↔
      (f (w.perform o c).1).Traced o (fun b tr => R b (⟨c, (w.perform o c).1⟩ :: tr))
        (w.perform o c).2 := Iff.rfl

theorem attempt_call_bind_iff {ε : Type} {c : Call} {f : c.Answer → Attempt ε β}
    {R : Except ε β → List Answered → World σ → Prop} :
    ((make c : Attempt ε c.Answer) >>= f).run.Traced o R w ↔
      (f (w.perform o c).1).run.Traced o (fun b tr => R b (⟨c, (w.perform o c).1⟩ :: tr))
        (w.perform o c).2 := Iff.rfl

/-- Every call of the run has been permitted in the world it was made in. -/
theorem of_throughout {C : World σ → Call → Prop} {Q : α → World σ → Prop}
    (h : p.Throughout o C Q w) :
    p.Traced o (fun a tr w' => Q a w' ∧ ∀ x ∈ tr, ∃ w, C w x.call) w := by
  induction p generalizing w with
  | done a => exact ⟨h, fun _ hx => absurd hx List.not_mem_nil⟩
  | call c next ih =>
      obtain ⟨hQ, htr⟩ := ih _ h.2
      refine ⟨hQ, fun x hx => ?_⟩
      rcases List.mem_cons.mp hx with rfl | hx
      · exact ⟨w, h.1⟩
      · exact htr x hx

end Traced

end Program

namespace Work

variable {ε ε' α β γ : Type} {t : Toolchain}

/-! ### Programs that share a toolchain -/

theorem start_bind (x : Work ε α) (f : α → Work ε β) :
    (x >>= f).start t = x.start t >>= fun r => match r.1 with
      | .ok a => (f a).start r.2
      | .error e => pure (.error e, r.2) := by
  rw [start, ExceptT.run_bind, StateT.run_bind]
  congr 1
  funext ⟨r, t'⟩
  cases r <;> rfl

theorem start_adapt (f : ε → ε') (x : Work ε α) :
    (x.adapt f).start t = x.start t >>= fun r => pure (r.1.mapError f, r.2) := by
  change StateT.run (Except.mapError f <$> x.run) t = _
  rw [StateT.run_map]
  exact map_eq_pure_bind _ _

theorem start_lift_bind (p : Program α) (f : α → Work ε β) :
    ((liftM p : Work ε α) >>= f).start t = p >>= fun a => (f a).start t := by
  have hlift : (liftM p : Work ε α).start t = p >>= fun a => pure (.ok a, t) := by
    change StateT.run (Except.ok <$> (liftM p : StateT Toolchain Program α)) t = _
    rw [StateT.run_map]
    change _ <$> (p >>= fun a => pure (a, t)) = _
    rw [map_eq_pure_bind, LawfulMonad.bind_assoc]
    rfl
  rw [start_bind, hlift, LawfulMonad.bind_assoc]
  rfl

theorem start_pure (a : α) : (pure a : Work ε α).start t = pure (.ok a, t) := rfl

theorem start_get_bind (f : Toolchain → Work ε β) :
    ((get : Work ε Toolchain) >>= f).start t = (f t).start t := rfl

theorem start_set_bind (t' : Toolchain) (f : PUnit → Work ε β) :
    ((set t' : Work ε PUnit) >>= f).start t = (f ⟨⟩).start t' := rfl

theorem start_ofAttempt_bind (x : Attempt ε α) (f : α → Work ε β) :
    (ofAttempt x >>= f).start t = x.run >>= fun r => match r with
      | .ok a => (f a).start t
      | .error e => pure (.error e, t) := by
  rw [start_bind]
  change (x.run >>= fun r => pure (r, t)) >>= _ = _
  rw [LawfulMonad.bind_assoc]
  rfl

/-- Two attempts in a row are one attempt. -/
theorem start_ofAttempt_ofAttempt_bind (x : Attempt ε α) (f : α → Attempt ε β)
    (g : β → Work ε γ) :
    (ofAttempt x >>= fun a => ofAttempt (f a) >>= g).start t =
      (ofAttempt (x >>= f) >>= g).start t := by
  rw [start_ofAttempt_bind, start_ofAttempt_bind, ExceptT.run_bind, LawfulMonad.bind_assoc]
  congr 1
  funext res
  cases res with
  | error e => rfl
  | ok a => exact start_ofAttempt_bind ..

end Work

end LlvmBootstrap
