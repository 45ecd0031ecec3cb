import LlvmBootstrap.Machine.World

/-!
What holds at every point of a run. `Throughout` follows a run call by call: each call is made
in a world that permits it, and the result is a permitted one. An invariant is then a
permission that every permitted call keeps; and two runs of one program that are always given
the same answers have the same result, whatever else their worlds hold.
-/

namespace LlvmBootstrap

theorem World.perform_change_ok {σ : Type} {o : Outside σ} {w : World σ}
    {c : Change} {t : Tree} (h : c.apply w.tree w.cwd = .ok t) :
    w.perform o (.change c) = (.ok (), { w with tree := t }) := by
  rw [World.perform, World.change, h]
  rfl

theorem World.perform_change_error {σ : Type} {o : Outside σ} {w : World σ}
    {c : Change} {e : Errno} (h : c.apply w.tree w.cwd = .error e) :
    w.perform o (.change c) = (.error e, w) := by
  rw [World.perform, World.change, h]
  rfl

namespace Program

variable {σ σ' α β ε ε' : Type} {o : Outside σ} {o' : Outside σ'}
  {C C' : World σ → Call → Prop} {p : Program α} {w : World σ} {w' : World σ'}

/-- What is left of a program after `n` calls, and the world then. -/
def after (o : Outside σ) : Nat → Program α → World σ → Program α × World σ
  | 0, p, w => (p, w)
  | _ + 1, .done a, w => (.done a, w)
  | n + 1, .call c next, w => after o n (next (w.perform o c).1) (w.perform o c).2

def next? : Program α → Option Call
  | .done _ => none
  | .call c _ => some c

/-- The points of a run of two parts are those of the first part, and
then those of the second one. -/
theorem exists_after_bind (o : Outside σ) (p : Program α) (f : α → Program β) (w : World σ) :
    ∃ N, p.after o N w = (.done (p.run o w).1, (p.run o w).2) ∧
      (∀ n, n ≤ N → (p >>= f).after o n w = ((p.after o n w).1 >>= f, (p.after o n w).2)) ∧
      ∀ n, (p >>= f).after o (N + n) w = (f (p.run o w).1).after o n (p.run o w).2 := by
  induction p generalizing w with
  | done a =>
      refine ⟨0, rfl, fun n hn => ?_, fun n => ?_⟩
      · rw [Nat.le_zero.mp hn]
        rfl
      · rw [Nat.zero_add]
        rfl
  | call c next ih =>
      obtain ⟨N, hN, hle, hadd⟩ := ih _ (w.perform o c).2
      refine ⟨N + 1, hN, fun n hn => ?_, fun n => ?_⟩
      · cases n with
        | zero => rfl
        | succ n => exact hle n (Nat.le_of_succ_le_succ hn)
      · rw [Nat.add_right_comm]
        exact hadd n

theorem next?_bind {f : α → Program β} {c : Call} (h : p.next? = some c) :
    (p >>= f).next? = some c := by
  cases p with
  | done a => contradiction
  | call c' next => exact h

theorem run_adapt (x : Attempt ε α) (f : ε → ε') :
    (x.adapt f).run = x.run >>= fun r => pure (r.mapError f) := by
  change Except.mapError f <$> x.run = _
  rw [map_eq_pure_bind]

theorem run_bind_ok {x : Attempt ε α} {a : α} {w₁ : World σ} (h : x.run.run o w = (.ok a, w₁))
    (f : α → Attempt ε β) : (x >>= f).run.run o w = (f a).run.run o w₁ := by
  rw [ExceptT.run_bind, run_bind, h]

theorem run_bind_error {x : Attempt ε α} {e : ε} {w₁ : World σ}
    (h : x.run.run o w = (.error e, w₁)) (f : α → Attempt ε β) :
    (x >>= f).run.run o w = (.error e, w₁) := by
  rw [ExceptT.run_bind, run_bind, h]
  rfl

/-- What a program does, done within an attempt. -/
theorem run_lift {x : Program α} {a : α} {w₁ : World σ} (h : x.run o w = (a, w₁)) :
    (liftM x : Attempt ε α).run.run o w = (.ok a, w₁) := by
  change (x >>= fun a => pure (Except.ok a)).run o w = _
  rw [run_bind, h]
  rfl

theorem run_make {c : Call} {answer : c.Answer} {w₁ : World σ}
    (h : w.perform o c = (answer, w₁)) :
    (make c : Attempt ε c.Answer).run.run o w = (.ok answer, w₁) :=
  run_lift h

/-- Each call of the run is made in a world that permits it, and the run ends as `Q` says. -/
def Throughout (o : Outside σ) (C : World σ → Call → Prop) (Q : α → World σ → Prop) :
    Program α → World σ → Prop
  | .done a, w => Q a w
  | .call c next, w => C w c ∧ (next (w.perform o c).1).Throughout o C Q (w.perform o c).2

namespace Throughout

variable {Q Q' : α → World σ → Prop}

@[simp] theorem pure_iff {a : α} : (pure a : Program α).Throughout o C Q w ↔ Q a w := Iff.rfl

theorem bind_iff {f : α → Program β} {R : β → World σ → Prop} :
    (p >>= f).Throughout o C R w ↔
      p.Throughout o C (fun a w => (f a).Throughout o C R w) w := by
  induction p generalizing w with
  | done a => exact Iff.rfl
  | call c next ih => exact and_congr_right fun _ => ih _

/-- A run with one call in front: the call is permitted, and the rest
goes on from its answer. -/
theorem call_bind_iff {c : Call} {f : c.Answer → Program β} {R : β → World σ → Prop} :
    ((make c : Program c.Answer) >>= f).Throughout o C R w ↔
      C w c ∧ (f (w.perform o c).1).Throughout o C R (w.perform o c).2 := Iff.rfl

theorem imp (h : p.Throughout o C Q w) (hC : ∀ w c, C w c → C' w c)
    (hQ : ∀ a w, Q a w → Q' a w) :
    p.Throughout o C' Q' w := by
  induction p generalizing w with
  | done a => exact hQ a w h
  | call c next ih => exact ⟨hC w c h.1, ih _ h.2⟩

theorem post (h : p.Throughout o C Q w) (hQ : ∀ a w, Q a w → Q' a w) : p.Throughout o C Q' w :=
  h.imp (fun _ _ hc => hc) hQ

theorem bind {f : α → Program β} {R : β → World σ → Prop} (h : p.Throughout o C Q w)
    (hf : ∀ a w, Q a w → (f a).Throughout o C R w) : (p >>= f).Throughout o C R w :=
  bind_iff.mpr (h.post hf)

/-- A change is refused and leaves the world as it was, or it is done. -/
theorem change_bind {c : Change} {f : (Call.change c).Answer → Program β}
    {R : β → World σ → Prop} (hC : C w (.change c))
    (hok : ∀ t', c.apply w.tree w.cwd = .ok t' →
      (f (.ok ())).Throughout o C R { w with tree := t' })
    (herr : ∀ e, c.apply w.tree w.cwd = .error e → (f (.error e)).Throughout o C R w) :
    ((make (.change c) : Program (Call.change c).Answer) >>= f).Throughout o C R w := by
  refine call_bind_iff.mpr ⟨hC, ?_⟩
  cases happ : c.apply w.tree w.cwd with
  | error e =>
      rw [World.perform_change_error happ]
      exact herr e happ
  | ok t' =>
      rw [World.perform_change_ok happ]
      exact hok t' happ

/-! ### Attempts -/

theorem attempt_bind_iff {x : Attempt ε α} {f : α → Attempt ε β}
    {R : Except ε β → World σ → Prop} :
    (x >>= f).run.Throughout o C R w ↔
      x.run.Throughout o C (fun r w => match r with
        | .ok a => (f a).run.Throughout o C R w
        | .error e => R (.error e) w) w := by
  rw [ExceptT.run_bind, bind_iff]
  constructor <;> refine fun h => h.post ?_ <;> rintro (e | a) w h <;> exact h

theorem attempt_call_bind_iff {c : Call} {f : c.Answer → Attempt ε β}
    {R : Except ε β → World σ → Prop} :
    ((make c : Attempt ε c.Answer) >>= f).run.Throughout o C R w ↔
      C w c ∧ (f (w.perform o c).1).run.Throughout o C R (w.perform o c).2 := Iff.rfl

theorem attempt_change_bind {c : Change} {f : (Call.change c).Answer → Attempt ε β}
    {R : Except ε β → World σ → Prop} (hC : C w (.change c))
    (hok : ∀ t', c.apply w.tree w.cwd = .ok t' →
      (f (.ok ())).run.Throughout o C R { w with tree := t' })
    (herr : ∀ e, c.apply w.tree w.cwd = .error e → (f (.error e)).run.Throughout o C R w) :
    ((make (.change c) : Attempt ε (Call.change c).Answer) >>= f).run.Throughout o C R w :=
  change_bind (f := fun r => (f r).run) hC hok herr

/-- A program without errors of its own in front of an attempt. -/
theorem attempt_lift_bind_iff {x : Program α} {f : α → Attempt ε β}
    {R : Except ε β → World σ → Prop} :
    ((liftM x : Attempt ε α) >>= f).run.Throughout o C R w ↔
      x.Throughout o C (fun a w => (f a).run.Throughout o C R w) w := by
  induction x generalizing w with
  | done a => exact Iff.rfl
  | call c next ih => exact and_congr_right fun _ => ih _

/-- What comes after an attempt that succeeds. -/
theorem attempt_bind {x : Attempt ε α} {f : α → Attempt ε β} {P : Except ε α → World σ → Prop}
    {R : Except ε β → World σ → Prop} (h : x.run.Throughout o C P w)
    (hok : ∀ a w, P (.ok a) w → (f a).run.Throughout o C R w)
    (herr : ∀ e w, P (.error e) w → R (.error e) w) : (x >>= f).run.Throughout o C R w := by
  rw [attempt_bind_iff]
  refine h.post ?_
  rintro (e | a) w h
  · exact herr e w h
  · exact hok a w h

theorem adapt {x : Attempt ε α} {f : ε → ε'} {R : Except ε' α → World σ → Prop}
    (h : x.run.Throughout o C (fun r w => R (r.mapError f) w) w) :
    (x.adapt f).run.Throughout o C R w := by
  rw [run_adapt, bind_iff]
  exact h

/-- What comes after an attempt that succeeds, when its errors are taken for others. -/
theorem adapt_bind {x : Attempt ε α} {g : ε → ε'} {f : α → Attempt ε' β}
    {P : Except ε α → World σ → Prop} {R : Except ε' β → World σ → Prop}
    (h : x.run.Throughout o C P w)
    (hok : ∀ a w, P (.ok a) w → (f a).run.Throughout o C R w)
    (herr : ∀ e w, P (.error e) w → R (.error (g e)) w) :
    (x.adapt g >>= f).run.Throughout o C R w := by
  refine attempt_bind_iff.mpr (adapt (h.post ?_))
  rintro (e | a) w h
  · exact herr e w h
  · exact hok a w h

/-! ### Every point of a run -/

theorem at_end (h : p.Throughout o C Q w) : Q (p.run o w).1 (p.run o w).2 := by
  induction p generalizing w with
  | done a => exact h
  | call c next ih => exact ih _ h.2

/-- What every permitted call and every permitted result have in
common holds at every point. -/
theorem at_points {I : World σ → Prop} (h : p.Throughout o C Q w) (hC : ∀ w c, C w c → I w)
    (hQ : ∀ a w, Q a w → I w) (n : Nat) : I (p.after o n w).2 := by
  induction n generalizing p w with
  | zero =>
      cases p with
      | done a => exact hQ a w h
      | call c next => exact hC w c h.1
  | succ n ih =>
      cases p with
      | done a => exact hQ a w h
      | call c next => exact ih h.2

/-- What relates the worlds before and after each permitted call relates one
point of the run to the next one. -/
theorem at_steps {S : World σ → Option Call → World σ → Prop} (h : p.Throughout o C Q w)
    (hC : ∀ w c, C w c → S w (some c) (w.perform o c).2) (hdone : ∀ w, S w none w) (n : Nat) :
    S (p.after o n w).2 (p.after o n w).1.next? (p.after o (n + 1) w).2 := by
  induction n generalizing p w with
  | zero =>
      cases p with
      | done a => exact hdone w
      | call c next => exact hC w c h.1
  | succ n ih =>
      cases p with
      | done a => exact hdone w
      | call c next => exact ih h.2

/-- The result of the run is the one that the run ends with. -/
theorem result (h : p.Throughout o C Q w) :
    p.Throughout o C (fun a w' => Q a w' ∧ p.run o w = (a, w')) w := by
  induction p generalizing w with
  | done a => exact ⟨h, rfl⟩
  | call c next ih => exact ⟨h.1, ih _ h.2⟩

/-- What holds at every point holds after each call as well. -/
theorem forward {I : World σ → Prop} (h : p.Throughout o C Q w) (hC : ∀ w c, C w c → I w)
    (hQ : ∀ a w, Q a w → I w) :
    p.Throughout o (fun w c => C w c ∧ I (w.perform o c).2) Q w := by
  induction p generalizing w with
  | done a => exact h
  | call c next ih => exact ⟨⟨h.1, (h.2.at_points hC hQ 0 :)⟩, ih _ h.2⟩

/-- What each permitted call keeps relates a world before the run to every point of it. -/
theorem since {R : World σ → World σ → Prop} {w₀ : World σ} (h : p.Throughout o C Q w)
    (h₀ : R w₀ w) (htrans : ∀ w w' w'', R w w' → R w' w'' → R w w'')
    (hC : ∀ w c, C w c → R w (w.perform o c).2) :
    p.Throughout o (fun w' c => C w' c ∧ R w₀ w') (fun a w' => Q a w' ∧ R w₀ w') w := by
  induction p generalizing w with
  | done a => exact ⟨h, h₀⟩
  | call c next ih => exact ⟨⟨h.1, h₀⟩, ih _ h.2 (htrans _ _ _ h₀ (hC w c h.1))⟩

/-- What each permitted call keeps relates every point to the end of the run. -/
theorem toward {R : World σ → World σ → Prop} (h : p.Throughout o C Q w) (hrefl : ∀ w, R w w)
    (htrans : ∀ w w' w'', R w w' → R w' w'' → R w w'')
    (hC : ∀ w c, C w c → R w (w.perform o c).2) :
    R w (p.run o w).2 ∧ p.Throughout o (fun w' c => C w' c ∧ R w' (p.run o w).2) Q w := by
  induction p generalizing w with
  | done a => exact ⟨hrefl w, h⟩
  | call c next ih =>
      obtain ⟨hR, hrest⟩ := ih _ h.2
      have hall := htrans _ _ _ (hC w c h.1) hR
      exact ⟨hall, ⟨h.1, hall⟩, hrest⟩

/-- Two runs that are given the same answers do the same, and what relates their worlds at
first does so at every point. -/
theorem after_eq {R : World σ → World σ' → Prop} (h : p.Throughout o C Q w) (hR : R w w')
    (hstep : ∀ c w w', C w c → R w w' →
      (w.perform o c).1 = (w'.perform o' c).1 ∧ R (w.perform o c).2 (w'.perform o' c).2)
        (n : Nat) :
    (p.after o n w).1 = (p.after o' n w').1 ∧ R (p.after o n w).2 (p.after o' n w').2 := by
  induction n generalizing p w w' with
  | zero => exact ⟨rfl, hR⟩
  | succ n ih =>
      cases p with
      | done a => exact ⟨rfl, hR⟩
      | call c next =>
          obtain ⟨hans, hR'⟩ := hstep c w w' h.1 hR
          rw [after, after, ← hans]
          exact ih h.2 hR'

theorem run_eq {R : World σ → World σ' → Prop} (h : p.Throughout o C Q w) (hR : R w w')
    (hstep : ∀ c w w', C w c → R w w' →
      (w.perform o c).1 = (w'.perform o' c).1 ∧ R (w.perform o c).2 (w'.perform o' c).2) :
    (p.run o w).1 = (p.run o' w').1 ∧ R (p.run o w).2 (p.run o' w').2 := by
  induction p generalizing w w' with
  | done a => exact ⟨rfl, hR⟩
  | call c next ih =>
      obtain ⟨hans, hR'⟩ := hstep c w w' h.1 hR
      rw [run, run, ← hans]
      exact ih _ h.2 hR'

end Throughout

end Program

end LlvmBootstrap
