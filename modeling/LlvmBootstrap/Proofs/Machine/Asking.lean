import LlvmBootstrap.Host
import LlvmBootstrap.Proofs.Machine.Amid

/-!
Programs that only ask. They look at files and collect what commands print, and change nothing
themselves, whatever they are answered. The environments of all platforms are made by such
programs.
-/

namespace LlvmBootstrap

/-- Calls that ask for something. Running a command is asking if its output is collected. -/
inductive Call.Asks : Call → Prop
  | look (follow : Bool) (p : Path) : Asks (.look follow p)
  | read (p : Path) : Asks (.read p)
  | cwd : Asks .cwd
  | environ : Asks .environ
  | processId : Asks .processId
  | clock : Asks .clock
  | log (level : Level) (text : String) : Asks (.log level text)
  | collect (c : Command) : Asks (.spawn .collected c)

def Call.IsIdle : Call → Prop
  | .look _ _ | .read _ | .cwd | .environ | .processId | .clock | .draw | .send _
  | .log _ _ | .print _ | .complain _ => True
  | _ => False

/-- Commands whose output is collected leave the files alone. -/
def Outside.CollectsOnly {σ : Type} (o : Outside σ) : Prop :=
  ∀ caller c t s, (o.spawn caller .collected c t s).2.1 = t

theorem World.tree_of_isIdle {σ : Type} (o : Outside σ) (w : World σ) {c : Call}
    (hc : c.IsIdle) :
    (w.perform o c).2.tree = w.tree := by
  cases c <;> first | exact hc.elim | rfl

theorem World.cwd_of_isIdle {σ : Type} (o : Outside σ) (w : World σ) {c : Call}
    (hc : c.IsIdle) :
    (w.perform o c).2.cwd = w.cwd := by
  cases c <;> first | exact hc.elim | rfl

theorem World.perform_asks {σ : Type} {o : Outside σ} {c : Call} (ho : o.CollectsOnly)
    (h : c.Asks) (w : World σ) :
    (w.perform o c).2.tree = w.tree ∧ (w.perform o c).2.cwd = w.cwd := by
  cases h with
  | collect c => exact ⟨ho ⟨w.cwd, w.environ⟩ c w.tree w.outside, rfl⟩
  | _ => exact ⟨rfl, rfl⟩

namespace Program

variable {σ α β ε ε' : Type} {P : Call → Prop} {o : Outside σ} {w : World σ}

/-- Whatever the program is answered, each of its calls is one of `P`. -/
def Only (P : Call → Prop) : Program α → Prop
  | .done _ => True
  | .call c next => P c ∧ ∀ r, (next r).Only P

namespace Only

theorem bind {p : Program α} {f : α → Program β} (h : p.Only P) (hf : ∀ a, (f a).Only P) :
    (p >>= f).Only P := by
  induction p with
  | done a => exact hf a
  | call c next ih => exact ⟨h.1, fun r => ih r (h.2 r)⟩

theorem attempt_bind {x : Attempt ε α} {f : α → Attempt ε β} (h : x.run.Only P)
    (hf : ∀ a, (f a).run.Only P) : (x >>= f).run.Only P := by
  rw [ExceptT.run_bind]
  refine h.bind ?_
  rintro (e | a)
  · exact trivial
  · exact hf a

theorem attempt_lift_bind {x : Program α} {f : α → Attempt ε β} (h : x.Only P)
    (hf : ∀ a, (f a).run.Only P) : ((liftM x : Attempt ε α) >>= f).run.Only P := by
  rw [show ((liftM x : Attempt ε α) >>= f).run = x >>= fun a => (f a).run from
    ExceptT.run_bind_lift ..]
  exact h.bind hf

theorem attempt_call_bind {c : Call} {f : c.Answer → Attempt ε β} (h : P c)
    (hf : ∀ r, (f r).run.Only P) : ((make c : Attempt ε c.Answer) >>= f).run.Only P :=
  ⟨h, hf⟩

theorem mono {P' : Call → Prop} {p : Program α} (h : p.Only P) (hP : ∀ c, P c → P' c) :
    p.Only P' := by
  induction p with
  | done a => exact trivial
  | call c next ih => exact ⟨hP c h.1, fun r => ih r (h.2 r)⟩

/-- What each call of `P` keeps holds throughout. -/
theorem throughout {p : Program α} {C : World σ → Call → Prop} {I : World σ → Prop}
    (h : p.Only P) (hC : ∀ w c, I w → P c → C w c ∧ I (w.perform o c).2) (hw : I w) :
    p.Throughout o C (fun _ w' => I w') w := by
  induction p generalizing w with
  | done a => exact hw
  | call c next ih =>
      obtain ⟨hc, hw'⟩ := hC w c hw h.1
      exact ⟨hc, ih _ (h.2 _) hw'⟩

/-- Calls that are permitted whenever they are made, and others like them before. -/
theorem amid {p : Program α} {R : List Answered → World σ → World σ → Prop}
    {C : List Answered → World σ → Call → Prop} {past : List Answered} (h : p.Only P)
    (hC : ∀ more w c, (∀ x ∈ more, P x.call) → P c → C (past ++ more) w c) :
    p.Amid o R C (fun _ past' _ => ∃ more, past' = past ++ more ∧ ∀ x ∈ more,
      P x.call) past w := by
  suffices ∀ more, (∀ x ∈ more, P x.call) → p.Amid o R C
      (fun _ past' _ => ∃ more, past' = past ++ more ∧ ∀ x ∈ more, P x.call)
      (past ++ more) w by
    have hnil := this [] (fun _ => nofun)
    rwa [List.append_nil] at hnil
  intro more hmore
  induction p generalizing more w with
  | done a => exact ⟨more, rfl, hmore⟩
  | call c next ih =>
      refine fun w' _ => ⟨hC more w' c hmore h.1, fun answer w'' _ => ?_⟩
      rw [List.append_assoc]
      refine ih answer (h.2 answer) _ fun x hx => ?_
      rcases List.mem_append.mp hx with hx | hx
      · exact hmore x hx
      · exact List.mem_singleton.mp hx ▸ h.1

end Only

/-- A program that only asks leaves the files as they are. -/
theorem Only.keeps {p : Program α} (h : p.Only Call.Asks) (ho : o.CollectsOnly) (w : World σ) :
    (p.run o w).2.tree = w.tree ∧ (p.run o w).2.cwd = w.cwd := by
  have hrun : p.Throughout o (fun _ _ => True)
      (fun _ w' => w'.tree = w.tree ∧ w'.cwd = w.cwd) w := by
    refine h.throughout (I := fun w' => w'.tree = w.tree ∧ w'.cwd = w.cwd) ?_ ⟨rfl, rfl⟩
    rintro w' c ⟨htree, hcwd⟩ hc
    obtain ⟨htree', hcwd'⟩ := World.perform_asks ho hc w'
    exact ⟨trivial, htree'.trans htree, hcwd'.trans hcwd⟩
  exact hrun.at_end

/-! ### Platforms -/

theorem isDir_onlyAsks (p : Path) : (isDir p).Only Call.Asks := by
  refine ⟨.look true p, fun r => ?_⟩
  rcases r with e | kind
  · exact trivial
  · cases kind <;> exact trivial

theorem firstDir?_onlyAsks (ps : List Path) : (firstDir? ps).Only Call.Asks := by
  induction ps with
  | nil => exact trivial
  | cons p ps ih =>
      rw [firstDir?]
      refine (isDir_onlyAsks p).bind fun found => ?_
      cases found with
      | true => exact trivial
      | false => exact ih

end Program

def Host.OnlyAsks (h : Host) : Prop := ∀ a, (h.environment a).run.Only Call.Asks

namespace Work

theorem start_environment (h : Host) (t : Toolchain) :
    (environment h).start t = match t.vars with
      | some vars => pure (.ok vars, t)
      | none => (h.environment t.arch).run >>= fun
        | .ok vars => pure (.ok vars, { t with vars := some vars })
        | .error e => pure (.error e, t) := by
  rw [environment, start_get_bind]
  cases t.vars with
  | some vars => exact start_pure ..
  | none =>
      dsimp only
      rw [start_ofAttempt_bind]
      congr 1
      funext res
      cases res with
      | error e => dsimp only
      | ok vars =>
          dsimp only
          rw [start_set_bind, start_pure]

theorem environment_onlyAsks {h : Host} (hasks : h.OnlyAsks) (t : Toolchain) :
    ((environment h).start t).Only Call.Asks := by
  rw [start_environment]
  cases t.vars with
  | some vars => exact trivial
  | none =>
      refine (hasks t.arch).bind ?_
      rintro (e | vars)
      · exact trivial
      · exact trivial

end Work

open Program

theorem Msvc.findInstall_onlyAsks (m : Msvc) : m.findInstall.run.Only Call.Asks := by
  rw [findInstall]
  cases m.install with
  | some p =>
      refine Only.attempt_lift_bind (isDir_onlyAsks p) fun found => ?_
      cases found <;> exact trivial
  | none =>
      refine Only.attempt_lift_bind (firstDir?_onlyAsks _) fun found => ?_
      cases found <;> exact trivial

theorem Platform.onlyAsks (p : Platform) : (p : Host).OnlyAsks := by
  intro a
  change (p.environment a).run.Only Call.Asks
  cases p with
  | unix u => exact ⟨.environ, fun _ => trivial⟩
  | msvc m =>
      rw [Platform.environment, Msvc.environment]
      refine Only.attempt_bind m.findInstall_onlyAsks fun install => ?_
      refine Only.attempt_call_bind (.log ..) fun _ => ?_
      refine Only.attempt_call_bind (.collect _) fun answer => ?_
      rcases answer with e | f
      · exact trivial
      · dsimp only
        split
        · exact trivial
        · split <;> exact trivial

end LlvmBootstrap
