import LlvmBootstrap.CommandLine
import LlvmBootstrap.Proofs.Run.Course

/-!
A run stops at what goes wrong. Once a command has failed or a server has not served what it
was asked for, nothing is run, asked for or made any more: what is left over is cleared away
and the lock is given back. A run that ends well has met no such failure.
-/

namespace LlvmBootstrap

open Program

/-- Calls that only say something, look, clear away or give back. -/
def Call.ClearsUp : Call → Prop
  | .look _ _ | .log _ _ | .complain _ | .close _ | .change (.removeAll _) => True
  | _ => False

def Download.next? (url : Url) (r : Response) : Option Url :=
  if isRedirect r.status then r.location.bind url.resolve? else none

def Download.goOn (url : Url) (left : Nat) (r : Response) : Program (Except String Response) :=
  match next? url r with
  | some next => (request next left).run
  | none => pure (.ok r)

/-- A command that was not started, was killed or ended with another code than 0, or a request
that was neither served nor sent on. -/
def Answered.Fails : Answered → Prop
  | ⟨.spawn _ _, answer⟩ => Build.Fails answer
  | ⟨.send url, answer⟩ =>
    ∀ r, answer = .ok r → Download.next? url r = none ∧ ¬ (200 ≤ r.status ∧ r.status < 300)
  | _ => False

/-- Behind a failure there are only calls that clear up. -/
def StopsAtFailure (tr : List Answered) : Prop :=
  tr.Pairwise fun x y => x.Fails → y.call.ClearsUp

theorem Call.IsOwn.not_fails {x : Answered} (h : x.call.IsOwn) : ¬ x.Fails := by
  obtain ⟨c, answer⟩ := x
  cases c with
  | spawn => exact h.elim
  | send => exact h.elim
  | _ => exact id

theorem stopsAtFailure_of_none {tr : List Answered} (h : ∀ x ∈ tr, ¬ x.Fails) :
    StopsAtFailure tr :=
  List.pairwise_iff_forall_sublist.mpr fun hsub hx =>
    absurd hx (h _ (hsub.subset List.mem_cons_self))

namespace Program

variable {ε ε' α β : Type} {good good' : α → Prop}

/-- Whatever it meets, the program stops at a failure, and if its
result is a good one there was none. -/
def Careful (good : α → Prop) (p : Program α) : Prop :=
  ∀ ⦃σ : Type⦄ (o : Outside σ) (w : World σ), p.Traced o (fun a tr _ =>
    StopsAtFailure tr ∧ (good a → ∀ x ∈ tr, ¬ x.Fails)) w

structure GivesUp (good : α → Prop) (p : Program α) : Prop where
  clearsUp : p.Only Call.ClearsUp
  bad : ∀ ⦃σ : Type⦄ (o : Outside σ) (w : World σ), ¬ good (p.run o w).1

theorem GivesUp.bind {p : Program α} {f : α → Program β} {good : β → Prop}
    (h : p.Only Call.ClearsUp) (hf : ∀ a, (f a).GivesUp good) : (p >>= f).GivesUp good := by
  refine ⟨h.bind fun a => (hf a).clearsUp, fun σ o w => ?_⟩
  rw [run_bind]
  exact (hf _).bad o _

theorem GivesUp.pure {a : α} (h : ¬ good a) : GivesUp good (pure a : Program α) :=
  ⟨trivial, fun _ _ _ => h⟩

namespace Careful

theorem pure {a : α} : Careful good (pure a : Program α) :=
  fun _ _ _ => ⟨.nil, fun _ _ => nofun⟩

theorem ask (c : Call) :
    Careful (fun answer => ¬ Answered.Fails ⟨c, answer⟩) (Program.ask c) := by
  intro σ o w
  refine ⟨List.pairwise_singleton _ _, fun hgood x hx => ?_⟩
  obtain rfl := List.mem_singleton.mp hx
  exact hgood

theorem of_own {p : Program α} (h : p.Only Call.IsOwn) : p.Careful good := by
  intro σ o w
  have hnone : ∀ x ∈ p.trace o w, ¬ x.Fails := fun x hx => (h.trace o w x hx).not_fails
  exact ⟨stopsAtFailure_of_none hnone, fun _ => hnone⟩

/-- After a good result the program may go on; after any other it has to give up. -/
theorem bind {p : Program α} {f : α → Program β} {good' : β → Prop} (h : p.Careful good)
    (hf : ∀ a, good a → (f a).Careful good') (hbad : ∀ a, ¬ good a → (f a).GivesUp good') :
    (p >>= f).Careful good' := by
  intro σ o w
  obtain ⟨hstops, hnone⟩ := h o w
  rw [Traced, trace_bind, run_bind]
  by_cases hgood : good (p.run o w).1
  · obtain ⟨hstops', hnone'⟩ := hf _ hgood o (p.run o w).2
    refine ⟨List.pairwise_append.mpr ⟨hstops, hstops', fun x hx y _ hfails => ?_⟩,
      fun hb x hx => ?_⟩
    · exact absurd hfails (hnone hgood x hx)
    · exact (List.mem_append.mp hx).elim (hnone hgood x) (hnone' hb x)
  · obtain ⟨hclears, hno⟩ := hbad _ hgood
    have hrest : ∀ y ∈ (f (p.run o w).1).trace o (p.run o w).2, y.call.ClearsUp :=
      hclears.trace o _
    refine ⟨List.pairwise_append.mpr ⟨hstops, ?_, fun x _ y hy _ => hrest y hy⟩,
      fun hb => absurd hb (hno o _)⟩
    exact List.pairwise_of_forall_mem_list fun x _ y hy _ => hrest y hy

/-- A part that meets no failure whatever it comes to. -/
theorem own_bind {p : Program α} {f : α → Program β} {good : β → Prop} (h : p.Only Call.IsOwn)
    (hf : ∀ a, (f a).Careful good) : (p >>= f).Careful good := by
  have hp : p.Careful fun _ => True := of_own h
  exact hp.bind (fun a _ => hf a) fun _ ha => absurd trivial ha

end Careful

/-! ### Attempts and programs with a toolchain

Their good results are those without an error. -/

namespace Careful

variable {t : Toolchain}

theorem attempt_bind {x : Attempt ε α} {f : α → Attempt ε β} (h : x.run.Careful (·.isOk))
    (hf : ∀ a, (f a).run.Careful (·.isOk)) : (x >>= f).run.Careful (·.isOk) := by
  refine h.bind ?_ ?_
  · rintro (e | a) ha
    · exact absurd ha nofun
    · exact hf a
  · rintro (e | a) ha
    · exact .pure nofun
    · exact absurd rfl ha

theorem attempt_own_bind {p : Program α} {f : α → Attempt ε β} (h : p.Only Call.IsOwn)
    (hf : ∀ a, (f a).run.Careful (·.isOk)) :
    ((liftM p : Attempt ε α) >>= f).run.Careful (·.isOk) := by
  rw [show ((liftM p : Attempt ε α) >>= f).run = p >>= fun a => (f a).run from
    ExceptT.run_bind_lift ..]
  exact own_bind h hf

theorem adapt {x : Attempt ε α} {f : ε → ε'} (h : x.run.Careful (·.isOk)) :
    (x.adapt f).run.Careful (·.isOk) := by
  rw [run_adapt]
  refine h.bind (fun _ _ => .pure) ?_
  rintro (e | a) ha
  · exact .pure nofun
  · exact absurd rfl ha

theorem work_bind {x : Work ε α} {f : α → Work ε β} (h : (x.start t).Careful (·.1.isOk))
    (hf : ∀ a t', ((f a).start t').Careful (·.1.isOk)) :
    ((x >>= f).start t).Careful (·.1.isOk) := by
  rw [Work.start_bind]
  refine h.bind ?_ ?_
  · rintro ⟨e | a, t'⟩ ha
    · exact absurd ha nofun
    · exact hf a t'
  · rintro ⟨e | a, t'⟩ ha
    · exact .pure nofun
    · exact absurd rfl ha

theorem work_adapt {x : Work ε α} {f : ε → ε'} (h : (x.start t).Careful (·.1.isOk)) :
    ((x.adapt f).start t).Careful (·.1.isOk) := by
  rw [Work.start_adapt]
  refine h.bind (fun _ _ => .pure) ?_
  rintro ⟨e | a, t'⟩ ha
  · exact .pure nofun
  · exact absurd rfl ha

theorem work_own_bind {p : Program α} {f : α → Work ε β} (h : p.Only Call.IsOwn)
    (hf : ∀ a, ((f a).start t).Careful (·.1.isOk)) :
    (((liftM p : Work ε α) >>= f).start t).Careful (·.1.isOk) := by
  rw [Work.start_lift_bind]
  exact own_bind h hf

theorem ofAttempt_bind {x : Attempt ε α} {f : α → Work ε β} (h : x.run.Careful (·.isOk))
    (hf : ∀ a, ((f a).start t).Careful (·.1.isOk)) :
    ((Work.ofAttempt x >>= f).start t).Careful (·.1.isOk) := by
  rw [Work.start_ofAttempt_bind]
  refine h.bind ?_ ?_
  · rintro (e | a) ha
    · exact absurd ha nofun
    · exact hf a
  · rintro (e | a) ha
    · exact .pure nofun
    · exact absurd rfl ha

end Careful

end Program

/-! ### Fetching -/

namespace Download

/-- A request is answered well if the server serves it in the end. -/
theorem request_careful (url : Url) (left : Nat) : (request url left).run.Careful
    fun res => ∃ r, res = .ok r ∧ 200 ≤ r.status ∧ r.status < 300 := by
  induction left generalizing url with
  | zero => exact .pure
  | succ left ih =>
      rw [request]
      split
      · exact .pure
      refine (Careful.ask (.send url)).bind ?_ ?_
      · rintro (e | r) -
        · exact .pure
        · change Careful _ (goOn url left r)
          rw [goOn]
          split
          · exact ih _
          · exact .pure
      · rintro (e | r) hrefused
        · exact .pure (by simp)
        · obtain ⟨hnext, hstatus⟩ := not_not.mp hrefused r rfl
          change GivesUp _ (goOn url left r)
          rw [goOn, hnext]
          refine .pure ?_
          rintro ⟨_, ⟨⟩, hserved⟩
          exact hstatus hserved

theorem body_careful (address : String) : (body address).run.Careful (·.isOk) := by
  rw [body]
  split
  · refine (request_careful _ (maxRedirects + 1)).bind ?_ ?_
    · rintro _ ⟨r, rfl, hserved⟩
      change Careful _ (ExceptT.run (if 200 ≤ r.status ∧ r.status < 300 then _ else _))
      rw [if_pos hserved]
      exact .pure
    · rintro (e | r) hrefused
      · exact .pure Bool.false_ne_true
      · have hstatus : ¬ (200 ≤ r.status ∧ r.status < 300) := fun h => hrefused ⟨r, rfl, h⟩
        change GivesUp _ (ExceptT.run (if 200 ≤ r.status ∧ r.status < 300 then _ else _))
        rw [if_neg hstatus]
        exact .pure Bool.false_ne_true
  · exact .pure

end Download

namespace Sources

theorem download_careful (address : String) : (download address).run.Careful (·.isOk) := by
  refine .attempt_own_bind (.ask trivial) fun _ => ?_
  refine .attempt_bind (.adapt (Download.body_careful address)) fun file => ?_
  exact .attempt_own_bind (.ask trivial) fun _ => .pure

theorem fetch_careful (a : SourceArchive) (r : Root) :
    (fetch a r r.record).run.Careful (·.isOk) := by
  refine .attempt_own_bind (isDir_onlyOwn r.sources) fun done => ?_
  split
  · exact .attempt_own_bind (.ask trivial) fun _ => .pure
  · split
    · refine .attempt_bind (.adapt (.of_own (makeDirs_onlyOwn _))) fun _ => ?_
      refine .attempt_bind (download_careful _) fun file => ?_
      refine .attempt_bind
        (.of_own ((checkDigest_onlyPlain a file).mono fun _ => Call.IsPlain.isOwn)) fun _ => ?_
      exact .of_own
        ((withStaging_onlyPlain fun staging => unpackSources_onlyPlain ..).mono fun _ =>
          Call.IsPlain.isOwn)
    · exact .pure

end Sources

/-! ### Building -/

theorem not_isSuccess_of_fails {f : Finished} (h : Build.Fails (.ok f)) :
    f.status.isSuccess = false :=
  decide_eq_false (h f rfl)

def Host.IsCareful (h : Host) : Prop := ∀ a, (h.environment a).run.Careful (·.isOk)

theorem firstDir?_onlyOwn (ps : List Path) : (firstDir? ps).Only Call.IsOwn := by
  induction ps with
  | nil => exact trivial
  | cons p ps ih =>
      refine (isDir_onlyOwn p).bind fun found => ?_
      cases found
      · exact ih
      · exact trivial

theorem Msvc.findInstall_onlyOwn (m : Msvc) : m.findInstall.run.Only Call.IsOwn := by
  rw [Msvc.findInstall]
  split
  · refine .attempt_lift_bind (isDir_onlyOwn _) fun found => ?_
    cases found <;> exact trivial
  · refine .attempt_lift_bind (firstDir?_onlyOwn _) fun found => ?_
    cases found <;> exact trivial

theorem Platform.isCareful (p : Platform) : (p : Host).IsCareful := by
  intro a
  cases p with
  | unix u => exact .attempt_own_bind (.ask trivial) fun _ => .pure
  | msvc m =>
      refine .attempt_bind (.of_own m.findInstall_onlyOwn) fun install => ?_
      refine .attempt_own_bind (.ask trivial) fun _ => ?_
      refine (Careful.ask (.spawn .collected (Msvc.initCommand install a))).bind ?_ ?_
      · rintro (e | f) -
        · exact .pure
        · dsimp only [ExceptT.bindCont]
          split
          · exact .pure
          · split <;> exact .pure
      · rintro (e | f) hfails
        · exact .pure nofun
        · dsimp only [ExceptT.bindCont]
          rw [not_isSuccess_of_fails (not_not.mp hfails)]
          exact .pure nofun

theorem Work.environment_careful {h : Host} (hcareful : h.IsCareful) (t : Toolchain) :
    ((environment h).start t).Careful (·.1.isOk) := by
  rw [start_environment]
  split
  · exact .pure
  · refine (hcareful t.arch).bind ?_ ?_
    · rintro (e | vars) - <;> exact .pure
    · rintro (e | vars) hfailed
      · exact .pure nofun
      · exact absurd rfl hfailed

namespace Build

variable {b : Build} {a : Arch} {t : Toolchain}

theorem makeDirs_careful (p : Path) : (makeDirs p).run.Careful (·.isOk) :=
  .of_own (makeDirs_onlyOwn p)

theorem reset_clearsUp (r : Root) (s : Stage) : (r.reset s).run.Only Call.ClearsUp := by
  refine Only.attempt_call_bind trivial fun removed => ?_
  rcases removed with e | u
  · cases e <;> exact trivial
  · exact trivial

theorem regret_clearsUp (undone : Except Failure Unit) :
    (Part.regret undone).Only Call.ClearsUp := by
  cases undone with
  | error e => exact .ask trivial
  | ok u => exact trivial

/-- A stage whose command has failed is cleared away. -/
theorem runStage_careful (hr : b.record = b.root.record) (s : Stage) (cmd : Command) :
    (b.runStage s cmd).run.Careful (·.isOk) := by
  rw [Part.run_runStage]
  refine (Careful.ask (.spawn .shared cmd)).bind
    (fun answer hdone => ?_) fun answer hfails => ?_
  · cases hfailure : failure? s cmd answer with
    | none => exact .pure
    | some e => exact absurd (fails_of_failure? hfailure).1 hdone
  · cases hfailure : failure? s cmd answer with
    | none => exact absurd (not_not.mp hfails) (not_fails_of_failure? hfailure)
    | some e =>
        rw [hr]
        refine .bind (.ask trivial) fun _ => .bind (reset_clearsUp b.root s) fun undone => ?_
        exact .bind (regret_clearsUp undone) fun _ => .pure nofun

theorem ready_careful (hcareful : b.host.IsCareful) (p : Part) :
    ((p.ready b a).start t).Careful (·.1.isOk) := by
  cases p with
  | configure =>
      rw [Part.ready]
      split
      · exact .pure
      · refine .work_bind (.work_adapt (Work.environment_careful hcareful t)) fun vars t' => ?_
        refine .work_own_bind (.ask trivial) fun _ => ?_
        exact .ofAttempt_bind (.adapt (makeDirs_careful _)) fun _ => .pure
  | install =>
      refine .work_bind (.work_adapt (Work.environment_careful hcareful t)) fun vars t' => ?_
      exact .work_own_bind (.ask trivial) fun _ => .pure

theorem work_careful (hcareful : b.host.IsCareful) (hr : b.record = b.root.record) (p : Part) :
    ((p.work b a).start t).Careful (·.1.isOk) := by
  rw [Part.work_eq, hr]
  refine .work_own_bind (isDir_onlyOwn _) fun done => ?_
  split
  · exact .work_own_bind (.ask trivial) fun _ => .pure
  · refine .work_bind (ready_careful hcareful p) fun cmd t' => ?_
    refine .ofAttempt_bind (runStage_careful hr ..) fun _ => ?_
    exact .work_own_bind (p.check_onlyOwn hr) fun _ => .pure

theorem run_careful (hcareful : b.host.IsCareful) (hr : b.record = b.root.record) :
    ((b.run a).start t).Careful (·.1.isOk) := by
  refine .work_bind (work_careful hcareful hr .configure) fun _ t' => ?_
  exact .work_bind (work_careful hcareful hr .install) fun _ t'' => .pure

end Build

/-! ### The whole run -/

theorem Downstream.verdict_isOk_iff (cmd : Command) (answer : Except Failure Finished) :
    (verdict cmd answer).isOk = true ↔ ¬ Build.Fails answer := by
  rcases answer with e | f
  · exact ⟨nofun, fun h => absurd (fun _ => nofun) h⟩
  · have hfails : Build.Fails (.ok f) ↔ ¬ f.status.isSuccess = true := by
      simp [Build.Fails, Status.isSuccess]
    rw [hfails, not_not, verdict]
    by_cases hf : f.status.isSuccess = true
    · simp [hf, Except.isOk, Except.toBool]
    · simp [hf, Except.isOk, Except.toBool]

theorem Downstream.invoke_careful {d : Downstream} (hcareful : d.host.IsCareful) (q : Request)
    (install : Path) (t : Toolchain) : ((d.invoke q install).start t).Careful (·.1.isOk) := by
  rw [start_invoke]
  split
  · exact .pure
  rename_i cmd hcommand
  have henv : ((d.withToolchain q.action cmd).start t).Careful (·.1.isOk) := by
    rw [withToolchain]
    split
    · exact .work_bind (Work.environment_careful hcareful t) fun _ _ => .pure
    · exact .pure
  refine henv.bind ?_ ?_
  · rintro ⟨e | cmd', t'⟩ -
    · exact .pure
    · refine .own_bind (.ask trivial) fun _ => (Careful.ask (.spawn .shared cmd')).bind ?_ ?_
      · exact fun _ _ => .pure
      · intro answer hfails
        exact .pure fun hok => (verdict_isOk_iff cmd' answer).mp hok (not_not.mp hfails)
  · rintro ⟨e | cmd', t'⟩ hfailed
    · exact .pure Bool.false_ne_true
    · exact absurd rfl hfailed

namespace Bootstrap

variable {v : Bootstrap} {a : Arch} {t : Toolchain}

theorem steps_careful (hcareful : v.host.IsCareful) (a : Arch) (t : Toolchain) :
    ((v.steps a).start t).Careful (·.1.isOk) := by
  refine .ofAttempt_bind (.adapt (Sources.fetch_careful ..)) fun _ => ?_
  refine .work_bind (.work_adapt (Build.run_careful (b := v.build) hcareful rfl))
    fun install t' => ?_
  exact .work_own_bind (.ask trivial) fun _ => .pure

/-- Whatever becomes of the steps, giving the lock back is the last thing done. -/
theorem holding_careful {ε α : Type} {x : Work ε α} (h : (x.start t).Careful (·.1.isOk))
    (l : RootLock) :
    ((holding l x).start t).Careful (·.1.isOk) := by
  rw [start_holding]
  exact h.bind (fun res _ => .own_bind (.ask trivial) fun _ => .pure)
    fun res hfailed => .bind (.ask trivial) fun _ => .pure hfailed

theorem prepare_careful (hcareful : v.host.IsCareful) (a : Arch) (command : String)
    (t : Toolchain) :
    ((v.prepare a command).start t).Careful (·.1.isOk) :=
  .ofAttempt_bind (.adapt (.of_own (RootLock.acquire_onlyOwn ..)))
    fun l => holding_careful (steps_careful hcareful a t) l

theorem run_careful (hcareful : v.host.IsCareful) (q : Request) :
    (v.run q).Careful (·.isOk) := by
  have hwork :=
    Careful.work_bind (prepare_careful hcareful q.arch q.action.subcommand (.of q.arch))
    fun install t' => .work_adapt (f := BootstrapError.invoke)
      (Downstream.invoke_careful (d := v.downstream) hcareful q install t')
  exact hwork.bind (fun _ _ => .pure) fun _ hfailed => .pure hfailed

end Bootstrap

end LlvmBootstrap
