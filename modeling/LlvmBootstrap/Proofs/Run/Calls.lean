import LlvmBootstrap.Bootstrap
import LlvmBootstrap.Proofs.Build.Course
import LlvmBootstrap.Proofs.Sources.Staging

/-!
Which parts of a run can run a command. Taking the lock and fetching the sources never do;
whatever they are answered, the tool does all of that itself.
-/

namespace LlvmBootstrap

open Program

/-- Whether a call is done by the tool itself, and not by a command
that it runs or by a server. -/
def Call.IsOwn : Call → Prop
  | .spawn _ _ | .send _ => False
  | _ => True

/-- Whether a call is one of those that files are unpacked with: they look at paths and change
what they lead to, and concern no open file. -/
def Call.IsPlain : Call → Prop
  | .look _ _ | .change _ | .draw | .log _ _ => True
  | _ => False

def Call.SpawnsNothing : Call → Prop
  | .spawn _ _ => False
  | _ => True

def Call.IsTame : Call → Prop
  | .spawn .shared _ => False
  | _ => True

theorem Call.IsPlain.isOwn {c : Call} (h : c.IsPlain) : c.IsOwn := by
  cases c <;> trivial

theorem Call.IsOwn.isTame {c : Call} (h : c.IsOwn) : c.IsTame := by
  cases c <;> trivial

theorem Call.IsOwn.spawnsNothing {c : Call} (h : c.IsOwn) : c.SpawnsNothing := by
  cases c <;> trivial

theorem Call.IsIdle.spawnsNothing {c : Call} (h : c.IsIdle) : c.SpawnsNothing := by
  cases c <;> trivial

theorem Call.SpawnsNothing.isTame {c : Call} (h : c.SpawnsNothing) : c.IsTame := by
  cases c <;> trivial

theorem Call.Asks.isTame {c : Call} (h : c.Asks) : c.IsTame := by
  cases h <;> trivial

namespace Program.Only

variable {ε ε' α β : Type} {P : Call → Prop} {t : Toolchain}

theorem ask {c : Call} (h : P c) : (Program.ask c).Only P := ⟨h, fun _ => trivial⟩

theorem adapt {x : Attempt ε α} (f : ε → ε') (h : x.run.Only P) : (x.adapt f).run.Only P := by
  rw [run_adapt]
  exact h.bind fun _ => trivial

theorem work_bind {x : Work ε α} {f : α → Work ε β} (h : (x.start t).Only P)
    (hf : ∀ a t', ((f a).start t').Only P) : ((x >>= f).start t).Only P := by
  rw [Work.start_bind]
  refine h.bind ?_
  rintro ⟨e | a, t'⟩
  · exact trivial
  · exact hf a t'

theorem work_adapt {x : Work ε α} (f : ε → ε') (h : (x.start t).Only P) :
    ((x.adapt f).start t).Only P := by
  rw [Work.start_adapt]
  exact h.bind fun _ => trivial

theorem ofAttempt_bind {x : Attempt ε α} {f : α → Work ε β} (h : x.run.Only P)
    (hf : ∀ a, ((f a).start t).Only P) : ((Work.ofAttempt x >>= f).start t).Only P := by
  rw [Work.start_ofAttempt_bind]
  refine h.bind ?_
  rintro (e | a)
  · exact trivial
  · exact hf a

/-- Each call that such a program makes is one of `P`. -/
theorem trace {σ : Type} {p : Program α} (h : p.Only P) (o : Outside σ) (w : World σ) :
    ∀ x ∈ p.trace o w, P x.call := by
  induction p generalizing w with
  | done a => exact fun _ => nofun
  | call c next ih =>
      rintro x (_ | ⟨_, hx⟩)
      · exact h.1
      · exact ih _ (h.2 _) _ x hx

theorem goes {σ : Type} {p : Program α} {o : Outside σ} {w w' : World σ} {a : α}
    {tr : List Answered} (h : p.Only P) (hp : p.Goes o w a tr w') : ∀ x ∈ tr, P x.call := by
  obtain ⟨-, rfl⟩ := hp
  exact h.trace o w

end Program.Only

/-! ### Files -/

namespace Program

theorem isDir_onlyPlain (p : Path) : (isDir p).Only Call.IsPlain := by
  refine ⟨trivial, fun r => ?_⟩
  rcases r with e | kind
  · exact trivial
  · cases kind <;> exact trivial

theorem change_onlyPlain (c : Change) : (change c).run.Only Call.IsPlain :=
  ⟨trivial, fun _ => trivial⟩

theorem isPlain_of_making {qs : List Path} {c : Call} (h : Making qs c) : c.IsPlain := by
  cases h <;> trivial

theorem makeDirs_onlyPlain (p : Path) : (makeDirs p).run.Only Call.IsPlain :=
  (makeDirs_only p).mono fun _ => isPlain_of_making

theorem isDir_onlyOwn (p : Path) : (isDir p).Only Call.IsOwn :=
  (isDir_onlyPlain p).mono fun _ => Call.IsPlain.isOwn

theorem makeDirs_onlyOwn (p : Path) : (makeDirs p).run.Only Call.IsOwn :=
  (makeDirs_onlyPlain p).mono fun _ => Call.IsPlain.isOwn

end Program

/-! ### Unpacking an archive -/

namespace Archive

open Tar

variable {top dest p : Path} {m : Member}

theorem meetsLink_onlyPlain (dir : Path) (ns : List Name) :
    (meetsLink dir ns).run.Only Call.IsPlain := by
  induction ns generalizing dir with
  | nil => exact trivial
  | cons n ns ih =>
      refine Only.attempt_call_bind trivial fun r => ?_
      rcases r with e | kind
      · cases e <;> exact trivial
      · cases kind with
        | link => exact trivial
        | _ => exact ih _

theorem replacing_onlyPlain (p : Path) (c : Change) :
    (replacing p c).run.Only Call.IsPlain := by
  refine Only.attempt_call_bind trivial fun r => ?_
  rcases r with e | u
  · cases e with
    | «exists» =>
        refine Only.attempt_call_bind trivial fun r => ?_
        rcases r with e | u
        · cases e with
          | notFound => exact change_onlyPlain c
          | _ => exact trivial
        · exact change_onlyPlain c
    | _ => exact trivial
  · exact trivial

theorem setMode_onlyPlain (m : Member) (p : Path) : (setMode m p).run.Only Call.IsPlain := by
  rw [setMode]
  split
  · exact change_onlyPlain _
  · exact trivial

theorem makeMemberDir_onlyPlain (p : Path) : (makeMemberDir p).run.Only Call.IsPlain := by
  refine Only.attempt_call_bind trivial fun r => ?_
  rcases r with e | u
  · cases e with
    | «exists» =>
        refine Only.attempt_call_bind trivial fun r => ?_
        rcases r with e | kind
        · exact trivial
        · cases kind <;> exact trivial
    | _ => exact trivial
  · exact trivial

theorem makeMember_onlyPlain (m : Member) (p : Path) :
    (makeMember m p).run.Only Call.IsPlain := by
  rw [makeMember]
  split
  · exact trivial
  · exact trivial
  · exact .adapt _ (.attempt_bind (makeMemberDir_onlyPlain p) fun _ => setMode_onlyPlain m p)
  · split
    · split
      · exact trivial
      · exact .adapt _ (replacing_onlyPlain ..)
    · exact trivial
  · refine .attempt_bind (.adapt _ (replacing_onlyPlain ..)) fun _ => ?_
    split
    · exact trivial
    · exact .adapt _ (setMode_onlyPlain m p)

theorem makeHardLink_onlyPlain (src p : Path) :
    (makeHardLink src p).run.Only Call.IsPlain := by
  refine Only.attempt_call_bind trivial fun r => ?_
  rcases r with e | u
  · exact .adapt _ (change_onlyPlain _)
  · exact trivial

theorem targetOf_onlyPlain (m : Member) : (targetOf m).run.Only Call.IsPlain := by
  rw [targetOf]
  split <;> exact trivial

theorem checkTarget_onlyPlain (top dest : Path) (names : List Name) (m : Member) :
    (checkTarget top dest names m).run.Only Call.IsPlain := by
  rw [checkTarget]
  split
  · refine .attempt_bind (targetOf_onlyPlain m) fun target => ?_
    split <;> exact trivial
  · refine .attempt_bind (targetOf_onlyPlain m) fun target => ?_
    split
    · refine .attempt_bind (.adapt _ (meetsLink_onlyPlain ..)) fun met => ?_
      split <;> exact trivial
    · exact trivial
  · exact trivial

theorem unpackMember_onlyPlain (top dest : Path) (m : Member) :
    (unpackMember top dest m).run.Only Call.IsPlain := by
  rw [unpackMember]
  split
  · dsimp only
    split
    · exact trivial
    · exact trivial
    · refine .attempt_bind (.adapt _ (meetsLink_onlyPlain ..)) fun met => ?_
      split
      · exact trivial
      · refine .attempt_bind (checkTarget_onlyPlain ..) fun linked => ?_
        refine .attempt_bind (.adapt _ (makeDirs_onlyPlain _)) fun _ => ?_
        cases linked with
        | some src => exact .attempt_bind (makeHardLink_onlyPlain ..) fun _ => trivial
        | none => exact .attempt_bind (makeMember_onlyPlain ..) fun _ => trivial
  · exact trivial

theorem unpackAll_onlyPlain (top dest : Path) (count : Nat) (ms : List Member) :
    (unpackAll top dest count ms).run.Only Call.IsPlain := by
  induction ms generalizing count with
  | nil => exact trivial
  | cons m ms ih =>
      refine .attempt_bind (unpackMember_onlyPlain ..) fun unpacked => ?_
      cases unpacked <;> exact ih _

theorem extract_onlyPlain (file : Bytes) (format : Format) (top : String) (dest : Path) :
    (extract file format top dest).run.Only Call.IsPlain := by
  refine .attempt_bind (unpackAll_onlyPlain ..) fun count => ?_
  split <;> exact trivial

end Archive

/-! ### Fetching the sources -/

namespace Sources

open Archive

variable {r : Root}

theorem makeStaging_onlyPlain (r : Root) (tries : Nat) :
    (makeStaging r tries).run.Only Call.IsPlain := by
  induction tries with
  | zero => exact trivial
  | succ tries ih =>
      refine Only.attempt_call_bind trivial fun name =>
        Only.attempt_call_bind trivial fun made => ?_
      rcases made with e | u
      · cases e with
        | «exists» => exact ih
        | _ => exact trivial
      · exact trivial

theorem checkDigest_onlyPlain (a : SourceArchive) (file : Bytes) :
    (checkDigest a file).run.Only Call.IsPlain := by
  rw [checkDigest]
  split
  · exact trivial
  · dsimp only
    split <;> exact trivial

theorem unpackSources_onlyPlain (a : SourceArchive) (r : Root) (format : Format) (file : Bytes)
    (staging : Path) : (unpackSources a r format file staging).run.Only Call.IsPlain := by
  refine Only.attempt_call_bind trivial fun _ =>
    .attempt_bind (extract_onlyPlain ..) fun entries => ?_
  split
  · exact trivial
  · refine .attempt_bind (.adapt _ (change_onlyPlain _)) fun _ => ?_
    exact Only.attempt_call_bind trivial fun _ => trivial

theorem withStaging_onlyPlain {α : Type} {work : Path → Attempt SourceError α}
    (h : ∀ p, (work p).run.Only Call.IsPlain) :
    (withStaging r work).run.Only Call.IsPlain := by
  refine .attempt_bind (.adapt _ (makeStaging_onlyPlain r _)) fun staging => ?_
  exact (h staging).bind fun _ => ⟨trivial, fun _ => trivial⟩

/-- A fetch is made of such calls and of what the download asks. -/
theorem fetch_only (a : SourceArchive) (r : Root) :
    (fetch a r r.record).run.Only fun c => c.IsPlain ∨ c.IsIdle := by
  refine .attempt_lift_bind ((isDir_onlyPlain r.sources).mono fun _ => .inl) fun done => ?_
  split
  · exact Only.attempt_call_bind (.inl trivial) fun _ => trivial
  · split
    · refine .attempt_bind (.adapt _ ((makeDirs_onlyPlain _).mono fun _ => .inl)) fun _ => ?_
      refine .attempt_bind ((Download.download_onlyIdle _).mono fun _ => .inr) fun file => ?_
      refine .attempt_bind ((checkDigest_onlyPlain a file).mono fun _ => .inl) fun _ => ?_
      exact (withStaging_onlyPlain fun staging => unpackSources_onlyPlain ..).mono fun _ =>
        .inl
    · exact trivial

theorem fetch_spawnsNothing (a : SourceArchive) (r : Root) :
    (fetch a r r.record).run.Only Call.SpawnsNothing :=
  (fetch_only a r).mono fun _ hc =>
    hc.elim (fun h => h.isOwn.spawnsNothing) Call.IsIdle.spawnsNothing

end Sources

/-! ### Taking the lock -/

namespace RootLock

theorem replaceContent_onlyOwn (h : Handle) (content : Bytes) :
    (replaceContent h content).run.Only Call.IsOwn := by
  refine .attempt_bind ⟨trivial, fun _ => trivial⟩ fun _ => ?_
  refine .attempt_bind ⟨trivial, fun _ => trivial⟩ fun _ => ?_
  exact ⟨trivial, fun _ => trivial⟩

theorem otherHolder_onlyOwn (r : Root) : (otherHolder r).Only Call.IsOwn := by
  refine ⟨trivial, fun answer => ?_⟩
  cases answer <;> exact trivial

theorem keep_onlyOwn (r : Root) (h : Handle) (record : Holder) :
    (keep r h record).run.Only Call.IsOwn := by
  refine .attempt_lift_bind (replaceContent_onlyOwn ..) fun res => ?_
  rcases res with e | u
  · exact Only.attempt_call_bind trivial fun _ => trivial
  · exact trivial

theorem acquire_onlyOwn (r : Root) (command : String) (a : Arch) :
    (acquire r command a).run.Only Call.IsOwn := by
  refine .attempt_bind (.adapt _ (makeDirs_onlyOwn _)) fun _ =>
    Only.attempt_call_bind trivial fun opened => ?_
  rcases opened with e | h
  · exact trivial
  · refine Only.attempt_call_bind trivial fun granted => ?_
    rcases granted with e | _ | _
    · exact Only.attempt_call_bind trivial fun _ => trivial
    · refine .attempt_lift_bind (otherHolder_onlyOwn r) fun holder => ?_
      exact Only.attempt_call_bind trivial fun _ =>
        Only.attempt_call_bind trivial fun _ => trivial
    · refine Only.attempt_call_bind trivial fun _ => Only.attempt_call_bind trivial fun _ => ?_
      exact keep_onlyOwn ..

end RootLock

end LlvmBootstrap
