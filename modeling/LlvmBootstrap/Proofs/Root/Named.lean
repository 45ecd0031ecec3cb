import Mathlib
import LlvmBootstrap.Proofs.Lock.Record
import LlvmBootstrap.Proofs.Root.Ledger

/-!
Who a refused run says that it waits for. What it reads in the lock file is the record that was
written last. That is the record of a run that has had the lock meanwhile, unless the run that
had the lock when it was asked for has not emptied the file yet, in which the record of an
earlier run still stands.
-/

namespace LlvmBootstrap

open LlvmBootstrap.Tree Program

namespace Root

variable {ι σ : Type} [DecidableEq ι] {o : Outside σ} {r : Root} {w₀ : World σ} {i j : ι}
  {jobs : ι → Job} {cwd : Location} {h : Handle} {s : Together ι σ} {A B : List (ι × Answered)}
  {record : Holder} {b₀ : Bytes} {top : Location} {id : FileId}

/-- Who is named by a run that has been refused the lock after `A` and has read the lock file
after `B`, if `b₀` was in the lock file in the beginning. -/
inductive Names (r : Root) (b₀ : Bytes) (A B : List (ι × Answered)) (record : Holder) : Prop
  /-- A run that has had the lock in between. -/
  | current (j : ι) (h : Handle) (answer : Except Errno Unit) (M : List (ι × Answered))
      (hA : A <+: M) (hB : M <+: B) (hh : Holds r (Together.callsOf j M) h)
      (hwrote : (j, ⟨.write h record.toBytes, answer⟩) ∈ B)
  /-- A run that had given the lock back before; the one that has it
  has not emptied the file. -/
  | earlier (j k : ι) (h h' : Handle) (answer : Except Errno Unit)
      (hh : Holds r (Together.callsOf k A) h')
      (hfull : (k, ⟨.truncate h', .ok ()⟩) ∉ B)
      (hwrote : (j, ⟨.write h record.toBytes, answer⟩) ∈ A) (hclosed : (j, ⟨.close h, ()⟩) ∈ A)
  /-- Whoever is named in the file as it was before; the one that has
  the lock has not emptied it. -/
  | before (k : ι) (h' : Handle) (hh : Holds r (Together.callsOf k A) h')
      (hfull : (k, ⟨.truncate h', .ok ()⟩) ∉ B) (hread : Holder.ofBytes? b₀ = some record)

/-- A run writes its record while it has the lock. -/
theorem Joint.holds_of_write {s₁ s₂ : Together ι σ} {bytes : Bytes}
    {answer : Except Errno Unit} (hs : Joint o r cwd jobs s₁) (hready : Shared o r cwd jobs w₀)
    (ht : Together.Turn o jobs j ⟨.write h bytes, answer⟩ s₁ s₂) : Holds r (s₁.past j) h := by
  cases ht with
  | turn hleft hp =>
      cases (hs.obeys hready hleft).1 with
      | idle hc => exact hc.elim
      | write record hh => exact hh

/-- What a run reads in the lock file once it has been opened. -/
theorem eq_of_turn_read {s₁ s₂ : Together ι σ} {b : Bytes} (hready : Shared o r cwd jobs w₀)
    (hl : LockAt r cwd top id s₁.world.tree)
    (ht : Together.Turn o jobs i ⟨.read r.lock, .ok b⟩ s₁ s₂) :
    b = s₁.world.tree.content id := by
  cases ht with
  | turn hleft hp =>
      obtain ⟨hanswer, -⟩ := hp.sure not_false
      exact (hl.of_start (hready.start i).symm).eq_of_readFile hanswer.symm

/-- A run opens the lock file once. -/
theorem Joint.once {h' : Handle} (hs : Joint o r cwd jobs s)
    (ho : ⟨.openFile r.lock, .ok h⟩ ∈ s.past i) (ho' : ⟨.openFile r.lock, .ok h'⟩ ∈ s.past i) :
    h = h' := by
  cases hs.placed with
  | fresh hf hno hfree => exact absurd (.inr rfl) (hno i _ ho h)
  | at_ top id hl hw => exact hw.once i h h' ho ho'

/-- A run that has the lock later, while another one has it now, has
not emptied the lock file yet. -/
theorem not_truncated_of_holds {k : ι} {h' : Handle} {s₁ : Together ι σ}
    (hready : Shared o r cwd jobs w₀)
    (hs₁ : Together.Steps o jobs (Together.start r jobs w₀) s₁)
    (hsteps : Together.Steps o jobs s₁ s) (hj : Holds r (s₁.past j) h)
    (hk : Holds r (s.past k) h') (hjk : j ≠ k) : ⟨.truncate h', .ok ()⟩ ∉ s₁.past k := by
  intro hmem
  have hk₁ : Holds r (s₁.past k) h' := by
    cases ledger_of_steps hready hs₁ with
    | fresh hno hb => exact absurd (.inl rfl) (hno k _ hmem h')
    | at_ top id hl hwritten hlocked hemptied =>
        obtain ⟨hopened, htaken⟩ := hlocked k h' hmem
        exact ⟨⟨hopened,
          fun hclose => hk.open_ ((Together.past_prefix hsteps k).subset hclose)⟩, htaken⟩
  exact hjk ((mutual_exclusion hready hs₁).one j k h h' hj hk₁)

/-- The run that wrote last is the one that is named. -/
theorem names_of_written {A' B' D : List (ι × Answered)} {h' : Handle}
    {answer : Except Errno Unit} (hready : Shared o r cwd jobs w₀)
    (hsteps : Together.Steps o jobs (Together.start r jobs w₀) s)
    (hB : s.history = A ++ (i, ⟨.tryLock h', .ok false⟩) :: D)
    (hwrote : s.history = A' ++ (j, ⟨.write h record.toBytes, answer⟩) :: B')
    (hlast : ∀ e ∈ B', ¬ e.2.Writes) : Names r b₀ A s.history record := by
  have hmem : (j, ⟨.write h record.toBytes, answer⟩) ∈ s.history := by
    rw [hwrote]
    exact List.mem_append_right _ List.mem_cons_self
  rcases List.append_eq_append_iff.mp (hB.symm.trans hwrote) with ⟨M, hA', -⟩ | ⟨C, hA, hC⟩
  · -- The record was written after the lock was refused.
    obtain ⟨s₂, s₃, hs₂, rfl, hwrite, -⟩ := Together.exists_turn hsteps hwrote
    exact .current j h answer s₂.history (hA' ▸ List.prefix_append ..)
      (hwrote ▸ List.prefix_append ..)
      ((hready.joint.steps hready hs₂).holds_of_write hready hwrite) hmem
  · cases C with
    | nil => exact nomatch congrArg (fun e => e.2.call) (List.cons.inj hC).1
    | cons e C =>
        obtain ⟨rfl, hB'⟩ := List.cons.inj hC
        obtain ⟨sA, sA', hsA, rfl, htry, -⟩ := Together.exists_turn hsteps hB
        obtain ⟨s₂, s₃, hs₂, rfl, hwrite, hrest⟩ := Together.exists_turn hsA hA
        have hj := (hready.joint.steps hready hs₂).holds_of_write hready hwrite
        have hsteps₂ : Together.Steps o jobs s₂ sA := .head ⟨_, _, hwrite⟩ hrest
        have hpast := (Together.past_prefix hsteps₂ j).subset
        -- The job that wrote the record may have closed its handle since. Then another one
        -- held the lock when it was refused, and had not come to writing its own record.
        by_cases hclosed : ⟨.close h, ()⟩ ∈ sA.past j
        · obtain ⟨k, -, hk', hk⟩ := (mutual_exclusion hready hsA).refused i h' sA' htry
          have hjk : j ≠ k := by
            rintro rfl
            obtain rfl := (hready.joint.steps hready hsA).once (hpast hj.opened) hk.opened
            exact hk.open_ hclosed
          refine .earlier j k h hk' answer hk (fun hfull => ?_) ?_
            (Together.mem_callsOf.mp hclosed)
          · rw [hwrote] at hfull
            rcases List.mem_append.mp hfull with hfull | hfull
            · exact not_truncated_of_holds hready hs₂ hsteps₂ hj hk hjk
                (Together.mem_callsOf.mpr hfull)
            · rcases List.mem_cons.mp hfull with he | hfull
              · exact nomatch congrArg (fun e => e.2.call) he
              · exact hlast _ hfull (.truncate _)
          · rw [hA]
            exact List.mem_append_right _ List.mem_cons_self
        · exact .current j h answer sA.history List.prefix_rfl (hB ▸ List.prefix_append ..)
            ⟨⟨hpast hj.opened, hclosed⟩, hpast hj.locked⟩ hmem

/-- Nobody has written: then the run that has the lock has not emptied the file. -/
theorem names_of_none {h' : Handle} {D : List (ι × Answered)} (hready : Shared o r cwd jobs w₀)
    (hsteps : Together.Steps o jobs (Together.start r jobs w₀) s)
    (hB : s.history = A ++ (i, ⟨.tryLock h', .ok false⟩) :: D)
    (hnone : ∀ e ∈ s.history, ¬ e.2.Writes) (hread : Holder.ofBytes? b₀ = some record) :
    Names r b₀ A s.history record := by
  obtain ⟨sA, sA', hsA, rfl, htry, -⟩ := Together.exists_turn hsteps hB
  obtain ⟨k, -, hk', hk⟩ := (mutual_exclusion hready hsA).refused i h' sA' htry
  exact .before k hk' hk (fun hfull => hnone _ hfull (.truncate _)) hread

theorem exists_read_of_refused {past : List Answered}
    (hrefused : Refused r past (some record)) :
    ∃ before after h bytes, Holder.ofBytes? bytes = some record ∧
      past = (before ++ [⟨.tryLock h, .ok false⟩]) ++ ⟨.read r.lock, .ok bytes⟩ :: after := by
  obtain ⟨before, after, h, answer, hread, hpast⟩ := hrefused
  cases answer with
  | error e => exact nomatch hread
  | ok bytes => exact ⟨before, after, h, bytes, hread.symm, by simpa using hpast⟩

/-- **Who is named.** A run that was refused the lock names a run that has had the lock since,
if the one that had it then had emptied the lock file before the file was read. -/
theorem refused_names {r' : Root} {now : Nat} (hready : Shared o r cwd jobs w₀)
    (hsteps : Together.Steps o jobs (Together.start r jobs w₀) s)
    (hleft : s.left i = .done (.error (.lock (.busy r' (some record) now)))) :
    ∃ top id A B C h answer, LockAt r cwd top id s.world.tree ∧
      s.history = B ++ (i, ⟨.read r.lock, answer⟩) :: C ∧
      A ++ [(i, ⟨.tryLock h, .ok false⟩)] <+: B ∧
      Names r (w₀.tree.content id) A B record := by
  have hend := (hready.joint.steps hready hsteps).amid i
  rw [hleft] at hend
  obtain ⟨before, after, h, bytes, hread, hpast⟩ :=
    exists_read_of_refused (hend.1.refused r' (some record) now rfl)
  obtain ⟨B, C, hs, hB, -⟩ := Together.exists_split hpast
  obtain ⟨A, D, hD, -, -⟩ := Together.exists_split hB
  obtain ⟨s₁, s₂, hs₁, rfl, hturn, hrest⟩ := Together.exists_turn hsteps hs
  have htried : ⟨.tryLock h, .ok false⟩ ∈ s₁.past i := by
    rw [Together.past, hB]
    exact List.mem_append_right _ List.mem_cons_self
  -- What was read is what the lock file held at that moment, and the ledger says who wrote it.
  cases ledger_of_steps hready hs₁ with
  | fresh hno hb => exact absurd (.inl rfl) (hno i _ htried h)
  | at_ top id hl hwritten hlocked hemptied =>
      have hl' :=
        (hready.joint.steps hready hs₁).lockAt_steps hready (.head ⟨_, _, hturn⟩ hrest) hl
      have hbytes := eq_of_turn_read hready hl hturn
      refine ⟨top, id, A, s₁.history, C, h, _, hl', hs, ⟨D, by rw [hD]; simp⟩, ?_⟩
      rcases hwritten.last with ⟨hstart, hnone⟩ | hempty |
        ⟨A', j, h', B', written, answer, rec', hwrote, hlast, htake⟩
      · exact names_of_none hready hs₁ hD hnone (hstart ▸ hbytes ▸ hread)
      · rw [hbytes, hempty, Holder.ofBytes?_nil] at hread
        contradiction
      · rw [hbytes, htake] at hread
        obtain rfl := Holder.eq_of_ofBytes?_take hread
        exact names_of_written hready hs₁ hD hwrote hlast

/-! ### Three runs -/

def thrice (i : Fin 3) : Job :=
  ⟨mirrored, .unix ⟨.linux, .empty, none⟩, .prepare .x64 "setup", ⟨[], .empty, i + 1⟩⟩

/-- The first run has come to its end when the second one takes the lock. The third one, which
is refused, names the first one, since the second one has not emptied the file yet. -/
theorem refused_names_thrice :
    let s₀ :=
      Together.play Archive.silent thrice (List.replicate 10 0)
        (Together.start here thrice bareWorld)
    let s := Together.play Archive.silent thrice (List.replicate 4 1 ++ List.replicate 7 2) s₀
    let record : Holder := ⟨1, "setup", .x64, 0⟩
    Shared Archive.silent here [] thrice bareWorld ∧
      Together.Steps Archive.silent thrice (Together.start here thrice bareWorld) s₀ ∧
      Released here (s₀.past 0) ∧ Together.Steps Archive.silent thrice s₀ s ∧
      s.left 2 = .done (.error (.lock (.busy here (some record) 0))) ∧
      ∃ top id A B C h answer, LockAt here [] top id s.world.tree ∧
        s.history = B ++ (2, ⟨.read here.lock, answer⟩) :: C ∧
        A ++ [(2, ⟨.tryLock h, .ok false⟩)] <+: B ∧
        Names here (bareWorld.tree.content id) A B record := by
  intro s₀ s record
  have hshared : Shared Archive.silent here [] thrice bareWorld :=
    shared_bareWorld fun _ => rfl
  have hfirst := Together.steps_play Archive.silent thrice (List.replicate 10 0)
    (Together.start here thrice bareWorld)
  have hrest :=
    Together.steps_play Archive.silent thrice (List.replicate 4 1 ++ List.replicate 7 2) s₀
  have hend : ∃ res, s₀.left 0 = .done res := by
    refine ⟨.error (.fetch (.unsupportedArchive "u")), ?_⟩
    simp only [s₀, Together.start, Job.program, thrice, Job.bootstrap, Bootstrap.prepare,
      Bootstrap.steps, archive_mirrored]
    cbv
  have hnamed : s.left 2 =
      .done (.error (.lock (.busy here (Holder.ofBytes? record.toBytes) 0))) := by
    simp only [s, s₀, record, Together.start, Job.program, thrice, Job.bootstrap,
      Bootstrap.prepare, Bootstrap.steps, archive_mirrored, RootLock.acquire,
      RootLock.otherHolder]
    -- What the reader makes of the record has been proved, and need not be computed.
    generalize Holder.ofBytes? = read
    cbv
  rw [Holder.ofBytes?_toBytes (by decide) (by decide)] at hnamed
  obtain ⟨res, hend⟩ := hend
  exact ⟨hshared, hfirst, ((mutual_exclusion hshared hfirst).released 0 res hend).1,
    hrest, hnamed,
    refused_names hshared (hfirst.trans hrest) hnamed⟩

end Root

end LlvmBootstrap
