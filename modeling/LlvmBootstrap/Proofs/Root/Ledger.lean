import LlvmBootstrap.Proofs.Root.Together
import Mathlib.Data.List.Induction

/-!
What is in the lock file when several runs take turns. Only a run that has the lock empties the
file and writes its record into it, so that in the file is the record that was written last, or
the beginning of it, or what was there before any run wrote.
-/

namespace LlvmBootstrap

open LlvmBootstrap.Tree Program

inductive Answered.Writes : Answered → Prop
  | truncate (h : Handle) : Writes ⟨.truncate h, .ok ()⟩
  | write (h : Handle) (bytes : Bytes) (answer : Except Errno Unit) :
      Writes ⟨.write h bytes, answer⟩

theorem Answered.not_writes {c : Call} {answer : c.Answer} (htruncate : ∀ h, c ≠ .truncate h)
    (hwrite : ∀ h bytes, c ≠ .write h bytes) : ¬ (⟨c, answer⟩ : Answered).Writes := by
  intro hx
  cases hx with
  | truncate h => exact htruncate h rfl
  | write h bytes => exact hwrite h bytes rfl

namespace Together

variable {ι σ : Type} [DecidableEq ι] {o : Outside σ} {jobs : ι → Job}
  {s s' : Together ι σ} {r : Root} {w : World σ} {i j : ι} {x : Answered}
  {A B C H : List (ι × Answered)} {before after : List Answered}

/-! ### Histories -/

theorem mem_callsOf : x ∈ callsOf i H ↔ (i, x) ∈ H := by
  simp only [callsOf, List.mem_map, List.mem_filter, decide_eq_true_eq]
  constructor
  · rintro ⟨⟨j, y⟩, ⟨hmem, rfl⟩, rfl⟩
    exact hmem
  · exact fun hmem => ⟨(i, x), ⟨hmem, rfl⟩, rfl⟩

/-- Where the calls of a run are parted, all that was done can be parted. -/
theorem exists_split (h : callsOf i H = before ++ x :: after) :
    ∃ A B, H = A ++ (i, x) :: B ∧ callsOf i A = before ∧ callsOf i B = after := by
  rw [callsOf, List.map_eq_append_iff] at h
  obtain ⟨f₁, f₂, hf, rfl, h₂⟩ := h
  obtain ⟨⟨j, y⟩, f₃, rfl, hy, rfl⟩ := List.map_eq_cons_iff.mp h₂
  obtain ⟨A, B', rfl, rfl, hB⟩ := List.filter_eq_append_iff.mp hf
  obtain ⟨A', B, rfl, hA', hj, rfl⟩ := List.filter_eq_cons_iff.mp hB
  obtain rfl : j = i := by simpa using hj
  obtain rfl : y = x := hy
  refine ⟨A ++ A', B, (List.append_assoc ..).symm, ?_, rfl⟩
  rw [callsOf, List.filter_append, List.map_append,
    List.filter_eq_nil_iff.mpr hA', List.map_nil, List.append_nil]

/-- All that was done was done in some turn. -/
theorem exists_turn (hsteps : Steps o jobs (start r jobs w) s)
    (hH : s.history = A ++ (i, x) :: B) :
    ∃ s₁ s₂, Steps o jobs (start r jobs w) s₁ ∧ s₁.history = A ∧ Turn o jobs i x s₁ s₂ ∧
      Steps o jobs s₂ s := by
  induction hsteps generalizing B with
  | refl => exact absurd hH (by simp [start])
  | @tail s₁ s₂ hfirst ht ih =>
      obtain ⟨j, y, ht'⟩ := ht
      have hturn := ht'
      cases ht' with
      | turn hleft hp =>
          rcases List.eq_nil_or_concat B with rfl | ⟨B', e, rfl⟩
          · obtain ⟨hA, he⟩ := List.append_inj' hH rfl
            cases he
            exact ⟨s₁, _, hfirst, hA, hturn, .refl⟩
          · rw [List.concat_eq_append, ← List.cons_append, ← List.append_assoc] at hH
            obtain ⟨hA, -⟩ := List.append_inj' hH rfl
            obtain ⟨s₃, s₄, h₃, hA₃, ht₃, h₄⟩ := ih hA
            exact ⟨s₃, s₄, h₃, hA₃, ht₃, h₄.tail ⟨j, y, hturn⟩⟩

end Together

namespace Root

variable {ι σ : Type} {o : Outside σ} {r : Root} {w w' w₀ : World σ} {c : Call}
  {answer : c.Answer} {past : ι → List Answered} {top : Location} {id : FileId} {i j : ι}
  {x : Answered} {jobs : ι → Job} {cwd : Location} {h : Handle} {t : Tree} {b b₀ : Bytes}
  {H : List (ι × Answered)}

/-! ### What is in the lock file -/

/-- What is in the lock file after all that was done, if `b₀` was in it before. -/
inductive Written (b₀ : Bytes) : List (ι × Answered) → Bytes → Prop
  | start : Written b₀ [] b₀
  | other {H : List (ι × Answered)} {b : Bytes} (i : ι) {x : Answered} (hb : Written b₀ H b)
      (hx : ¬ x.Writes) : Written b₀ (H ++ [(i, x)]) b
  | truncate {H : List (ι × Answered)} {b : Bytes} (i : ι) (h : Handle) (hb : Written b₀ H b) :
      Written b₀ (H ++ [(i, ⟨.truncate h, .ok ()⟩)]) []
  | write {H : List (ι × Answered)} {b : Bytes} (i : ι) (h : Handle) (record : Holder)
      (answer : Except Errno Unit) (written : Nat) (hb : Written b₀ H b) :
      Written b₀ (H ++ [(i, ⟨.write h record.toBytes, answer⟩)]) (record.toBytes.take written)

theorem Written.of_none (hH : ∀ e ∈ H, ¬ e.2.Writes) : Written b₀ H b₀ := by
  induction H using List.reverseRecOn with
  | nil => exact .start
  | append_singleton H e ih =>
      exact .other e.1 (ih fun e he => hH e (List.mem_append_left _ he))
        (hH e (List.mem_append_right _ (List.mem_singleton.mpr rfl)))

/-- The last one to write. -/
theorem Written.last (hb : Written b₀ H b) :
    (b = b₀ ∧ ∀ e ∈ H, ¬ e.2.Writes) ∨ b = [] ∨
      ∃ A i h B written answer, ∃ record : Holder, H =
        A ++ (i, ⟨.write h record.toBytes, answer⟩) :: B ∧
        (∀ e ∈ B, ¬ e.2.Writes) ∧ b = record.toBytes.take written := by
  induction hb with
  | start => exact .inl ⟨rfl, fun _ => nofun⟩
  | @other H b i x hb hx ih =>
      have hlast : ∀ {B : List (ι × Answered)}, (∀ e ∈ B, ¬ e.2.Writes) →
          ∀ e ∈ B ++ [(i, x)], ¬ e.2.Writes := by
        intro B hB e he
        rcases List.mem_append.mp he with he | he
        · exact hB e he
        · exact List.mem_singleton.mp he ▸ hx
      rcases ih with ⟨hb, hH⟩ | hb | ⟨A, j, h, B, written, answer, record, rfl, hB, hb⟩
      · exact .inl ⟨hb, hlast hH⟩
      · exact .inr (.inl hb)
      · exact .inr
          (.inr ⟨A, j, h, B ++ [(i, x)], written, answer, record, by simp, hlast hB, hb⟩)
  | truncate i h hb ih => exact .inr (.inl rfl)
  | @write H b i h record answer written hb ih =>
      exact .inr (.inr ⟨H, i, h, [], written, answer, record, rfl, fun _ => nofun, rfl⟩)

/-- What has been read in the lock file is what is in it. -/
theorem LockAt.eq_of_readFile (hl : LockAt r cwd top id t)
    (hread : t.readFile cwd r.lock = .ok b) :
    b = t.content id := by
  obtain ⟨loc, hw⟩ := hl.found
  rw [Tree.readFile] at hread
  cases hlook : t.lookup cwd true r.lock with
  | error e =>
      rw [hlook] at hread
      contradiction
  | ok found =>
      obtain ⟨loc', n⟩ := found
      obtain ⟨-, hw'⟩ := lookup_eq_ok hlook
      rw [hw] at hw'
      obtain ⟨rfl, rfl⟩ := Spot.found.inj (Except.ok.inj hw')
      rw [hlook] at hread
      exact (Except.ok.inj hread).symm

/-- The record is written into a file that was emptied before, by a
handle that is still at its start. -/
theorem content_write {f : OpenFile} {bytes : Bytes} (hf : w.file? h = some f)
    (hoffset : f.offset = 0) (hlt : f.id < w.tree.bodies.length)
    (hempty : w.tree.content f.id = []) :
    (w.write h bytes).tree.content f.id = bytes := by
  rw [World.write, hf]
  dsimp only
  rw [content_setContent hlt, hoffset, hempty]
  simp [World.overwrite]

/-- What a turn does to what is in the lock file. -/
theorem Obeys.content (ho : SparesLock o r) (hw : Handled r id past w)
    (hl : LockAt r w.cwd top id w.tree)
    (hempty : ∀ h, Holds r (past j) h → ⟨.truncate h, .ok ()⟩ ∈ past j → Unwritten (past j) h →
      w.tree.content id = [])
    (hc : Obeys r (past j) w c) (hp : w.Performs o c answer w') :
    (¬ (⟨c, answer⟩ : Answered).Writes ∧ w'.tree.content id = w.tree.content id) ∨
      (∃ h, (⟨c, answer⟩ : Answered) = ⟨.truncate h, .ok ()⟩ ∧ Holds r (past j) h ∧
        w'.tree.content id = []) ∨
      ∃ h answer' written, ∃ record : Holder, (⟨c, answer⟩ : Answered) =
        ⟨.write h record.toBytes, answer'⟩ ∧
        Holds r (past j) h ∧ w'.tree.content id = record.toBytes.take written := by
  -- One case for each call that the rules allow. Only emptying and writing through a holder's
  -- handle change what the lock file holds.
  cases hc with
  | idle hc =>
      obtain ⟨-, rfl⟩ := hp.sure hc.not_mayFail
      refine .inl ⟨Answered.not_writes ?_ ?_, by rw [w.tree_of_isIdle o hc]⟩
      · rintro h rfl
        exact hc
      · rintro h bytes rfl
        exact hc
  | @way q hq =>
      obtain ⟨-, rfl⟩ := hp.sure not_false
      refine .inl ⟨Answered.not_writes (by simp) (by simp), ?_⟩
      cases happ : (Change.mkdir q).apply w.tree w.cwd with
      | error e => rw [World.perform_change_error happ]
      | ok t' =>
          rw [World.perform_change_ok happ]
          exact Since.content_mkdir happ
  | openFile hno =>
      obtain ⟨-, rfl⟩ := hp.sure not_false
      refine .inl ⟨Answered.not_writes (by simp) (by simp), ?_⟩
      rw [World.perform, World.openFile]
      cases hopen : w.tree.openFile w.cwd r.lock 0o666 with
      | error e => rfl
      | ok opened => exact @content_of_openFile _ opened.2 _ _ _ _ hopen id
  | @tryLock h hh =>
      refine .inl ⟨Answered.not_writes (by simp) (by simp), ?_⟩
      cases hp with
      | tryLock => rfl
      | done =>
          rw [World.perform]
          dsimp only
          rw [World.tryLock]
          repeat' split
          all_goals rfl
  | close hh =>
      obtain ⟨-, rfl⟩ := hp.sure not_false
      exact .inl ⟨Answered.not_writes (by simp) (by simp), rfl⟩
  | @truncate h hh hno =>
      obtain ⟨f, hf, rfl, -⟩ := hw.file j h hh.toOwns
      cases hp with
      | truncate e => exact .inl ⟨by rintro ⟨⟩, rfl⟩
      | done =>
          refine .inr (.inl ⟨h, rfl, hh, ?_⟩)
          rw [World.perform, World.truncate, hf]
          exact content_setContent_nil ..
  | @rewind h hh =>
      refine .inl ⟨Answered.not_writes (by simp) (by simp), ?_⟩
      cases hp with
      | rewind => rfl
      | done =>
          rw [World.perform, World.rewind]
          split <;> rfl
  | @write h record hh hno hemptied =>
      obtain ⟨f, hf, rfl, hoffset⟩ := hw.file j h hh.toOwns
      obtain ⟨written, rfl, -⟩ := hp.exists_write
      refine .inr (.inr ⟨h, answer, written, record, rfl, hh, ?_⟩)
      exact content_write hf (hoffset hno) hl.filled (hempty h hh hemptied hno)
  | @collect cmd | @stage cmd | @tool cmd =>
      obtain ⟨-, rfl⟩ := hp.sure not_false
      refine .inl ⟨Answered.not_writes (by simp) (by simp), ?_⟩
      rw [(perform_spawn o w _ cmd).2.1]
      exact (ho ⟨w.cwd, w.environ⟩ _ cmd w.tree w.outside top id hl).content
  | @effect ch h hh hleaves =>
      obtain ⟨-, rfl⟩ := hp.sure not_false
      refine .inl ⟨Answered.not_writes (by simp) (by simp), ?_⟩
      cases happ : ch.apply w.tree w.cwd with
      | error e => rw [World.perform_change_error happ]
      | ok t' =>
          rw [World.perform_change_ok happ]
          exact (hleaves top id t' hl happ).2

/-! ### The lock file and all that was done -/

/-- What is known of the lock file from what has been done, if `t₀` was the tree before. -/
inductive Ledger (r : Root) (cwd : Location) (t₀ : Tree) (past : ι → List Answered)
    (H : List (ι × Answered)) (w : World σ) : Prop
  | fresh (hno : ∀ i, ∀ x ∈ past i, ∀ h, ¬ x.Concerns r h) (hb : w.tree.bodies = t₀.bodies)
  | at_ (top : Location) (id : FileId) (hl : LockAt r cwd top id w.tree)
      (hwritten : Written (t₀.content id) H (w.tree.content id))
      (hlocked : ∀ i h, ⟨.truncate h, .ok ()⟩ ∈ past i →
        ⟨.openFile r.lock, .ok h⟩ ∈ past i ∧ ⟨.tryLock h, .ok true⟩ ∈ past i)
      (hemptied : ∀ i h, Owns r (past i) h → ⟨.truncate h, .ok ()⟩ ∈ past i →
        Unwritten (past i) h →
        w.tree.content id = [])

variable [DecidableEq ι] {s s' : Together ι σ} {t₀ : Tree}

/-- What concerns no handle writes nothing. -/
theorem not_writes_of_untouched
    (hno : ∀ i, ∀ x ∈ Together.callsOf i H, ∀ h, ¬ x.Concerns r h) :
    ∀ e ∈ H, ¬ e.2.Writes := by
  rintro ⟨i, x⟩ he hx
  have hx' := hno i x (Together.mem_callsOf.mpr he)
  cases hx with
  | truncate h => exact hx' h (.inl rfl)
  | write h => exact hx' h (.inl rfl)

theorem content_of_bodies (hb : w.tree.bodies = t₀.bodies) (id : FileId) :
    w.tree.content id = t₀.content id := by
  rw [Tree.content, Tree.content, Tree.body?, Tree.body?, hb]

/-- A turn before the lock file has been opened. -/
theorem Ledger.next_of_fresh (hno : ∀ i, ∀ x ∈ Together.callsOf i H, ∀ h, ¬ x.Concerns r h)
    (hf : r.Fresh cwd w.tree) (hb : w.tree.bodies = t₀.bodies)
    (hready : Shared o r cwd jobs w₀)
    (hc : Obeys r (Together.callsOf j H) (w.as (jobs j).process) c)
    (hp : (w.as (jobs j).process).Performs o c answer w') :
    Ledger r cwd t₀ (Handled.next (fun i => Together.callsOf i H) j ⟨c, answer⟩)
      (H ++ [(j, ⟨c, answer⟩)]) w' := by
  have hstart := hready.start j
  have hopened : ¬ HasOpened r (Together.callsOf j H) :=
    fun ⟨h, hmem⟩ => hno j _ hmem h (.inr rfl)
  rcases hc.fresh (w := w.as (jobs j).process) (hf.of_start hstart.symm) hopened hp with
    ⟨-, hx, -, hb'⟩ | ⟨top, id, t', hx, hl, hid, rfl⟩
  · refine .fresh (fun i y hy => ?_) (hb'.trans hb)
    rcases Handled.mem_next.mp hy with hy | ⟨-, rfl⟩
    · exact hno i y hy
    · exact hx
  · rw [hx]
    have hnone : ∀ {i h}, ⟨.truncate h, .ok ()⟩ ∉
        Handled.next (fun i => Together.callsOf i H) j
        ⟨.openFile r.lock, .ok w.nextHandle⟩ i := by
      intro i h hmem
      rcases Handled.mem_next.mp hmem with hmem | ⟨-, he⟩
      · exact hno i _ hmem h (.inl rfl)
      · exact nomatch congrArg Answered.call he
    refine .at_ top id (hl.of_start hstart) ?_ (fun i h hmem => absurd hmem hnone)
      fun i h _ hmem => absurd hmem hnone
    rw [show t'.content id = t₀.content id from hid.trans (content_of_bodies hb id)]
    exact .other j (.of_none (not_writes_of_untouched hno)) nofun

/-- A turn once the lock file has been opened. -/
theorem Ledger.next_of_at {past : ι → List Answered} (hw : Handled r id past w)
    (hl : LockAt r cwd top id w.tree)
    (hwritten : Written (t₀.content id) H (w.tree.content id))
    (hlocked : ∀ i h, ⟨.truncate h, .ok ()⟩ ∈ past i →
      ⟨.openFile r.lock, .ok h⟩ ∈ past i ∧ ⟨.tryLock h, .ok true⟩ ∈ past i)
    (hemptied : ∀ i h, Owns r (past i) h → ⟨.truncate h, .ok ()⟩ ∈ past i →
      Unwritten (past i) h →
      w.tree.content id = [])
    (hready : Shared o r cwd jobs w₀) (hc : Obeys r (past j) (w.as (jobs j).process) c)
    (hp : (w.as (jobs j).process).Performs o c answer w') :
    Ledger r cwd t₀ (Handled.next past j ⟨c, answer⟩) (H ++ [(j, ⟨c, answer⟩)]) w' := by
  have hstart := hready.start j
  have hl' : LockAt r (w.as (jobs j).process).cwd top id (w.as (jobs j).process).tree :=
    hl.of_start hstart.symm
  have hwas : Handled r id past (w.as (jobs j).process) :=
    ⟨hw.below, hw.apart, hw.once, hw.file, hw.lock⟩
  have hcontent := hc.content hready.spares hwas hl' (fun h hh => hemptied j h hh.toOwns) hp
  have hlock' := (Placed.lockAt_next hready hc hp hl).1
  have hlocked' : ∀ i h, ⟨.truncate h, .ok ()⟩ ∈ Handled.next past j ⟨c, answer⟩ i →
      ⟨.openFile r.lock, .ok h⟩ ∈ Handled.next past j ⟨c, answer⟩ i ∧
        ⟨.tryLock h, .ok true⟩ ∈ Handled.next past j ⟨c, answer⟩ i := by
    intro i h hmem
    have hboth : ⟨.openFile r.lock, .ok h⟩ ∈ past i ∧ ⟨.tryLock h, .ok true⟩ ∈ past i := by
      rcases Handled.mem_next.mp hmem with hmem | ⟨rfl, he⟩
      · exact hlocked i h hmem
      · cases he
        cases hc with
        | idle hc => exact hc.elim
        | truncate hh => exact ⟨hh.opened, hh.locked⟩
    exact ⟨Handled.mem_next.mpr (.inl hboth.1), Handled.mem_next.mpr (.inl hboth.2)⟩
  -- Who has emptied the file still has the lock, so that nobody else can have written since.
  have hsame : ∀ i h, Owns r (Handled.next past j ⟨c, answer⟩ i) h →
      ⟨.truncate h, .ok ()⟩ ∈ Handled.next past j ⟨c, answer⟩ i →
      Unwritten (Handled.next past j ⟨c, answer⟩ i) h → w'.tree.content id = [] := by
    intro i h hown hmem hno
    have hholds : ⟨.truncate h, .ok ()⟩ ∈ past i → Holds r (past i) h := fun hmem =>
      ⟨⟨(hlocked i h hmem).1, fun hclose => hown.open_ (Handled.mem_next.mpr (.inl hclose))⟩,
        (hlocked i h hmem).2⟩
    have hno' : Unwritten (past i) h := fun bytes answer' hmem =>
      hno bytes answer' (Handled.mem_next.mpr (.inl hmem))
    rcases hcontent with ⟨hx, hid⟩ | ⟨h', hx, hh', hid⟩ | ⟨h', answer', written,
      record, hx, hh', hid⟩
    · rcases Handled.mem_next.mp hmem with hmem | ⟨-, he⟩
      · exact hid.trans (hemptied i h (hholds hmem).toOwns hmem hno')
      · exact absurd (he ▸ .truncate h) hx
    · exact hid
    · rw [hx] at hmem hno
      rcases Handled.mem_next.mp hmem with hbefore | ⟨-, he⟩
      · have hh := hholds hbefore
        obtain rfl := hw.exclusive hh hh'
        obtain rfl := hw.once i h h' hh.opened hh'.opened
        exact absurd (Handled.mem_next.mpr (.inr ⟨rfl, rfl⟩)) (hno record.toBytes answer')
      · exact nomatch congrArg Answered.call he
  refine .at_ top id hlock' ?_ hlocked' hsame
  rcases hcontent with ⟨hx, hid⟩ | ⟨h, hx, -, hid⟩ | ⟨h, answer', written, record, hx, -, hid⟩
  · rw [hid]
    exact .other j hwritten hx
  · rw [hid, hx]
    exact .truncate j h hwritten
  · rw [hid, hx]
    exact .write j h record answer' written hwritten

theorem ledger_of_steps (hready : Shared o r cwd jobs w₀)
    (hsteps : Together.Steps o jobs (Together.start r jobs w₀) s) :
    Ledger r cwd w₀.tree s.past s.history s.world := by
  -- Turn by turn. The place of the lock file is fixed by the first job that opens it.
  induction hsteps with
  | refl => exact .fresh (fun _ => nofun) rfl
  | tail hfirst ht ih =>
      obtain ⟨j, x, ht⟩ := ht
      have hs := hready.joint.steps hready hfirst
      cases ht with
      | turn hleft hp =>
          have hc := (hs.obeys hready hleft).1
          rw [Together.past_concat]
          cases ih with
          | fresh hno hb =>
              cases hs.placed with
              | fresh hf _ _ => exact .next_of_fresh hno hf hb hready hc hp
              | at_ top id hl hw =>
                  have hcontent := content_of_bodies hb id
                  refine .next_of_at hw hl ?_
                    (fun i h hmem => absurd (.inl rfl) (hno i _ hmem h))
                    (fun i h _ hmem => absurd (.inl rfl) (hno i _ hmem h)) hready hc hp
                  rw [hcontent]
                  exact .of_none (not_writes_of_untouched hno)
          | at_ top id hl hwritten hlocked hemptied =>
              cases hs.placed with
              | fresh hf hno hfree =>
                  exact .next_of_at (.of_untouched hno (hfree id)) hl hwritten hlocked
                    hemptied hready hc hp
              | at_ top' id' hl' hw =>
                  obtain ⟨rfl, rfl⟩ := hl.unique hl'
                  exact .next_of_at hw hl hwritten hlocked hemptied hready hc hp

end Root

end LlvmBootstrap
