import LlvmBootstrap.Proofs.Root.SharedRun
import Mathlib.Logic.Function.Basic

/-!
The handles of a lock file that several runs have open. Each handle is of one run, all are
handles of one and the same file, and the lock of the file is with the run that took it and has
not closed it.
-/

namespace LlvmBootstrap

open LlvmBootstrap.Tree Program

/-- What was said to a call has to do with the handle `h`: the call was made by it, or it is a
new handle of the lock file. -/
def Answered.Concerns (r : Root) (x : Answered) (h : Handle) : Prop :=
  x.call.handle? = some h ∨ x = ⟨.openFile r.lock, .ok h⟩

theorem Answered.not_concerns {r : Root} {x : Answered} (hx : x.call.handle? = none)
    (hopen : ∀ h, x ≠ ⟨.openFile r.lock, .ok h⟩) (h : Handle) : ¬ x.Concerns r h := by
  rintro (hc | hc)
  · exact nomatch hx.symm.trans hc
  · exact hopen h hc

namespace Root

variable {ι σ : Type} {o : Outside σ} {r : Root} {past : ι → List Answered} {w w' : World σ}
  {before : List Answered} {c : Call} {h h' : Handle} {top : Location} {id : FileId}
  {x y : Answered} {i j : ι}

/-! ### What one call more makes of it -/

theorem owns_concat_iff (hopen : x ≠ ⟨.openFile r.lock, .ok h⟩) (hclose : x.call ≠ .close h) :
    Owns r (before ++ [x]) h ↔ Owns r before h := by
  refine ⟨fun hh => ⟨?_, fun hmem => hh.open_ (List.mem_append_left _ hmem)⟩,
    fun hh => hh.concat hclose⟩
  rcases List.mem_append.mp hh.opened with hmem | hmem
  · exact hmem
  · exact absurd (List.mem_singleton.mp hmem).symm hopen

theorem holds_concat_iff (hopen : x ≠ ⟨.openFile r.lock, .ok h⟩) (hclose : x.call ≠ .close h)
    (htake : x ≠ ⟨.tryLock h, .ok true⟩) : Holds r (before ++ [x]) h ↔ Holds r before h := by
  refine ⟨fun hh => ⟨(owns_concat_iff hopen hclose).mp hh.toOwns, ?_⟩,
    fun hh => hh.concat hclose⟩
  rcases List.mem_append.mp hh.locked with hmem | hmem
  · exact hmem
  · exact absurd (List.mem_singleton.mp hmem).symm htake

theorem not_owns_concat_close : ¬ Owns r (before ++ [⟨.close h, ()⟩]) h :=
  fun hh => hh.open_ (List.mem_append_right _ (List.mem_singleton.mpr rfl))

theorem Unwritten.of_concat (hu : Unwritten (before ++ [x]) h) :
    Unwritten before h ∧ ∀ bytes, x.call ≠ .write h bytes := by
  refine ⟨fun bytes answer hmem => hu bytes answer (List.mem_append_left _ hmem), ?_⟩
  obtain ⟨c, answer⟩ := x
  rintro bytes rfl
  exact hu bytes answer (List.mem_append_right _ (List.mem_singleton.mpr rfl))

/-! ### The handles of the lock file -/

/-- The runs that have made the calls `past` have the lock file `id` open by their own handles,
and its lock is where the calls say. -/
structure Handled (r : Root) (id : FileId) (past : ι → List Answered)
    (w : World σ) : Prop where
  below : ∀ i, ∀ x ∈ past i, ∀ h, x.Concerns r h → h < w.nextHandle
  apart : ∀ i j h, ⟨.openFile r.lock, .ok h⟩ ∈ past i →
    ⟨.openFile r.lock, .ok h⟩ ∈ past j → i = j
  once : ∀ i h h', ⟨.openFile r.lock, .ok h⟩ ∈ past i →
    ⟨.openFile r.lock, .ok h'⟩ ∈ past i → h = h'
  file : ∀ i h, Owns r (past i) h →
    ∃ f, w.file? h = some f ∧ f.id = id ∧ (Unwritten (past i) h → f.offset = 0)
  lock : ∀ h, w.locks.get? id = some h ↔ ∃ i, Holds r (past i) h

namespace Handled

/-- The lock is with one run at most. -/
theorem exclusive (hw : Handled r id past w) (hi : Holds r (past i) h)
    (hj : Holds r (past j) h') :
    i = j := by
  have hlock := (hw.lock h).mpr ⟨i, hi⟩
  have hlock' := (hw.lock h').mpr ⟨j, hj⟩
  obtain rfl : h = h' := Option.some.inj (hlock.symm.trans hlock')
  exact hw.apart i j h hi.opened hj.opened

/-- Nothing has been done to the lock file yet. -/
theorem of_untouched (hno : ∀ i, ∀ x ∈ past i, ∀ h, ¬ x.Concerns r h)
    (hfree : w.locks.get? id = none) :
    Handled r id past w where
  below i x hx h hc := absurd hc (hno i x hx h)
  apart i _ h hi _ := absurd (.inr rfl) (hno i _ hi h)
  once i h _ hi _ := absurd (.inr rfl) (hno i _ hi h)
  file i h hh := absurd (.inr rfl) (hno i _ hh.opened h)
  lock h := by
    rw [hfree]
    refine iff_of_false nofun ?_
    rintro ⟨i, hi⟩
    exact hno i _ hi.opened h (.inr rfl)

theorem lt_of_owns (hw : Handled r id past w) (hown : Owns r (past i) h) : h < w.nextHandle :=
  hw.below i _ hown.opened h (.inr rfl)

variable [DecidableEq ι]

abbrev next (past : ι → List Answered) (j : ι) (x : Answered) : ι → List Answered :=
  Function.update past j (past j ++ [x])

theorem mem_next : y ∈ next past j x i ↔ y ∈ past i ∨ (i = j ∧ y = x) := by
  by_cases hij : i = j
  · subst hij
    simp [next]
  · simp [next, hij]

theorem next_self : next past j x j = past j ++ [x] := Function.update_self ..

theorem next_of_ne (hij : i ≠ j) : next past j x i = past i := Function.update_of_ne hij ..

theorem opened_next_iff (hopen : ∀ h, x ≠ ⟨.openFile r.lock, .ok h⟩) :
    ⟨.openFile r.lock, .ok h⟩ ∈ next past j x i ↔ ⟨.openFile r.lock, .ok h⟩ ∈ past i := by
  rw [mem_next]
  exact ⟨fun hmem => hmem.resolve_right fun heq => hopen h heq.2.symm, .inl⟩

theorem owns_next_iff (hopen : x ≠ ⟨.openFile r.lock, .ok h⟩) (hclose : x.call ≠ .close h) :
    Owns r (next past j x i) h ↔ Owns r (past i) h := by
  by_cases hij : i = j
  · subst hij
    rw [next_self, owns_concat_iff hopen hclose]
  · rw [next_of_ne hij]

theorem holds_next_iff (hopen : x ≠ ⟨.openFile r.lock, .ok h⟩) (hclose : x.call ≠ .close h)
    (htake : x ≠ ⟨.tryLock h, .ok true⟩) :
    Holds r (next past j x i) h ↔ Holds r (past i) h := by
  by_cases hij : i = j
  · subst hij
    rw [next_self, holds_concat_iff hopen hclose htake]
  · rw [next_of_ne hij]

theorem unwritten_of_next (hu : Unwritten (next past j x i) h) : Unwritten (past i) h :=
  fun bytes answer hmem => hu bytes answer (mem_next.mpr (.inl hmem))

theorem below_next (hw : Handled r id past w) (hle : w.nextHandle ≤ w'.nextHandle)
    (hx : ∀ h, x.Concerns r h → h < w'.nextHandle) (i : ι) :
    ∀ y ∈ next past j x i, ∀ h, y.Concerns r h → h < w'.nextHandle := by
  intro y hy h hc
  rcases mem_next.mp hy with hy | ⟨-, rfl⟩
  · exact Nat.lt_of_lt_of_le (hw.below i y hy h hc) hle
  · exact hx h hc

theorem apart_next (hw : Handled r id past w)
    (hopen : ∀ h, x ≠ ⟨.openFile r.lock, .ok h⟩) (i i' : ι) (h : Handle)
    (hi : ⟨.openFile r.lock, .ok h⟩ ∈ next past j x i)
    (hi' : ⟨.openFile r.lock, .ok h⟩ ∈ next past j x i') : i = i' :=
  hw.apart i i' h ((opened_next_iff hopen).mp hi) ((opened_next_iff hopen).mp hi')

theorem once_next (hw : Handled r id past w)
    (hopen : ∀ h, x ≠ ⟨.openFile r.lock, .ok h⟩) (i : ι) (h h' : Handle)
    (hi : ⟨.openFile r.lock, .ok h⟩ ∈ next past j x i)
    (hi' : ⟨.openFile r.lock, .ok h'⟩ ∈ next past j x i) : h = h' :=
  hw.once i h h' ((opened_next_iff hopen).mp hi) ((opened_next_iff hopen).mp hi')

/-- A call that neither opens the lock file nor takes its lock nor closes it. -/
theorem turn (hw : Handled r id past w) (hopen : ∀ h, x ≠ ⟨.openFile r.lock, .ok h⟩)
    (htake : ∀ h, x ≠ ⟨.tryLock h, .ok true⟩) (hclose : ∀ h, x.call ≠ .close h)
    (hown : ∀ h, x.call.handle? = some h → Owns r (past j) h) (hlocks : w'.locks = w.locks)
    (hnext : w'.nextHandle = w.nextHandle)
    (hfile : ∀ h f, w.file? h = some f → ∃ f', w'.file? h = some f' ∧ f'.id = f.id ∧
      (f.offset = 0 → (∀ bytes, x.call ≠ .write h bytes) → f'.offset = 0)) :
    Handled r id (next past j x) w' := by
  refine ⟨hw.below_next (Nat.le_of_eq hnext.symm) ?_, hw.apart_next hopen, hw.once_next hopen,
    fun i h hh => ?_, fun h => ?_⟩
  · rintro h (hc | rfl)
    · rw [hnext]
      exact hw.lt_of_owns (hown h hc)
    · exact absurd rfl (hopen h)
  · have hh := (owns_next_iff (hopen h) (hclose h)).mp hh
    obtain ⟨f, hf, hid, hoffset⟩ := hw.file i h hh
    obtain ⟨f', hf', hid', hoffset'⟩ := hfile h f hf
    refine ⟨f', hf', hid'.trans hid,
      fun hu => hoffset' (hoffset (unwritten_of_next hu)) fun bytes hwrite => ?_⟩
    -- Whoever writes by the handle is the run that has it, and that
    -- one has written nothing by it.
    obtain rfl : i = j := hw.apart i j h hh.opened (hown h (hwrite ▸ rfl)).opened
    rw [next_self] at hu
    exact hu.of_concat.2 bytes hwrite
  · rw [hlocks, hw.lock]
    exact exists_congr fun i => (holds_next_iff (hopen h) (hclose h) (htake h)).symm

/-- The lock file is opened. -/
theorem opens (hw : Handled r id past w) (hno : ¬ HasOpened r (past j))
    (hx : x = ⟨.openFile r.lock, .ok w.nextHandle⟩) (hlocks : w'.locks = w.locks)
    (hnext : w'.nextHandle = w.nextHandle + 1) (hnew : w'.file? w.nextHandle = some ⟨id, 0⟩)
    (hfile : ∀ h, h ≠ w.nextHandle → w'.file? h = w.file? h) :
    Handled r id (next past j x) w' := by
  have hnone : ∀ {i y}, y ∈ past i → ¬ y.Concerns r w.nextHandle := fun hy hc =>
    absurd (hw.below _ _ hy _ hc) (Nat.lt_irrefl _)
  have hopen : ∀ {h}, h ≠ w.nextHandle → x ≠ ⟨.openFile r.lock, .ok h⟩ := by
    rintro h hne rfl
    exact hne (Except.ok.inj (eq_of_heq (Answered.mk.inj hx).2))
  -- The only handle that is new is this one, and it is of the job whose turn it is.
  have hopened : ∀ {i h}, ⟨.openFile r.lock, .ok h⟩ ∈ next past j x i →
      ⟨.openFile r.lock, .ok h⟩ ∈ past i ∨ (i = j ∧ h = w.nextHandle) := by
    intro i h hmem
    refine (mem_next.mp hmem).imp_right fun heq => ⟨heq.1, ?_⟩
    by_contra hne
    exact hopen hne heq.2.symm
  refine ⟨hw.below_next (hnext ▸ Nat.le_succ _) ?_, ?_, ?_, fun i h hh => ?_, fun h => ?_⟩
  · subst hx
    rintro h (hc | hc)
    · contradiction
    · cases hc
      exact hnext ▸ Nat.lt_succ_self _
  · intro i j' h hi hj
    rcases hopened hi with hold | ⟨hij, hnew'⟩
    · rcases hopened hj with hold' | ⟨-, rfl⟩
      · exact hw.apart i j' h hold hold'
      · exact absurd (.inr rfl) (hnone hold)
    · rcases hopened hj with hold' | ⟨hij', -⟩
      · exact absurd (.inr (by rw [hnew'])) (hnone hold')
      · exact hij.trans hij'.symm
  · intro i h h' hi hi'
    rcases hopened hi with hold | ⟨hij, hnew'⟩
    · rcases hopened hi' with hold' | ⟨hij', -⟩
      · exact hw.once i h h' hold hold'
      · exact absurd ⟨h, hij' ▸ hold⟩ hno
    · rcases hopened hi' with hold' | ⟨-, hnew''⟩
      · exact absurd ⟨h', hij ▸ hold'⟩ hno
      · exact hnew'.trans hnew''.symm
  · by_cases hh' : h = w.nextHandle
    · subst hh'
      exact ⟨_, hnew, rfl, fun _ => rfl⟩
    · rw [hfile h hh']
      obtain ⟨f, hf, hid, hoffset⟩ :=
        hw.file i h ((owns_next_iff (hopen hh') (by rw [hx]; nofun)).mp hh)
      exact ⟨f, hf, hid, fun hu => hoffset (unwritten_of_next hu)⟩
  · rw [hlocks, hw.lock]
    refine exists_congr fun i => ?_
    by_cases hh' : h = w.nextHandle
    · -- A handle that has not been given yet holds nothing.
      subst hh'
      refine iff_of_false
        (fun hh => absurd (hw.lt_of_owns hh.toOwns) (Nat.lt_irrefl _)) fun hh => ?_
      rcases mem_next.mp hh.locked with hmem | ⟨-, heq⟩
      · exact hnone hmem (.inl rfl)
      · exact nomatch congrArg Answered.call (heq.trans hx)
    · exact (holds_next_iff (hopen hh') (by rw [hx]; nofun) (by rw [hx]; nofun)).symm

/-- The lock is taken. -/
theorem takes (hw : Handled r id past w) (hown : Owns r (past j) h)
    (hgranted : (w.tryLock h).1 = true) :
    Handled r id (next past j ⟨.tryLock h, .ok true⟩) (w.tryLock h).2 := by
  obtain ⟨f, hf, rfl, hoffset⟩ := hw.file j h hown
  -- The lock was free or held by this very handle.
  have hlocks : ∀ h', (w.tryLock h).2.locks.get? f.id = some h' ↔
      h' = h ∨ w.locks.get? f.id = some h' := by
    intro h'
    rcases World.tryLock_of_granted hf hgranted with ⟨hfree, hworld⟩ | ⟨hlock, hworld⟩
    · simp [hworld, hfree, eq_comm]
    · simp [hworld, hlock, eq_comm]
  have hsame : (w.tryLock h).2.handles = w.handles ∧
      (w.tryLock h).2.nextHandle = w.nextHandle := by
    rcases World.tryLock_of_granted hf hgranted with ⟨-, hworld⟩ | ⟨-, hworld⟩ <;>
      rw [hworld] <;>
      exact ⟨rfl, rfl⟩
  have hopen : ∀ h', (⟨.tryLock h, .ok true⟩ : Answered) ≠ ⟨.openFile r.lock, .ok h'⟩ := by
    rintro _ ⟨⟩
  have howns : ∀ i h', Owns r (next past j ⟨.tryLock h, .ok true⟩ i) h' ↔ Owns r (past i) h' :=
    fun i h' => owns_next_iff (hopen h') (by simp)
  refine ⟨hw.below_next (Nat.le_of_eq hsame.2.symm) ?_, hw.apart_next hopen,
    hw.once_next hopen,
    fun i h' hh => ?_, fun h' => ?_⟩
  · rintro h' (hc | hc)
    · cases hc
      rw [hsame.2]
      exact hw.lt_of_owns hown
    · cases hc
  · obtain ⟨f', hf', hid', hoffset'⟩ := hw.file i h' ((howns i h').mp hh)
    exact ⟨f', by rw [World.file?, hsame.1]; exact hf', hid',
      fun hu => hoffset' (unwritten_of_next hu)⟩
  · rw [hlocks, hw.lock]
    constructor
    · rintro (rfl | ⟨i, hi⟩)
      · refine ⟨j, (howns j h').mpr hown, ?_⟩
        rw [next_self]
        exact List.mem_append_right _ (List.mem_singleton.mpr rfl)
      · exact ⟨i, (howns i h').mpr hi.toOwns, mem_next.mpr (.inl hi.locked)⟩
    · rintro ⟨i, hi⟩
      rcases mem_next.mp hi.locked with hmem | ⟨-, heq⟩
      · exact .inr ⟨i, (howns i h').mp hi.toOwns, hmem⟩
      · cases heq
        exact .inl rfl

/-- The lock file is closed. -/
theorem closes (hw : Handled r id past w) (hown : Owns r (past j) h) :
    Handled r id (next past j ⟨.close h, ()⟩) (w.close h) := by
  have hopen : ∀ h', (⟨.close h, ()⟩ : Answered) ≠ ⟨.openFile r.lock, .ok h'⟩ := nofun
  -- The handle is of the run that closes it, so no other run has it open.
  have howns : ∀ i h', Owns r (next past j ⟨.close h, ()⟩ i) h' ↔
      h' ≠ h ∧ Owns r (past i) h' := by
    intro i h'
    by_cases hh' : h' = h
    · subst hh'
      refine iff_of_false (fun hh => ?_) fun hh => hh.1 rfl
      obtain rfl : i = j := hw.apart i j h' ((opened_next_iff hopen).mp hh.opened) hown.opened
      rw [next_self] at hh
      exact not_owns_concat_close hh
    · rw [owns_next_iff (hopen h') fun he => hh' (Call.close.inj he).symm]
      exact (and_iff_right hh').symm
  refine ⟨hw.below_next (Nat.le_refl _) ?_, hw.apart_next hopen, hw.once_next hopen,
    fun i h' hh => ?_, fun h' => ?_⟩
  · rintro h' (hc | hc)
    · cases hc
      exact hw.lt_of_owns hown
    · cases hc
  · obtain ⟨hne, hh⟩ := (howns i h').mp hh
    obtain ⟨f, hf, hid, hoffset⟩ := hw.file i h' hh
    refine ⟨f, ?_, hid, fun hu => hoffset (unwritten_of_next hu)⟩
    rw [(w.byHandle_close h).others h' hne]
    exact hf
  · rw [World.close, SortedMap.get?_filter_eq_some_iff, hw.lock, decide_eq_true_eq]
    constructor
    · rintro ⟨⟨i, hi⟩, hne⟩
      exact ⟨i, (howns i h').mpr ⟨hne, hi.toOwns⟩, mem_next.mpr (.inl hi.locked)⟩
    · rintro ⟨i, hi⟩
      obtain ⟨hne, hh⟩ := (howns i h').mp hi.toOwns
      refine ⟨⟨i, hh, ?_⟩, hne⟩
      rcases mem_next.mp hi.locked with hmem | ⟨-, heq⟩
      · exact hmem
      · exact nomatch heq

/-- A call that has to do with no handle. -/
theorem same (hw : Handled r id past w) (hopen : ∀ h, x ≠ ⟨.openFile r.lock, .ok h⟩)
    (hx : x.call.handle? = none) (hs : World.SameHandles w w') :
    Handled r id (next past j x) w' := by
  refine hw.turn hopen ?_ ?_ ?_ hs.locks hs.nextHandle fun h f hf =>
    ⟨f, ?_, rfl, fun h0 _ => h0⟩
  · rintro h rfl
    contradiction
  · intro h hc
    rw [hc] at hx
    contradiction
  · intro h hc
    rw [hx] at hc
    contradiction
  · rw [World.file?, hs.handles]
    exact hf

/-- A call by a handle of the run, but none that takes the lock or closes the lock file. -/
theorem byHandle (hw : Handled r id past w) (hown : Owns r (past j) h)
    (hx : x.call.handle? = some h) (htake : x ≠ ⟨.tryLock h, .ok true⟩)
    (hclose : x.call ≠ .close h) (hb : World.ByHandle h w w') (hlocks : w'.locks = w.locks)
    (hfile : ∀ f, w.file? h = some f → ∃ f', w'.file? h = some f' ∧
      f'.id = f.id ∧ (f.offset = 0 → (∀ bytes, x.call ≠ .write h bytes) → f'.offset = 0)) :
    Handled r id (next past j x) w' := by
  have heq : ∀ {h'}, x.call.handle? = some h' → h' = h :=
    fun hx' => Option.some.inj (hx'.symm.trans hx)
  refine hw.turn ?_ ?_ ?_ ?_ hlocks hb.nextHandle fun h' f hf => ?_
  · rintro h' rfl
    contradiction
  · intro h' he
    have hh' : h' = h := heq (by rw [he]; rfl)
    exact htake (hh' ▸ he)
  · intro h' hc
    have hh' : h' = h := heq (by rw [hc]; rfl)
    exact hclose (hh' ▸ hc)
  · intro h' hc
    exact heq hc ▸ hown
  · by_cases hh' : h' = h
    · exact hh' ▸ hfile f (hh' ▸ hf)
    · exact ⟨f, (hb.others h' hh').trans hf, rfl, fun h0 _ => h0⟩

/-- A turn of the run `j`. -/
theorem obeys {answer : c.Answer} (hw : Handled r id past w)
    (hl : LockAt r w.cwd top id w.tree) (hc : Obeys r (past j) w c)
    (hp : w.Performs o c answer w') :
    Handled r id (next past j ⟨c, answer⟩) w' := by
  have hfree : c.handle? = none → (∀ p, c ≠ .openFile p) →
      Handled r id (next past j ⟨c, answer⟩) w' := by
    intro hnone hopen
    refine hw.same (fun h he => hopen r.lock (congrArg Answered.call he)) hnone ?_
    exact hp.sameHandles hnone hopen
  -- One case for each call that the rules allow. Only opening, locking
  -- and closing change who holds what.
  cases hc with
  | idle hc => cases c <;> first | exact hc.elim | exact hfree rfl (by simp)
  | way | collect | stage | tool | effect => exact hfree rfl (by simp)
  | openFile hno =>
      obtain ⟨rfl, rfl⟩ := hp.sure not_false
      rw [World.perform, World.openFile]
      cases hopen : w.tree.openFile w.cwd r.lock 0o666 with
      | error e => exact hw.same (by rintro _ ⟨⟩) rfl ⟨rfl, rfl, rfl⟩
      | ok opened =>
          obtain ⟨id', tree⟩ := opened
          obtain ⟨rfl, -⟩ := hl.openFile hopen
          refine hw.opens hno rfl rfl rfl (SortedMap.get?_insert_self ..) fun h hne => ?_
          exact SortedMap.get?_insert_of_ne _ _ hne
  | @tryLock h hh =>
      obtain ⟨f, hf, -⟩ := hw.file j h hh
      cases hp with
      | tryLock e =>
          exact hw.byHandle hh rfl (by rintro ⟨⟩) (by rintro ⟨⟩) (.refl ..) rfl fun f hf =>
            ⟨f, hf, rfl, fun h0 _ => h0⟩
      | done =>
          change Handled r id (next past j ⟨.tryLock h, .ok (w.tryLock h).1⟩) (w.tryLock h).2
          cases hg : (w.tryLock h).1 with
          | true => exact hw.takes hh hg
          | false =>
              obtain ⟨-, hworld⟩ := World.tryLock_of_refused hf hg
              rw [hworld]
              exact hw.byHandle hh rfl (by rintro ⟨⟩) (by rintro ⟨⟩) (.refl ..) rfl fun f hf =>
                ⟨f, hf, rfl, fun h0 _ => h0⟩
  | close hh =>
      obtain ⟨rfl, rfl⟩ := hp.sure not_false
      exact hw.closes hh
  | @truncate h hh =>
      refine hw.byHandle hh.toOwns rfl (by rintro ⟨⟩) (by rintro ⟨⟩) (hp.byHandle rfl)
        ?_ fun f hf => ⟨f, ?_, rfl, fun h0 _ => h0⟩
      all_goals cases hp with
        | done => rw [World.perform, World.truncate]; split <;> first | rfl | exact hf
        | truncate => first | rfl | exact hf
  | @rewind h hh =>
      obtain ⟨f₀, hf₀, -⟩ := hw.file j h hh.toOwns
      refine hw.byHandle hh.toOwns rfl (by rintro ⟨⟩) (by rintro ⟨⟩) (hp.byHandle rfl)
        ?_ fun f hf => ?_
      · cases hp with
        | done => rw [World.perform, World.rewind, hf₀]
        | rewind => rfl
      · cases hp with
        | done =>
            rw [World.perform, World.rewind, hf]
            exact ⟨_, SortedMap.get?_insert_self .., rfl, fun _ _ => rfl⟩
        | rewind => exact ⟨f, hf, rfl, fun h0 _ => h0⟩
  | @write h record hh =>
      obtain ⟨f₀, hf₀, -⟩ := hw.file j h hh.toOwns
      obtain ⟨written, rfl, -⟩ := hp.exists_write
      refine hw.byHandle hh.toOwns rfl (by rintro ⟨⟩) (by rintro ⟨⟩) (hp.byHandle rfl)
        ?_ fun f hf => ?_
      · rw [World.write, hf₀]
      · rw [World.write, hf]
        exact ⟨_, SortedMap.get?_insert_self .., rfl, fun _ hno => absurd rfl (hno _)⟩

end Handled

end Root

end LlvmBootstrap
