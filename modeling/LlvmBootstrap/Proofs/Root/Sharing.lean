import LlvmBootstrap.Proofs.Machine.Handles
import LlvmBootstrap.Proofs.Root.LockPlace
import LlvmBootstrap.Proofs.Root.Running

/-!
Runs that share a root. `Obeys` is what a run may do in its turn: it changes the files of the
root, or has them changed by the command of a stage, only while it holds the lock, and never so
that the lock file is removed or replaced. `Meanwhile` is what it can therefore count on while
it is the turn of others.
-/

namespace LlvmBootstrap

open LlvmBootstrap.Tree Program Sources

namespace Root

variable {σ : Type} {o : Outside σ} {r : Root} {past past' : List Answered}
  {w w' w'' w₀ : World σ} {c : Call} {h h' : Handle} {top : Location}
  {id : FileId} {t t' : Tree}

/-! ### What has gone before -/

structure Owns (r : Root) (past : List Answered) (h : Handle) : Prop where
  opened : ⟨.openFile r.lock, .ok h⟩ ∈ past
  open_ : ⟨.close h, ()⟩ ∉ past

structure Holds (r : Root) (past : List Answered) (h : Handle) :
    Prop extends Owns r past h where
  locked : ⟨.tryLock h, .ok true⟩ ∈ past

def Unwritten (past : List Answered) (h : Handle) : Prop :=
  ∀ bytes answer, ⟨.write h bytes, answer⟩ ∉ past

theorem Owns.concat {x : Answered} (hh : Owns r past h) (hx : x.call ≠ .close h) :
    Owns r (past ++ [x]) h := by
  refine ⟨List.mem_append_left _ hh.opened, fun hmem => ?_⟩
  rcases List.mem_append.mp hmem with hmem | hmem
  · exact hh.open_ hmem
  · exact hx (List.mem_singleton.mp hmem ▸ rfl)

theorem Holds.concat {x : Answered} (hh : Holds r past h) (hx : x.call ≠ .close h) :
    Holds r (past ++ [x]) h :=
  ⟨hh.toOwns.concat hx, List.mem_append_left _ hh.locked⟩

theorem Unwritten.concat {x : Answered} (hh : Unwritten past h)
    (hx : ∀ bytes, x.call ≠ .write h bytes) :
    Unwritten (past ++ [x]) h := by
  intro bytes answer hmem
  rcases List.mem_append.mp hmem with hmem | hmem
  · exact hh bytes answer hmem
  · exact hx bytes (List.mem_singleton.mp hmem ▸ rfl)

/-! ### What may be done -/

def SameStaging (o : Outside σ) (top : Location) (t t' : Tree) : Prop :=
  ∀ x, IsDrawn o x → ∀ rel, t'.node? (top ++ x :: rel) = t.node? (top ++ x :: rel)

/-- Neither the lock file is touched, nor what is on the way to it, nor a staging directory. -/
structure Spares (o : Outside σ) (r : Root) (cwd top : Location) (id : FileId) (t t' : Tree) :
    Prop where
  leaves : r.Leaves cwd t t'
  content : t'.content id = t.content id
  staging : SameStaging o top t t'

def SparesLock (o : Outside σ) (r : Root) : Prop :=
  ∀ caller output cmd t s top id, LockAt r caller.cwd top id t →
    Spares o r caller.cwd top id t (o.spawn caller output cmd t s).2.1

def HasOpened (r : Root) (past : List Answered) : Prop := ∃ h, ⟨.openFile r.lock, .ok h⟩ ∈ past

def Released (r : Root) (past : List Answered) : Prop := ∀ h, ¬ Owns r past h

/-- Calls that need no lock: to ask or say something, to make a directory on the way to the
root, or to run a command for its output alone. -/
inductive Free (r : Root) : Call → Prop
  | idle {c : Call} (hc : c.IsIdle) : Free r c
  | way {q : Path} (hq : q.IsOnWay r.path) : Free r (.change (.mkdir q))
  | collect (cmd : Command) : Free r (.spawn .collected cmd)

/-- Calls of a run that has given the lock back: it may also run a command
that is not run in a build tree. -/
inductive Unlocked (r : Root) : Call → Prop
  | free {c : Call} (hc : Free r c) : Unlocked r c
  | tool {cmd : Command} (hd : cmd.dir = none) : Unlocked r (.spawn .shared cmd)

/-- What a run may do in the world `w` and after the calls `past`. -/
inductive Obeys (r : Root) (past : List Answered) (w : World σ) : Call → Prop
  | idle {c : Call} (hc : c.IsIdle) : Obeys r past w c
  | way {q : Path} (hq : q.IsOnWay r.path) : Obeys r past w (.change (.mkdir q))
  | openFile (hno : ¬ HasOpened r past) : Obeys r past w (.openFile r.lock)
  | tryLock {h : Handle} (hh : Owns r past h) : Obeys r past w (.tryLock h)
  | close {h : Handle} (hh : Owns r past h) : Obeys r past w (.close h)
  | truncate {h : Handle} (hh : Holds r past h)
      (hno : Unwritten past h) : Obeys r past w (.truncate h)
  | rewind {h : Handle} (hh : Holds r past h)
      (hno : Unwritten past h) : Obeys r past w (.rewind h)
  /-- The record is written into the file, which is empty. -/
  | write {h : Handle} (record : Holder) (hh : Holds r past h) (hno : Unwritten past h)
      (hempty : ⟨.truncate h, .ok ()⟩ ∈ past) : Obeys r past w (.write h record.toBytes)
  | collect (cmd : Command) (hopen : HasOpened r past) : Obeys r past w (.spawn .collected cmd)
  | stage {cmd : Command} {h : Handle} (hd : cmd.dir ≠ none) (hh : Holds r past h) :
      Obeys r past w (.spawn .shared cmd)
  | tool {cmd : Command} (hopen : HasOpened r past) (hr : Released r past)
      (hd : cmd.dir = none) :
      Obeys r past w (.spawn .shared cmd)
  | effect {ch : Change} {h : Handle} (hh : Holds r past h)
      (hl : ∀ top id t', LockAt r w.cwd top id w.tree → ch.apply w.tree w.cwd = .ok t' →
        r.Leaves w.cwd w.tree t' ∧ t'.content id = w.tree.content id) :
      Obeys r past w (.change ch)

theorem Obeys.of_free (hc : Free r c) (hopen : HasOpened r past) : Obeys r past w c := by
  cases hc with
  | idle hc => exact .idle hc
  | way hq => exact .way hq
  | collect cmd => exact .collect cmd hopen

theorem Obeys.of_unlocked (hc : Unlocked r c) (hopen : HasOpened r past)
    (hr : Released r past) :
    Obeys r past w c := by
  cases hc with
  | free hc => exact .of_free hc hopen
  | tool hd => exact .tool hopen hr hd

theorem free_of_asks (hc : c.Asks) : Free r c := by
  cases hc with
  | collect cmd => exact .collect cmd
  | _ => exact .idle trivial

theorem Free.ne_openFile (hc : Free r c) (p : Path) : c ≠ .openFile p := by
  rintro rfl
  cases hc with
  | idle hc => exact hc

theorem Free.ne_close (hc : Free r c) (h : Handle) : c ≠ .close h := by
  rintro rfl
  cases hc with
  | idle hc => exact hc

theorem Unlocked.ne_openFile (hc : Unlocked r c) (p : Path) : c ≠ .openFile p := by
  rintro rfl
  cases hc with
  | free hc => exact hc.ne_openFile p rfl

/-- The lock file is not open yet and may be made, or it is there to stay. -/
def Sound (r : Root) (w : World σ) : Prop :=
  r.Fresh w.cwd w.tree ∨ ∃ top id, LockAt r w.cwd top id w.tree

/-- What others may have done to the world, as far as it is of account
to a run with the calls `past`. -/
structure Meanwhile (o : Outside σ) (r : Root) (past : List Answered)
    (w w' : World σ) : Prop where
  cwd : w'.cwd = w.cwd
  sound : r.Sound w'
  leaves : ∀ top id, LockAt r w.cwd top id w.tree → r.Leaves w.cwd w.tree w'.tree
  staging : ∀ top id h, LockAt r w.cwd top id w.tree → Holds r past h →
    SameStaging o top w.tree w'.tree

theorem Meanwhile.trans (h₁ : Meanwhile o r past w w') (h₂ : Meanwhile o r past w' w'') :
    Meanwhile o r past w w'' := by
  have hnext : ∀ {top id}, LockAt r w.cwd top id w.tree → LockAt r w'.cwd top id w'.tree :=
    fun hl => h₁.cwd ▸ hl.next (h₁.leaves _ _ hl)
  refine ⟨h₂.cwd.trans h₁.cwd, h₂.sound, fun top id hl => ?_,
    fun top id h hl hh x hx rel => ?_⟩
  · exact hl.leaves_trans (h₁.leaves _ _ hl) (h₁.cwd ▸ h₂.leaves _ _ (hnext hl))
  · exact (h₂.staging _ _ h (hnext hl) hh x hx rel).trans (h₁.staging _ _ h hl hh x hx rel)

/-! ### Turns -/

/-- A change that is refused, or leaves the lock file in its place. -/
theorem leaves_of_change {ch : Change} {answer : (Call.change ch).Answer}
    (hw : LockAt r w.cwd top id w.tree)
    (hl : ∀ t', ch.apply w.tree w.cwd = .ok t' → r.Leaves w.cwd w.tree t')
    (hp : w.Performs o (.change ch) answer w') : r.Leaves w.cwd w.tree w'.tree := by
  obtain ⟨-, rfl⟩ := hp.sure not_false
  cases happ : ch.apply w.tree w.cwd with
  | error e =>
      rw [World.perform_change_error happ]
      exact .refl hw.closed
  | ok t' =>
      rw [World.perform_change_ok happ]
      exact hl t' happ

/-- A call by a handle leaves the lock file in its place. -/
theorem leaves_of_byHandle (hw : LockAt r w.cwd top id w.tree) (hb : World.ByHandle h w w') :
    r.Leaves w.cwd w.tree w'.tree :=
  ⟨hw.closed.congr hb.nodes, fun loc _ => .inl (hb.nodes loc), Nat.le_of_eq hb.length.symm⟩

/-- Whatever a run may do leaves the lock file in its place. -/
theorem Obeys.leaves {answer : c.Answer} (ho : SparesLock o r)
    (hw : LockAt r w.cwd top id w.tree) (hc : Obeys r past w c)
    (hp : w.Performs o c answer w') : r.Leaves w.cwd w.tree w'.tree := by
  -- One case for each call that the rules allow. Handles do not move files, and the rest is
  -- spared by assumption or by what the rule asks.
  cases hc with
  | idle hc =>
      obtain ⟨-, rfl⟩ := hp.sure hc.not_mayFail
      rw [w.tree_of_isIdle o hc]
      exact .refl hw.closed
  | @way q hq =>
      have hmkdir : ∀ t', (Change.mkdir q).apply w.tree w.cwd = .ok t' →
          r.Leaves w.cwd w.tree t' :=
        fun t' happ => hw.mkdir (start_of_isOnWay hq) happ
      exact leaves_of_change hw hmkdir hp
  | openFile hno =>
      obtain ⟨-, rfl⟩ := hp.sure not_false
      rw [World.perform, World.openFile]
      cases hopen : w.tree.openFile w.cwd r.lock 0o666 with
      | error e => exact .refl hw.closed
      | ok opened =>
          obtain ⟨-, ht⟩ := hw.openFile hopen
          change r.Leaves w.cwd w.tree opened.2
          rw [ht]
          exact .refl hw.closed
  | tryLock hh => exact leaves_of_byHandle hw (hp.byHandle rfl)
  | close hh => exact leaves_of_byHandle hw (hp.byHandle rfl)
  | truncate hh hno => exact leaves_of_byHandle hw (hp.byHandle rfl)
  | rewind hh hno => exact leaves_of_byHandle hw (hp.byHandle rfl)
  | write record hh hno hempty => exact leaves_of_byHandle hw (hp.byHandle rfl)
  | @collect cmd | @stage cmd | @tool cmd =>
      obtain ⟨-, rfl⟩ := hp.sure not_false
      rw [(perform_spawn o w _ cmd).2.1]
      exact (ho ⟨w.cwd, w.environ⟩ _ cmd w.tree w.outside top id hw).leaves
  | effect hh hl => exact leaves_of_change hw (fun t' happ => (hl top id t' hw happ).1) hp

/-! ### A run that holds the lock -/

structure Working (r : Root) (top : Location) (id : FileId) (h : Handle) (past : List Answered)
    (w : World σ) : Prop where
  lockAt : LockAt r w.cwd top id w.tree
  holds : Holds r past h
  once : ∀ h', ⟨.openFile r.lock, .ok h'⟩ ∈ past → h' = h

structure Since (r : Root) (top : Location) (id : FileId) (h : Handle) (w₀ : World σ)
    (past : List Answered) (w : World σ) : Prop extends Working r top id h past w where
  cwd : w.cwd = w₀.cwd
  start : LockAt r w₀.cwd top id w₀.tree
  leaves : r.Leaves w₀.cwd w₀.tree w.tree

theorem Working.since (hw : Working r top id h past w) : Since r top id h w past w :=
  ⟨hw, rfl, hw.lockAt, .refl hw.lockAt.closed⟩

namespace Since

theorem next (hs : Since r top id h w₀ past w) (hcwd : w'.cwd = w.cwd)
    (hl : r.Leaves w.cwd w.tree w'.tree) (hh : Holds r past' h)
    (honce : ∀ h', ⟨.openFile r.lock, .ok h'⟩ ∈ past' → h' = h) :
    Since r top id h w₀ past' w' := by
  have hl' : r.Leaves w₀.cwd w.tree w'.tree := hs.cwd ▸ hl
  exact ⟨⟨hcwd ▸ hs.lockAt.next hl, hh, honce⟩, hcwd.trans hs.cwd, hs.start,
    hs.start.leaves_trans hs.leaves hl'⟩

theorem meanwhile (hs : Since r top id h w₀ past w) (hm : Meanwhile o r past w w') :
    Since r top id h w₀ past w' :=
  hs.next hm.cwd (hm.leaves top id hs.lockAt) hs.holds hs.once

theorem trans (hs : Since r top id h w₀ past w) (hs' : Since r top id h w past' w') :
    Since r top id h w₀ past' w' :=
  hs.next hs'.cwd hs'.leaves hs'.holds hs'.once

/-- A turn of the run itself. -/
theorem turn {answer : c.Answer} (hs : Since r top id h w₀ past w) (ho : SparesLock o r)
    (hc : Obeys r past w c) (hopen : c ≠ .openFile r.lock) (hclose : c ≠ .close h)
    (hp : w.Performs o c answer w') : Since r top id h w₀ (past ++ [⟨c, answer⟩]) w' := by
  refine hs.next hp.cwd (hc.leaves ho hs.lockAt hp) (hs.holds.concat hclose) fun h' hmem => ?_
  rcases List.mem_append.mp hmem with hmem | hmem
  · exact hs.once h' hmem
  · exact absurd (congrArg Answered.call (List.mem_singleton.mp hmem)).symm hopen

end Since

/-! ### Programs that are run while the lock is held -/

namespace Since

variable {α β ε : Type} {S : β → List Answered → World σ → Prop} {q : Program α} {p : Path}

theorem amid_call {f : c.Answer → Program β} (hs : Since r top id h w₀ past w)
    (ho : SparesLock o r) (hopen : c ≠ .openFile r.lock) (hclose : c ≠ .close h)
    (hc : ∀ w', Since r top id h w₀ past w' → Obeys r past w' c)
    (hf : ∀ answer w' w'', Since r top id h w₀ past w' → Meanwhile o r past w w' →
      w'.Performs o c answer w'' → Since r top id h w₀ (past ++ [⟨c, answer⟩]) w'' →
      (f answer).Amid o (Meanwhile o r) (Obeys r) S (past ++ [⟨c, answer⟩]) w'') :
    ((make c : Program c.Answer) >>= f).Amid o (Meanwhile o r) (Obeys r) S past w := by
  refine Amid.call_bind_iff.mpr fun w' hm => ?_
  have hs' := hs.meanwhile hm
  refine ⟨hc w' hs', fun answer w'' hp => ?_⟩
  exact hf answer w' w'' hs' hm hp (hs'.turn ho (hc w' hs') hopen hclose hp)

theorem amid_free {f : c.Answer → Program β} (hs : Since r top id h w₀ past w)
    (ho : SparesLock o r) (hc : Free r c)
    (hf : ∀ answer past' w', Since r top id h w₀ past' w' →
      (f answer).Amid o (Meanwhile o r) (Obeys r) S past' w') :
    ((make c : Program c.Answer) >>= f).Amid o (Meanwhile o r) (Obeys r) S past w :=
  hs.amid_call ho (hc.ne_openFile _) (hc.ne_close h)
    (fun _ _ => .of_free hc ⟨h, hs.holds.opened⟩) fun answer _ w'' _ _ _ hs'' =>
      hf answer _ w'' hs''

theorem amid_only (hs : Since r top id h w₀ past w) (ho : SparesLock o r)
    (hq : q.Only (Free r)) :
    q.Amid o (Meanwhile o r) (Obeys r)
      (fun _ past' w' => Since r top id h w₀ past' w') past w := by
  induction q generalizing past w with
  | done a => exact hs
  | call c next ih =>
      exact hs.amid_free ho hq.1 fun answer past' w' hs' =>
        ih answer hs' (hq.2 answer)

/-- A change, which is refused or made. -/
theorem amid_change {ch : Change} {f : Except Errno Unit → Program β}
    (hs : Since r top id h w₀ past w) (ho : SparesLock o r)
    (hl : ∀ w' t', Since r top id h w₀ past w' → Meanwhile o r past w w' →
      ch.apply w'.tree w'.cwd = .ok t' →
        r.Leaves w'.cwd w'.tree t' ∧ t'.content id = w'.tree.content id)
    (hok : ∀ w' t' past', Since r top id h w₀ past w' → Meanwhile o r past w w' →
      ch.apply w'.tree w'.cwd = .ok t' → Since r top id h w₀ past' { w' with tree := t' } →
      (f (.ok ())).Amid o (Meanwhile o r) (Obeys r) S past' { w' with tree := t' })
    (herr : ∀ e w' past', Meanwhile o r past w w' → ch.apply w'.tree w'.cwd = .error e →
      Since r top id h w₀ past' w' →
      (f (.error e)).Amid o (Meanwhile o r) (Obeys r) S past' w') :
    ((make (.change ch) : Program (Except Errno Unit)) >>= f).Amid o
      (Meanwhile o r) (Obeys r) S past w := by
  refine Amid.call_bind not_false fun w' hm => ?_
  have hs' := hs.meanwhile hm
  have hobeys : Obeys r past w' (.change ch) := by
    refine .effect hs.holds fun top' id' t' hw happ => ?_
    obtain ⟨rfl, rfl⟩ := hw.unique hs'.lockAt
    exact hl w' t' hs' hm happ
  have hturn := hs'.turn ho hobeys nofun nofun (.done _)
  refine ⟨hobeys, ?_⟩
  cases happ : ch.apply w'.tree w'.cwd with
  | error e =>
      rw [World.perform_change_error happ] at hturn ⊢
      exact herr e w' _ hm happ hturn
  | ok t' =>
      rw [World.perform_change_ok happ] at hturn ⊢
      exact hok w' t' _ hs' hm happ hturn

theorem amid_attempt_change {ch : Change} {f : Except Errno Unit → Attempt ε α}
    {S : Except ε α → List Answered → World σ → Prop} (hs : Since r top id h w₀ past w)
    (ho : SparesLock o r)
    (hl : ∀ w' t', Since r top id h w₀ past w' → Meanwhile o r past w w' →
      ch.apply w'.tree w'.cwd = .ok t' →
        r.Leaves w'.cwd w'.tree t' ∧ t'.content id = w'.tree.content id)
    (hok : ∀ w' t' past', Since r top id h w₀ past w' → Meanwhile o r past w w' →
      ch.apply w'.tree w'.cwd = .ok t' → Since r top id h w₀ past' { w' with tree := t' } →
      (f (.ok ())).run.Amid o (Meanwhile o r) (Obeys r) S past' { w' with tree := t' })
    (herr : ∀ e w' past', Meanwhile o r past w w' → ch.apply w'.tree w'.cwd = .error e →
      Since r top id h w₀ past' w' →
      (f (.error e)).run.Amid o (Meanwhile o r) (Obeys r) S past' w') :
    ((make (.change ch) : Attempt ε (Except Errno Unit)) >>= f).run.Amid o
      (Meanwhile o r) (Obeys r) S past w :=
  amid_change (f := fun answer => (f answer).run) hs ho hl hok herr

theorem amid_isDir (hs : Since r top id h w₀ past w) (ho : SparesLock o r) :
    (isDir p).Amid o (Meanwhile o r) (Obeys r) (fun found past' w' =>
      Since r top id h w₀ past' w' ∧ found = w'.tree.isDir w'.cwd p) past w := by
  refine Amid.call_bind not_false fun w' hm => ⟨.idle trivial, ?_⟩
  have hidle : Obeys r past w' (.look true p) := .idle trivial
  have hturn := (hs.meanwhile hm).turn ho hidle nofun nofun (.done _)
  rw [World.perform] at hturn ⊢
  rcases hlook : w'.tree.lookup w'.cwd true p with e | ⟨loc, _ | _ | _⟩ <;> rw [hlook] at hturn
  all_goals exact ⟨hturn, by rw [Tree.isDir, hlook]⟩

theorem content_mkdir {mode : Mode} (hok : t.mkdir w.cwd p mode = .ok t') :
    t'.content id = t.content id := by
  obtain ⟨-, -, -, rfl⟩ := mkdir_eq_ok hok
  rfl

theorem amid_unlessDir {K : World σ → Prop} {e : ε} (hs : Since r top id h w₀ past w)
    (ho : SparesLock o r)
    (hthere : ∀ past' w', Since r top id h w₀ past' w' →
      w'.tree.isDir w'.cwd p = true → K w') :
    (do if ← isDir p then return () else throw e : Attempt ε Unit).run.Amid o
      (Meanwhile o r) (Obeys r)
      (fun res past' w' => Since r top id h w₀ past' w' ∧ (res = .ok () → K w')) past w := by
  refine Amid.attempt_lift_bind (hs.amid_isDir ho) ?_
  rintro found past' w' ⟨hs', hfound⟩
  cases found with
  | true => exact ⟨hs', fun _ => hthere past' w' hs' hfound.symm⟩
  | false => exact ⟨hs', nofun⟩

/-- `K` holds when the directory `p` has just been made, and when it was there. -/
def Made (r : Root) (top : Location) (id : FileId) (h : Handle) (w₀ : World σ)
    (K : World σ → Prop) (p : Path) : Prop :=
  (∀ past' w' t', Since r top id h w₀ past' w' → w'.tree.mkdir w'.cwd p 0o777 = .ok t' →
    K { w' with tree := t' }) ∧
  ∀ past' w', Since r top id h w₀ past' w' → w'.tree.isDir w'.cwd p = true → K w'

theorem amid_mkdir_bind {K : World σ → Prop} {f : Except Errno Unit → Attempt Errno Unit}
    (hK : Made r top id h w₀ K p) (hs : Since r top id h w₀ past w) (ho : SparesLock o r)
    (hp : p.start w₀.cwd = r.lock.start w₀.cwd) (hok : f (.ok ()) = pure ())
    (herr : ∀ e past' w', Since r top id h w₀ past' w' →
      (f (.error e)).run.Amid o (Meanwhile o r) (Obeys r)
        (fun res past' w' => Since r top id h w₀ past' w' ∧ (res = .ok () → K w')) past' w') :
    ((make (.change (.mkdir p)) : Attempt Errno (Except Errno Unit)) >>= f).run.Amid o
      (Meanwhile o r) (Obeys r)
      (fun res past' w' => Since r top id h w₀ past' w' ∧ (res = .ok () → K w')) past w := by
  refine hs.amid_attempt_change ho ?_ ?_ ?_
  · intro w' t' hs' _ happ
    exact ⟨hs'.lockAt.mkdir (hs'.cwd ▸ hp) happ, content_mkdir happ⟩
  · intro w' t' past' hs' _ happ hs''
    rw [hok]
    exact ⟨hs'', fun _ => hK.1 past w' t' hs' happ⟩
  · exact fun e w' past' _ _ hs' => herr e past' w' hs'

theorem amid_makeDir {K : World σ → Prop} (hK : Made r top id h w₀ K p)
    (hs : Since r top id h w₀ past w) (ho : SparesLock o r)
    (hp : p.start w₀.cwd = r.lock.start w₀.cwd) :
    (makeDir p).run.Amid o (Meanwhile o r) (Obeys r)
      (fun res past' w' => Since r top id h w₀ past' w' ∧ (res = .ok () → K w')) past w := by
  rw [makeDir]
  exact hs.amid_mkdir_bind hK ho hp rfl fun e past' w' hs' => hs'.amid_unlessDir ho hK.2

theorem amid_makeDirsFrom {K : World σ → Prop} {above : List Path}
    (hK : Made r top id h w₀ K p) (hs : Since r top id h w₀ past w) (ho : SparesLock o r)
    (hp : ∀ q ∈ p :: above, q.start w₀.cwd = r.lock.start w₀.cwd) :
    (makeDirsFrom p above).run.Amid o (Meanwhile o r) (Obeys r)
      (fun res past' w' => Since r top id h w₀ past' w' ∧ (res = .ok () → K w')) past w := by
  induction above generalizing p past w K with
  | nil => exact hs.amid_makeDir hK ho (hp p (List.mem_cons_self ..))
  | cons parent above ih =>
      have hself := hp p (List.mem_cons_self ..)
      rw [makeDirsFrom]
      refine hs.amid_mkdir_bind hK ho hself rfl fun e past' w' hs' => ?_
      cases e with
      | notFound =>
          have hparent :=
            ih (K := fun _ => True) ⟨fun _ _ _ _ _ => trivial, fun _ _ _ _ => trivial⟩ hs'
            fun q hq => hp q (List.mem_cons_of_mem _ hq)
          refine Amid.attempt_bind hparent ?_ fun e past'' w'' hend => ⟨hend.1, by simp⟩
          exact fun _ past'' w'' hend => hend.1.amid_makeDir hK ho hself
      | _ => exact hs'.amid_unlessDir ho hK.2

/-- A path without components is taken to be there. -/
theorem amid_makeDirs {K : World σ → Prop} (hK : Made r top id h w₀ K p)
    (hne : p.components ≠ []) (hs : Since r top id h w₀ past w) (ho : SparesLock o r)
    (hp : ∀ q ∈ p :: ancestors p, q.start w₀.cwd = r.lock.start w₀.cwd) :
    (makeDirs p).run.Amid o (Meanwhile o r) (Obeys r)
      (fun res past' w' => Since r top id h w₀ past' w' ∧ (res = .ok () → K w')) past w := by
  rw [makeDirs, if_neg hne]
  exact hs.amid_makeDirsFrom hK ho hp

/-- Once the directory of a stage is made, which was missing, it is off the way. -/
theorem amid_makeMarker {s : Stage} (hs : Since r top id h w₀ past w) (ho : SparesLock o r)
    (hm : r.Missing w₀.cwd top s w₀.tree) :
    (makeDirs (r.marker s)).run.Amid o (Meanwhile o r) (Obeys r)
      (fun res past' w' => Since r top id h w₀ past' w' ∧
        (res = .ok () → r.Off w'.cwd w'.tree (top ++ [markerName s]))) past w := by
  have hstart : ∀ q : Path, q.IsOnWay (r.marker s) → q.start w₀.cwd = r.lock.start w₀.cwd := by
    intro q hq
    rw [← start_eq_of_extends (r.extends_marker s), Path.start_eq hq.isAbsolute_eq]
  refine hs.amid_makeDirs ⟨fun past' w' t' hs' hok => ?_, fun past' w' hs' hdir => ?_⟩ ?_ ho
    fun q hq => hstart q (isOnWay_of_mem hq)
  · obtain ⟨harrive, rfl⟩ :=
      (hs'.lockAt.reaches.belowEntry (r.extends_marker s)).eq_of_mkdir hok
    have hnone := (arrive_single_iff.mp harrive).2.2
    have hl := hs'.lockAt.mkdir (start_eq_of_extends (r.extends_marker s)) hok
    exact (hs'.lockAt.off_iff hl).mpr (hs'.lockAt.off_of_none hnone)
  · by_contra hoff
    have hmissing := hs'.start.missing_next hs'.leaves hm
    rw [← hs'.cwd] at hmissing
    rw [hmissing hoff] at hdir
    contradiction
  · exact Path.components_ne_nil ((r.extends_marker s).last (List.cons_ne_nil _ _)).2

end Since

end Root

end LlvmBootstrap
