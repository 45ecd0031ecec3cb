import LlvmBootstrap.Proofs.Root.FrameSteps
import LlvmBootstrap.Proofs.Tree.Ways

/-!
Where the lock file of a root is. Its path leads to one and the same file for as long as
nothing on the way to it is removed or replaced. So what a run changes matters only where the
way goes through it: what is vacant is not on the way, nor is a directory that the record of
the stages would have found.
-/

namespace LlvmBootstrap

open LlvmBootstrap.Tree

namespace Root

variable {r : Root} {cwd cwd' top top' m loc : Location} {id id' : FileId}
  {t t' : Tree} {s : Stage} {p q : Path} {n x : Name} {mode : Mode}

def lockWay (r : Root) (cwd : Location) (t : Tree) : List Location :=
  visits t maxLinks (r.lock.start cwd) (steps r.lock)

/-- No link that stands for an install directory is on the way to the lock file,
unless it leads to a directory. -/
def Firm (r : Root) (cwd : Location) (t : Tree) : Prop :=
  ∀ a top target, Reaches t cwd r.path top →
    t.node? (top ++ [markerName (.install a)]) = some (.link target) →
    top ++ [markerName (.install a)] ∈ r.lockWay cwd t → t.isDir cwd (r.install a) = true

structure LockAt (r : Root) (cwd top : Location) (id : FileId) (t : Tree) : Prop where
  closed : t.Closed
  start : ∃ mode, t.node? (r.lock.start cwd) = some (.dir mode)
  reaches : Reaches t cwd r.path top
  found : ∃ loc, t.walk true maxLinks (r.lock.start cwd) (steps r.lock) =
    .ok (.found loc (.file id))
  filled : id < t.bodies.length
  firm : r.Firm cwd t

/-- The tree before the lock file is opened for the first time,
however many directories are made. -/
structure Fresh (r : Root) (cwd : Location) (t : Tree) : Prop where
  closed : t.Closed
  start : ∃ mode, t.node? (r.lock.start cwd) = some (.dir mode)
  filled : t.Filled
  firm : ∀ t', NewDirs t t' → r.Firm cwd t'

/-- Nothing on the way to the lock file is removed or replaced, and no file is given up. -/
structure Leaves (r : Root) (cwd : Location) (t t' : Tree) : Prop where
  closed : t'.Closed
  way : ∀ loc ∈ r.lockWay cwd t, SameAt t t' loc
  length_le : t.bodies.length ≤ t'.bodies.length

/-- The way to the lock file goes neither through a place nor through what is below it. -/
def Off (r : Root) (cwd : Location) (t : Tree) (m : Location) : Prop :=
  ∀ loc ∈ r.lockWay cwd t, isWithin m loc = false

/-- The record has not found a stage, if the way to the lock file goes
through its directory. -/
def Missing (r : Root) (cwd top : Location) (s : Stage) (t : Tree) : Prop :=
  ¬ r.Off cwd t (top ++ [markerName s]) → t.isDir cwd (r.marker s) = false

theorem start_lock (r : Root) (cwd : Location) : r.lock.start cwd = r.path.start cwd :=
  Path.start_eq r.extends_lock.isAbsolute_eq cwd

theorem start_eq_of_extends (h : Path.Extends r.path [n] p) : p.start cwd = r.lock.start cwd :=
  (Path.start_eq h.isAbsolute_eq cwd).trans (start_lock r cwd).symm

theorem start_of_isOnWay (h : q.IsOnWay r.path) : q.start cwd = r.lock.start cwd :=
  (Path.start_eq h.isAbsolute_eq cwd).trans (start_lock r cwd).symm

theorem steps_of_extends (h : Path.Extends r.path [n] p) :
    steps p = r.path.moves ++ [.name n] := by
  rw [(h.last (List.cons_ne_nil _ _)).1, h.moves_eq]
  rfl

theorem Leaves.refl (hc : t.Closed) : r.Leaves cwd t t :=
  ⟨hc, fun loc _ => .refl t loc, Nat.le_refl _⟩

namespace LockAt

theorem present (h : LockAt r cwd top id t) : ∀ loc ∈ r.lockWay cwd t, t.node? loc ≠ none := by
  obtain ⟨loc, hw⟩ := h.found
  exact node?_of_mem_visits h.closed h.start hw

theorem exists_leads (h : LockAt r cwd top id t) :
    ∃ links, Leads t maxLinks (r.lock.start cwd) r.path.moves links top := by
  rw [start_lock]
  exact h.reaches.leads

theorem unique (h : LockAt r cwd top id t) (h' : LockAt r cwd top' id' t) :
    top = top' ∧ id = id' := by
  obtain ⟨loc, hw⟩ := h.found
  obtain ⟨loc', hw'⟩ := h'.found
  refine ⟨h.reaches.unique h'.reaches, ?_⟩
  rw [hw] at hw'
  exact Node.file.inj (Spot.found.inj (Except.ok.inj hw')).2

/-- Where the way goes through the entry of a stage, it goes all the way to its directory. -/
theorem visits_marker_subset (h : LockAt r cwd top id t)
    (hmem : top ++ [markerName s] ∈ r.lockWay cwd t) :
    visits t maxLinks ((r.marker s).start cwd) (steps (r.marker s)) ⊆ r.lockWay cwd t := by
  obtain ⟨links, hl⟩ := h.exists_leads
  obtain ⟨loc, hw⟩ := h.found
  rw [lockWay, steps_of_extends r.extends_lock] at hmem ⊢
  rw [steps_of_extends r.extends_lock] at hw
  rw [start_eq_of_extends (r.extends_marker s), steps_of_extends (r.extends_marker s)]
  exact visits_entry_subset h.closed h.start hl hw hmem

theorem isDir_marker_eq (h : LockAt r cwd top id t) (hl : r.Leaves cwd t t')
    (hmem : top ++ [markerName s] ∈ r.lockWay cwd t) :
    t'.isDir cwd (r.marker s) = t.isDir cwd (r.marker s) := by
  refine isDir_sameAt h.closed ?_ fun loc hloc => hl.way loc (h.visits_marker_subset hmem hloc)
  rw [start_eq_of_extends (r.extends_marker s)]
  exact h.start

theorem lockWay_eq (h : LockAt r cwd top id t) (hl : r.Leaves cwd t t') :
    r.lockWay cwd t' = r.lockWay cwd t :=
  (walk_sameAt hl.way h.start h.closed).2

theorem off_iff (h : LockAt r cwd top id t) (hl : r.Leaves cwd t t') :
    r.Off cwd t' m ↔ r.Off cwd t m := by
  rw [Off, Off, h.lockWay_eq hl]

theorem top_mem (h : LockAt r cwd top id t) : top ∈ r.lockWay cwd t := by
  obtain ⟨links, hl⟩ := h.exists_leads
  rw [lockWay, steps_of_extends r.extends_lock]
  exact hl.visits_subset (mem_visits_self ..)

/-- The lock file stays where it is. -/
theorem next (h : LockAt r cwd top id t) (hl : r.Leaves cwd t t') :
    LockAt r cwd top id t' := by
  obtain ⟨mode, hmode⟩ := h.start
  obtain ⟨links, hleads⟩ := h.exists_leads
  have hleads' : Leads t' maxLinks (r.lock.start cwd) r.path.moves links top := by
    have hway := hl.way
    rw [lockWay, steps_of_extends r.extends_lock] at hway
    exact hleads.sameAt hway
  have hreaches : Reaches t' cwd r.path top := by
    obtain ⟨mode, hmode⟩ := h.reaches.dir
    rw [start_lock] at hleads'
    exact ⟨⟨links, hleads'⟩, (hl.way _ h.top_mem).dir hmode⟩
  refine ⟨hl.closed, (hl.way _ (mem_visits_self ..)).dir hmode, hreaches, ?_,
    Nat.lt_of_lt_of_le h.filled hl.length_le, ?_⟩
  · obtain ⟨loc, hw⟩ := h.found
    rcases (walk_sameAt hl.way h.start h.closed).1 with heq | ⟨loc', mode, mode', hw', -⟩
    · exact ⟨loc, heq.trans hw⟩
    · rw [hw] at hw'
      simp at hw'
  · rintro a top' target hr hlink hmem
    obtain rfl := hr.unique hreaches
    rw [h.lockWay_eq hl] at hmem
    have hlink' := (hl.way _ hmem).symm.node?_eq hlink fun _ => nofun
    have hdir := h.firm a _ target h.reaches hlink' hmem
    exact (h.isDir_marker_eq (s := .install a) hl hmem).trans hdir

theorem leaves_trans {t'' : Tree} (h : LockAt r cwd top id t) (hl : r.Leaves cwd t t')
    (hl' : r.Leaves cwd t' t'') : r.Leaves cwd t t'' := by
  refine ⟨hl'.closed, fun loc hloc => (hl.way loc hloc).trans (hl'.way loc ?_),
    Nat.le_trans hl.length_le hl'.length_le⟩
  rwa [h.lockWay_eq hl]

theorem leaves_of_kept (h : LockAt r cwd top id t) (hc : t'.Closed)
    (hn : ∀ loc, t.node? loc ≠ none → t'.node? loc = t.node? loc) (hb : t'.bodies = t.bodies) :
    r.Leaves cwd t t' :=
  ⟨hc, fun loc hloc => .inl (hn loc (h.present loc hloc)), Nat.le_of_eq (by rw [hb])⟩

/-! ### Off the way -/

theorem off_of_none (h : LockAt r cwd top id t) (hn : t.node? m = none) : r.Off cwd t m := by
  intro loc hloc
  rw [← Bool.not_eq_true]
  intro hin
  obtain ⟨rel, rfl⟩ := isWithin_iff.mp hin
  by_cases hrel : rel = []
  · exact h.present _ hloc (by rw [hrel, List.append_nil, hn])
  · exact h.present _ hloc (h.closed.node?_below (by simp [hn]) hrel)

/-- The way goes through the entry of a stage that is missing only if
no directory stands there. -/
theorem off_or_mem (h : LockAt r cwd top id t) (hp : (r.marker s).refusal? = none)
    (hs : r.Missing cwd top s t) : r.Off cwd t (top ++ [markerName s]) ∨
      (top ++ [markerName s] ∈ r.lockWay cwd t ∧ t.isDir cwd (r.marker s) = false ∧
        ∀ mode, t.node? (top ++ [markerName s]) ≠ some (.dir mode)) := by
  by_cases hoff : r.Off cwd t (top ++ [markerName s])
  · exact .inl hoff
  · have hnot := hs hoff
    have hdir : ∀ mode, t.node? (top ++ [markerName s]) ≠ some (.dir mode) := fun mode hm => by
      have hentry := h.reaches.entry (r.extends_marker s) (length_markerName_le s) hm
      rw [hentry.isDir hp] at hnot
      contradiction
    refine .inr ⟨?_, hnot, hdir⟩
    obtain ⟨loc, hloc, hin⟩ : ∃ loc ∈ r.lockWay cwd t,
        isWithin (top ++ [markerName s]) loc = true := by
      simpa [Off] using hoff
    obtain ⟨rel, rfl⟩ := isWithin_iff.mp hin
    by_cases hrel : rel = []
    · rwa [hrel, List.append_nil] at hloc
    · exact absurd (h.closed.node?_below hdir hrel) (h.present _ hloc)

theorem missing_next (h : LockAt r cwd top id t) (hl : r.Leaves cwd t t')
    (hs : r.Missing cwd top s t) : r.Missing cwd top s t' := by
  intro hoff
  rw [h.off_iff hl] at hoff
  by_cases hp : (r.marker s).refusal? = none
  · obtain ⟨hmem, hnot, -⟩ := (h.off_or_mem hp hs).resolve_left hoff
    rw [h.isDir_marker_eq hl hmem, hnot]
  · rw [← Bool.not_eq_true, isDir_iff]
    exact fun hdir => hp hdir.1

/-! ### Changes that leave the lock file in its place -/

/-- Making a directory. -/
theorem mkdir (h : LockAt r cwd top id t) (hp : p.start cwd = r.lock.start cwd)
    (hok : t.mkdir cwd p mode = .ok t') : r.Leaves cwd t t' := by
  obtain ⟨hc, loc, hnone, rfl, -⟩ := Reaches.of_mkdir h.closed (hp ▸ h.start) hok
  refine h.leaves_of_kept hc (fun loc' hn => node?_put_of_ne _ _ ?_) rfl
  rintro rfl
  exact hn hnone

/-- Removing an entry of the root that is off the way. -/
theorem removeAll (h : LockAt r cwd top id t) (hp : Path.Extends r.path [n] p)
    (hoff : r.Off cwd t (top ++ [n])) (hok : t.removeAll cwd p = .ok t') :
    r.Leaves cwd t t' ∧ t'.bodies = t.bodies := by
  have hsame : ∀ u : Tree, u.Closed → u.bodies = t.bodies →
      (∀ loc, isWithin (top ++ [n]) loc = false → u.node? loc = t.node? loc) →
      r.Leaves cwd t u ∧ u.bodies = t.bodies := fun u hc hb hn =>
    ⟨⟨hc, fun loc hloc => .inl (hn loc (hoff loc hloc)), Nat.le_of_eq (by rw [hb])⟩, hb⟩
  rw [(h.reaches.belowEntry hp).removeAll] at hok
  cases ha : t.arrive top p [n] with
  | error e =>
      rw [ha] at hok
      contradiction
  | ok found =>
      rw [ha] at hok
      have hnode := node?_of_arrive (List.cons_ne_nil _ _) ha
      cases found with
      | none => contradiction
      | some node =>
          cases node with
          | file id => contradiction
          | dir mode =>
              obtain rfl := Except.ok.inj hok
              refine hsame _ (h.closed.prune (by simp)) rfl fun loc hloc => ?_
              rw [node?_prune _ (by simp), hloc, if_neg Bool.false_ne_true]
          | link target =>
              obtain rfl := Except.ok.inj hok
              have hne : ∀ loc, isWithin (top ++ [n]) loc = false → loc ≠ top ++ [n] := by
                rintro loc hloc rfl
                rw [isWithin_self] at hloc
                contradiction
              refine hsame _ ?_ rfl fun loc hloc => node?_remove_of_ne _ (hne loc hloc)
              -- Below a link there is nothing that could be left behind.
              intro dir x hx
              rw [node?_remove _ (by simp)] at hx ⊢
              split at hx
              · contradiction
              · obtain ⟨mode, hm⟩ := h.closed dir x hx
                refine ⟨mode, ?_⟩
                rw [if_neg, hm]
                rintro rfl
                rw [hnode] at hm
                simp at hm

/-- Removing what a stage has left that was missing. -/
theorem removeAll_install {a : Arch} (h : LockAt r cwd top id t)
    (hs : r.Missing cwd top (.install a) t) (hok : t.removeAll cwd (r.install a) = .ok t') :
    r.Leaves cwd t t' ∧ t'.bodies = t.bodies := by
  have hp : (r.install a).refusal? = none := by
    obtain ⟨_, _, hlook, -⟩ := removeAll_eq_ok hok
    exact (lookup_eq_ok hlook).1
  -- If the way to the lock file leads over the install directory, that is a
  -- link, and removing it is refused.
  rcases h.off_or_mem (s := .install a) hp hs with hoff | ⟨hmem, hnot, hdir⟩
  · exact h.removeAll (r.extends_marker (.install a)) hoff hok
  · have hbelow := h.reaches.belowEntry (r.extends_marker (.install a))
    rw [show r.install a = r.marker (.install a) from rfl, hbelow.removeAll] at hok
    cases ha : t.arrive top (r.marker (.install a)) [markerName (.install a)] with
    | error e =>
        rw [ha] at hok
        contradiction
    | ok found =>
        rw [ha] at hok
        have hnode := node?_of_arrive (List.cons_ne_nil _ _) ha
        cases found with
        | none => contradiction
        | some node =>
            cases node with
            | file id => contradiction
            | dir mode => exact absurd hnode (hdir mode)
            | link target =>
                have hyes := h.firm a top target h.reaches hnode hmem
                rw [show r.install a = r.marker (.install a) from rfl, hnot] at hyes
                contradiction

/-- Moving one entry of the root to another. -/
theorem renameDir (h : LockAt r cwd top id t) (hp : Path.Extends r.path [x] p)
    (hq : Path.Extends r.path [n] q) (hne : x ≠ n) (hoff : r.Off cwd t (top ++ [x]))
    (hs : r.Off cwd t (top ++ [n])) (ha : t.arrive top p [x] = .ok (some (.dir mode)))
    (hok : t.renameDir cwd p q = .ok t') : r.Leaves cwd t t' ∧ t'.bodies = t.bodies := by
  have hmoved : t' = t.move (top ++ [x]) (top ++ [n]) := by
    rw [(h.reaches.belowEntry hp).renameDir (h.reaches.belowEntry hq) hne ha] at hok
    split at hok
    · contradiction
    · exact (Except.ok.inj hok).symm
    · split at hok
      · exact (Except.ok.inj hok).symm
      · contradiction
    · contradiction
  -- A move is a removal followed by putting the same beside it, and neither is on the way.
  have hbeside : Beside top x (t.prune (top ++ [x])) t := by
    refine ⟨?_, fun loc hloc => ?_, fun _ _ hb => hb⟩
    · rw [node?_prune _ (by simp), isWithin_self, if_pos rfl]
    · rw [node?_prune _ (by simp), hloc, if_neg Bool.false_ne_true]
  have hpruned : (t.prune (top ++ [x])).Closed := h.closed.prune (by simp)
  have hplaced : Placed top x n (t.prune (top ++ [x])) t t' :=
    hmoved ▸ hbeside.placed_move hpruned
  have hc : t'.Closed := by
    refine hplaced.isClosed hpruned h.closed ?_
    rw [node?_prune _ (by simp), not_isWithin_entry, if_neg Bool.false_ne_true]
    exact h.reaches.dir
  refine ⟨⟨hc, fun loc hloc => .inl ?_, Nat.le_of_eq (by rw [hplaced.bodies])⟩, hplaced.bodies⟩
  rw [hplaced.nodes loc (hs loc hloc), node?_prune _ (by simp), hoff loc hloc,
    if_neg Bool.false_ne_true]

/-- Sources that were found missing are put in a place off the way, for what is on the way is
neither vacant nor a directory. -/
theorem renameDir_sources (h : LockAt r cwd top id t) (hp : Path.Extends r.path [x] p)
    (hne : x ≠ markerName .fetch) (hoff : r.Off cwd t (top ++ [x]))
    (hs : r.Missing cwd top .fetch t) (ha : t.arrive top p [x] = .ok (some (.dir mode)))
    (hok : t.renameDir cwd p r.sources = .ok t') :
    r.Leaves cwd t t' ∧ t'.bodies = t.bodies := by
  refine h.renameDir hp (r.extends_marker .fetch) hne hoff ?_ ha hok
  by_contra hnot
  have hrename := (h.reaches.belowEntry hp).renameDir
    (h.reaches.belowEntry (r.extends_marker .fetch)) hne ha
  rw [show t.renameDir cwd p (r.marker .fetch) = .ok t' from hok] at hrename
  cases hfound : t.arrive top (r.marker .fetch) [markerName .fetch] with
  | error e =>
      rw [hfound] at hrename
      contradiction
  | ok found =>
      obtain ⟨hnone, -, hnode⟩ := arrive_single_iff.mp hfound
      obtain ⟨hmem, -, hdir⟩ := (h.off_or_mem hnone hs).resolve_left hnot
      rw [hfound] at hrename
      rcases found with _ | (mode' | id' | target)
      · exact h.present _ hmem hnode
      · exact hdir mode' hnode
      · contradiction
      · contradiction

/-- Opening the lock file, which is there. -/
theorem openFile (h : LockAt r cwd top id t)
    (hok : t.openFile cwd r.lock mode = .ok (id', t')) :
    id' = id ∧ t' = t := by
  obtain ⟨loc, hw⟩ := h.found
  rcases openFile_eq_ok hok with ⟨loc', hw', ht⟩ | ⟨dir, n, hw', -⟩
  · rw [hw] at hw'
    exact ⟨(Node.file.inj (Spot.found.inj (Except.ok.inj hw')).2).symm, ht⟩
  · rw [hw] at hw'
    exact nomatch Except.ok.inj hw'

end LockAt

/-! ### Before the lock file is opened -/

theorem Fresh.mkdir (h : r.Fresh cwd t) (hp : p.start cwd = r.lock.start cwd)
    (hok : t.mkdir cwd p mode = .ok t') : r.Fresh cwd t' := by
  obtain ⟨hc, -⟩ := Reaches.of_mkdir h.closed (hp ▸ h.start) hok
  have hnew := newDirs_of_mkdir hok
  obtain ⟨mode, hmode⟩ := h.start
  exact ⟨hc, ⟨mode, hnew.node?_eq hmode⟩, filled_of_newDirs hnew h.filled,
    fun t'' hn => h.firm t'' (hnew.trans hn)⟩

theorem lt_of_file (h : t.Filled) (hn : t.node? loc = some (.file id)) :
    id < t.bodies.length := by
  obtain ⟨b, hb⟩ := h loc id hn
  exact (List.getElem?_eq_some_iff.mp hb).1

/-- A new lock file, at a place that was vacant. -/
theorem Fresh.lockAt_of_new {dir : Location} (h : r.Fresh cwd t)
    (hr : Reaches t cwd r.path top)
    (hw : t.walk true maxLinks (r.lock.start cwd) (steps r.lock) = .ok (.vacant dir n))
    (ht : t' = (t.addBody ⟨umasked mode, []⟩).2.put (dir ++ [n]) (.file t.bodies.length)) :
    LockAt r cwd top t.bodies.length t' := by
  have hnone := node?_of_walk_vacant hw
  have hsame : ∀ loc, loc ≠ dir ++ [n] → t'.node? loc = t.node? loc := fun loc hne => by
    rw [ht, node?_put_of_ne _ _ hne, node?_addBody]
  have hfile : t'.node? (dir ++ [n]) = some (.file t.bodies.length) := by
    rw [ht, node?_put_self _ _ (by simp)]
  have hroutes : RoutesKept t t' := .of_kept fun loc hn => hsame loc fun he => hn (he ▸ hnone)
  have hclosed : t'.Closed := by
    rw [ht]
    refine (h.closed.congr fun loc => node?_addBody ..).put ?_ ?_
    · simpa only [node?_addBody] using dir_of_walk_vacant h.closed hw h.start
    · rw [node?_addBody, hnone]
  -- The walk that ended where nothing stood ends at the new file, by way of the same places.
  obtain ⟨hw', hv⟩ := walk_filled hw hsame hfile
  obtain ⟨mode', hmode⟩ := h.start
  have hstart := hroutes.dirs _ _ hmode
  refine ⟨hclosed, hstart, hr.mono hroutes, ⟨_, hw'⟩, by simp [ht, addBody], ?_⟩
  rintro a top' target hr' hlink hmem
  obtain rfl := hr'.unique (hr.mono hroutes)
  have hne : top' ++ [markerName (.install a)] ≠ dir ++ [n] := by
    intro he
    rw [he, hfile] at hlink
    exact nomatch Option.some.inj hlink
  have hlink' := (hsame _ hne).symm.trans hlink
  have hmem' : top' ++ [markerName (.install a)] ∈ r.lockWay cwd t := by
    rwa [lockWay, hv] at hmem
  refine isDir_mono hroutes hclosed ?_ (h.firm t (.refl t) a top' target hr hlink' hmem')
  rw [show r.install a = r.marker (.install a) from rfl,
    start_eq_of_extends (r.extends_marker _)]
  exact hstart

/-- Opening the lock file, which is made if it is not there. -/
theorem Fresh.openFile (h : r.Fresh cwd t) (hok : t.openFile cwd r.lock mode = .ok (id, t')) :
    ∃ top, LockAt r cwd top id t' := by
  have hdir : ∃ mode, t.node? (r.path.start cwd) = some (.dir mode) :=
    r.start_lock cwd ▸ h.start
  have hroot : ∀ s, t.walk true maxLinks (r.lock.start cwd) (steps r.lock) = .ok s →
      ∃ top, Reaches t cwd r.path top := fun s hw => by
    rw [steps_of_extends r.extends_lock, start_lock] at hw
    obtain ⟨links, top, hl⟩ := Leads.of_walk_concat hw
    exact ⟨top, ⟨links, hl⟩, hl.dir_of_closed h.closed hdir⟩
  rcases openFile_eq_ok hok with ⟨loc, hw, rfl⟩ | ⟨dir, n, hw, rfl, ht⟩
  · obtain ⟨top, hr⟩ := hroot _ hw
    have hn := node?_of_walk_found h.closed hw h.start
    exact ⟨top, h.closed, h.start, hr, ⟨loc, hw⟩, lt_of_file h.filled hn, h.firm t' (.refl t')⟩
  · obtain ⟨top, hr⟩ := hroot _ hw
    exact ⟨top, h.lockAt_of_new hr hw ht⟩

/-! ### Other directories to start from -/

theorem Reaches.of_start (hs : p.start cwd = p.start cwd') (h : Reaches t cwd p top) :
    Reaches t cwd' p top :=
  ⟨hs ▸ h.leads, h.dir⟩

theorem start_path_eq (hs : r.lock.start cwd = r.lock.start cwd') :
    r.path.start cwd = r.path.start cwd' := by
  rwa [r.start_lock, r.start_lock] at hs

theorem lockWay_of_start (hs : r.lock.start cwd = r.lock.start cwd') :
    r.lockWay cwd t = r.lockWay cwd' t := by
  rw [lockWay, lockWay, hs]

theorem Firm.of_start (hs : r.lock.start cwd = r.lock.start cwd') (h : r.Firm cwd t) :
    r.Firm cwd' t := by
  intro a top target hr hlink hmem
  have hpath := start_path_eq hs.symm
  have hmarker : (r.marker (.install a)).start cwd' = (r.marker (.install a)).start cwd := by
    rw [start_eq_of_extends (r.extends_marker _), start_eq_of_extends (r.extends_marker _), hs]
  have hyes := h a top target (Reaches.of_start hpath hr) hlink (lockWay_of_start hs ▸ hmem)
  rw [isDir_iff] at hyes ⊢
  exact (hmarker ▸ hyes :)

theorem LockAt.of_start (hs : r.lock.start cwd = r.lock.start cwd')
    (h : LockAt r cwd top id t) :
    LockAt r cwd' top id t where
  closed := h.closed
  start := hs ▸ h.start
  reaches := Reaches.of_start (start_path_eq hs) h.reaches
  found := hs ▸ h.found
  filled := h.filled
  firm := h.firm.of_start hs

theorem Fresh.of_start (hs : r.lock.start cwd = r.lock.start cwd') (h : r.Fresh cwd t) :
    r.Fresh cwd' t where
  closed := h.closed
  start := hs ▸ h.start
  filled := h.filled
  firm t' hn := (h.firm t' hn).of_start hs

theorem Leaves.of_start (hs : r.lock.start cwd = r.lock.start cwd') (h : r.Leaves cwd t t') :
    r.Leaves cwd' t t' where
  closed := h.closed
  way := lockWay_of_start (t := t) hs ▸ h.way
  length_le := h.length_le

end Root

end LlvmBootstrap
