import LlvmBootstrap.Proofs.Archive.Elsewhere
import LlvmBootstrap.Proofs.Machine.MadeAgain
import LlvmBootstrap.Proofs.Root.Frame
import LlvmBootstrap.Proofs.Sources.Checks
import LlvmBootstrap.Proofs.Tree.SameOn

/-!
Two fetches that start from the same files. Their random names may differ, and so may the
states of the outside; if a server answers every request the same way, they come to the same
result and leave the same.
-/

namespace LlvmBootstrap

namespace Outside

variable {σ : Type} {o : Outside σ} {t t' : Tree} {top : Location} {n : Nat} {s : σ}

/-- A server answers a request the same way whenever it is sent. -/
def Serves (o : Outside σ) : Prop := ∀ url s s', (o.send url s).1 = (o.send url s').1

structure DrawsAlike (o : Outside σ) : Prop where
  plain : o.DrawsPlain
  text : ∀ s, 0 ∉ (o.draw s).1
  length_eq : ∀ s s', (o.draw s').1.length = (o.draw s).1.length

/-- One of the next `n` name parts that are drawn makes up the name of a staging
directory that is not there yet. -/
def FindsFree (o : Outside σ) (t : Tree) (top : Location) : Nat → σ → Prop
  | 0, _ => False
  | n + 1, s => t.node? (top ++ [Root.stagingName (o.draw s).1]) = none ∨
      FindsFree o t top n (o.draw s).2

theorem FindsFree.congr (h : FindsFree o t top n s)
    (hsame : ∀ s, t'.node? (top ++ [Root.stagingName (o.draw s).1]) =
      t.node? (top ++ [Root.stagingName (o.draw s).1])) : FindsFree o t' top n s := by
  induction n generalizing s with
  | zero => exact h
  | succ n ih => exact h.imp (fun hs => (hsame s).trans hs) ih

theorem DrawsAlike.interchange (h : o.DrawsAlike) (s s' : σ) :
    Path.Interchange (Root.stagingName (o.draw s).1) (Root.stagingName (o.draw s').1) where
  plain := Root.isPlain_stagingName (h.plain s)
  plain' := Root.isPlain_stagingName (h.plain s')
  length_eq := by
    rw [Root.stagingName, Root.stagingName, List.length_append, List.length_append,
      h.length_eq s s']
  text := by
    rw [Root.stagingName, List.mem_append, not_or]
    exact ⟨by decide, h.text s⟩
  text' := by
    rw [Root.stagingName, List.mem_append, not_or]
    exact ⟨by decide, h.text s'⟩

end Outside

structure Tree.Agrees (lock : Location) (t t' : Tree) : Prop where
  nodes : ∀ loc, t'.node? loc = t.node? loc
  bodies : ∀ loc id, loc ≠ lock → t.node? loc = some (.file id) → t'.body? id = t.body? id

theorem Tree.Agrees.sameOn {lock : Location} {t t' : Tree} (h : Agrees lock t t') :
    SameOn (· ≠ lock) t t' :=
  .of_nodes (fun loc _ => h.nodes loc) h.bodies

namespace Download

open Program

variable {σ : Type} {o : Outside σ} {w w' : World σ}

/-- What is downloaded is what the server says. -/
theorem download_eq (ho : o.Serves) (address : String) :
    ((download address).run.run o w).1 = ((download address).run.run o w').1 := by
  have honly : (download address).run.Throughout o
      (fun _ c => (∃ url, c = .send url) ∨ ∃ level text, c = .log level text)
      (fun _ _ => True) w :=
    (download_only (fun url => .inl ⟨url, rfl⟩) (fun level text => .inr ⟨level, text, rfl⟩)
      address).throughout (I := fun _ => True) (fun _ _ _ hc => ⟨hc, trivial⟩) trivial
  have hsame : ((download address).run.run o w).1 =
      ((download address).run.run o w').1 ∧ True := by
    refine honly.run_eq (R := fun _ _ => True) trivial fun c u u' hc _ => ⟨?_, trivial⟩
    rcases hc with ⟨url, rfl⟩ | ⟨level, text, rfl⟩
    · exact ho url _ _
    · rfl
  exact hsame.1

end Download

namespace Sources

open Archive LlvmBootstrap.Tree Program

variable {σ : Type} {o : Outside σ} {r : Root} {m w : World σ} {top : Location} {x x' : Name}

/-! ### The staging directory -/

def blocked? (r : Root) (x : Name) : Option Errno :=
  match (r.path / (⟨x⟩ : Path)).refusal? with
  | some e => some e
  | none => if maxName < x.length then some .nameTooLong else none

theorem blocked?_eq (hx : Path.Interchange x x') : blocked? r x' = blocked? r x := by
  have hrefusal := (Path.swapped_entry (r := r.path) hx rfl rfl).refusal_eq hx
  rw [blocked?, blocked?, hrefusal, hx.length_eq]

theorem blocked?_ne_exists : blocked? r x ≠ some .exists := by
  rw [blocked?, Path.refusal?]
  split_ifs <;> simp

theorem blocked?_eq_none_iff :
    blocked? r x = none ↔ (r.path / (⟨x⟩ : Path)).refusal? = none ∧ x.length ≤ maxName := by
  rw [blocked?]
  cases (r.path / (⟨x⟩ : Path)).refusal? with
  | some e => simp
  | none =>
      dsimp only
      split <;> simp <;> omega

theorem mkdir_entry {t : Tree} {cwd : Location} (hr : Reaches t cwd r.path top)
    (hx : Path.IsPlain x) :
    t.mkdir cwd (r.path / (⟨x⟩ : Path)) 0o777 = match blocked? r x, t.node? (top ++ [x]) with
      | some e, _ => .error e
      | none, some _ => .error .exists
      | none, none => .ok (t.put (top ++ [x]) (.dir (umasked 0o777))) := by
  rw [(hr.belowEntry ((Path.Extends.refl r.path).concat hx)).mkdir, arrive, blocked?]
  cases (r.path / (⟨x⟩ : Path)).refusal? with
  | some e => rfl
  | none =>
      dsimp only
      rw [descend]
      by_cases hlong : maxName < x.length
      · rw [if_pos hlong, if_pos hlong]
      · rw [if_neg hlong, if_neg hlong, if_pos rfl]
        cases t.node? (top ++ [x]) <;> rfl

/-- What making a staging directory comes to: its name is a drawn one, and whether it can be
made is told by the length of the name alone. -/
inductive Makes? (o : Outside σ) (r : Root) (m : World σ) (top : Location) :
    Except Errno Path → World σ → Prop
  | blocked {s : σ} {e : Errno} {w : World σ}
      (hblocked : blocked? r (Root.stagingName (o.draw s).1) = some e)
      (hw : m.Still w) : Makes? o r m top (.error e) w
  | made {s : σ} {w : World σ} (hfree : blocked? r (Root.stagingName (o.draw s).1) = none)
      (hvacant : m.tree.node? (top ++ [Root.stagingName (o.draw s).1]) = none)
      (htree : w.tree =
        m.tree.put (top ++ [Root.stagingName (o.draw s).1]) (.dir (umasked 0o777)))
      (hcwd : w.cwd = m.cwd) :
      Makes? o r m top (.ok (r.path / (⟨Root.stagingName (o.draw s).1⟩ : Path))) w

theorem makes?_makeStaging (hr : Reaches m.tree m.cwd r.path top)
    (hd : o.DrawsPlain) {tries : Nat} (hfree : o.FindsFree m.tree top tries w.outside)
    (hw : m.Still w) :
    Makes? o r m top ((makeStaging r tries).run.run o w).1
      ((makeStaging r tries).run.run o w).2 := by
  suffices h : (makeStaging r tries).run.Throughout o (fun _ _ => True) (Makes? o r m top) w
      from h.at_end
  -- Try by try: a name that is taken is passed over, and `hfree` says
  -- that one of those drawn is not.
  induction tries generalizing w with
  | zero => exact hfree.elim
  | succ tries ih =>
      rw [makeStaging]
      refine Throughout.attempt_call_bind_iff.mpr ⟨trivial, ?_⟩
      have hw' : m.Still (w.perform o .draw).2 := hw
      have hmkdir := mkdir_entry hr (Root.isPlain_stagingName (hd w.outside))
      have happ :
        (Change.mkdir (r.path / (⟨Root.stagingName (o.draw w.outside).1⟩ : Path))).apply
          (w.perform o .draw).2.tree (w.perform o .draw).2.cwd =
            m.tree.mkdir m.cwd
              (r.path / (⟨Root.stagingName (o.draw w.outside).1⟩ : Path)) 0o777 := by
        rw [Change.apply, hw'.1, hw'.2]
      rw [hmkdir] at happ
      cases hblocked : blocked? r (Root.stagingName (o.draw w.outside).1) with
      | some e =>
          rw [hblocked] at happ
          refine Throughout.attempt_change_bind (C := fun _ _ => True) trivial
            (fun t' hok => by cases happ.symm.trans hok) fun e' herr => ?_
          obtain rfl := Except.error.inj (happ.symm.trans herr)
          cases e with
          | «exists» => exact absurd hblocked blocked?_ne_exists
          | _ => exact .blocked hblocked hw'
      | none =>
          cases hnode : m.tree.node? (top ++ [Root.stagingName (o.draw w.outside).1]) with
          | none =>
              rw [hblocked, hnode] at happ
              refine Throughout.attempt_change_bind (C := fun _ _ => True) trivial
                (fun t' hok => ?_) fun e' herr => by cases happ.symm.trans herr
              exact .made hblocked hnode (Except.ok.inj (hok.symm.trans happ)) hw'.2
          | some n =>
              rw [hblocked, hnode] at happ
              refine Throughout.attempt_change_bind (C := fun _ _ => True) trivial
                (fun t' hok => by cases happ.symm.trans hok) fun e' herr => ?_
              obtain rfl := Except.error.inj (happ.symm.trans herr)
              refine ih (hfree.resolve_left fun hnone => ?_) hw'
              rw [hnode] at hnone
              contradiction

/-! ### Two staging directories -/

structure Twin (r : Root) (top lock : Location) (m m' : World σ) : Prop where
  sound : m.IsSound
  sound' : m'.IsSound
  filled : m.tree.Filled
  filled' : m'.tree.Filled
  cwd : m'.cwd = m.cwd
  agrees : Agrees lock m.tree m'.tree
  reaches : Reaches m.tree m.cwd r.path top

variable {lock : Location} {m' w' : World σ} {staging staging' : Path}

theorem Twin.reaches' (h : Twin r top lock m m') : Reaches m'.tree m'.cwd r.path top := by
  refine h.cwd ▸ h.reaches.mono ⟨fun loc mode hm => ⟨mode, ?_⟩, fun loc target ht => ?_⟩
  · rw [h.agrees.nodes, hm]
  · rw [h.agrees.nodes, ht]

theorem lt_of_filled {t : Tree} {loc : Location} {id : FileId} (h : t.Filled)
    (hn : t.node? loc = some (.file id)) : id < t.bodies.length := by
  obtain ⟨b, hb⟩ := h loc id hn
  exact (List.getElem?_eq_some_iff.mp hb).1

/-- Whether the sources can be put in place does not depend on the staging directory. -/
theorem renameDir_twice (h : Twin r top lock m m') (hs : IsStaging o r m top x staging)
    (hs' : IsStaging o r m' top x' staging') (hw : Staged m top x w)
    (hw' : Staged m' top x' w') :
    (∃ e, w.tree.renameDir w.cwd staging r.sources = .error e ∧
      w'.tree.renameDir w'.cwd staging' r.sources = .error e) ∨
    (w.tree.renameDir w.cwd staging r.sources =
        .ok (w.tree.move (top ++ [x]) (top ++ [Root.sourceName])) ∧
      w'.tree.renameDir w'.cwd staging' r.sources =
        .ok (w'.tree.move (top ++ [x']) (top ++ [Root.sourceName]))) := by
  have hne := hs.fresh.ne_source
  have hne' := hs'.fresh.ne_source
  have harrive : ∀ {y : Name} {p : Path} {m₀ u : World σ}, IsStaging o r m₀ top y p →
      Staged m₀ top y u →
      ∃ mode, u.tree.arrive top p [y] = .ok (some (.dir mode)) := fun hs hu => by
    obtain ⟨mode, hdir⟩ := hu.dir
    exact ⟨mode, arrive_single_iff.mpr ⟨hs.refusal, hs.short, hdir⟩⟩
  obtain ⟨mode, ha⟩ := harrive hs hw
  obtain ⟨mode', ha'⟩ := harrive hs' hw'
  rw [(hw.below h.sound h.reaches hs.named).renameDir
      (hw.below h.sound h.reaches r.extends_sources) hne.symm ha,
    (hw'.below h.sound' h.reaches' hs'.named).renameDir
      (hw'.below h.sound' h.reaches' r.extends_sources) hne'.symm ha']
  -- Neither staging directory is below the sources, where both trees are the same.
  have hnode : ∀ rel, w'.tree.node? (top ++ Root.sourceName :: rel) =
      w.tree.node? (top ++ Root.sourceName :: rel) := fun rel => by
    rw [hw'.beside.node?_other hne', hw.beside.node?_other hne, h.agrees.nodes]
  have hsame : w'.tree.arrive top r.sources [Root.sourceName] =
      w.tree.arrive top r.sources [Root.sourceName] := by
    simp only [arrive, descend, hnode []]
  have hvacant : w'.tree.isVacantBelow (top ++ [Root.sourceName]) =
      w.tree.isVacantBelow (top ++ [Root.sourceName]) := by
    rw [Bool.eq_iff_iff, isVacantBelow_iff, isVacantBelow_iff]
    simp only [List.append_assoc, List.singleton_append, hnode]
  rw [hsame, hvacant]
  rcases w.tree.arrive top r.sources [Root.sourceName] with e | (_ | _ | _ | _)
  · exact .inl ⟨e, rfl, rfl⟩
  · exact .inr ⟨rfl, rfl⟩
  · dsimp only
    split
    · exact .inr ⟨rfl, rfl⟩
    · exact .inl ⟨_, rfl, rfl⟩
  · exact .inl ⟨_, rfl, rfl⟩
  · exact .inl ⟨_, rfl, rfl⟩

variable {L : List Name → Path → Prop} {mode : Mode} {t t' u u' : Tree}

theorem shown_of_bodies (h : u.bodies = t.bodies) : u.shown = t.shown := by
  funext n
  cases n <;> simp only [Tree.shown, Tree.mode, content, body?, h]

/-- The sources are what stood in the staging directory. -/
theorem node?_placed (hp : Placed top x Root.sourceName m.tree t u) (rel : List Name) :
    u.node? (top ++ Root.sourceName :: rel) = t.node? (top ++ [x] ++ rel) := by
  rw [hp.entry, List.append_assoc]
  rfl

/-- What has been unpacked consists of new files. -/
theorem fresh_placed (halike : Confined L (top ++ [x]) (m.tree.put (top ++ [x]) (.dir mode)) t)
    (hp : Placed top x Root.sourceName m.tree t u) {rel : List Name} {id : FileId}
    (hn : u.node? (top ++ Root.sourceName :: rel) = some (.file id)) :
    rel ≠ [] ∧ t.node? (top ++ [x] ++ rel) = some (.file id) ∧ m.tree.bodies.length ≤ id := by
  rw [node?_placed hp] at hn
  have hne : rel ≠ [] := by
    rintro rfl
    rw [List.append_nil, halike.node?_top, node?_put_self _ _ (by simp)] at hn
    simp at hn
  exact ⟨hne, hn, (halike.fresh rel id hne hn).1⟩

theorem body?_placed (halike : Confined L (top ++ [x]) (m.tree.put (top ++ [x]) (.dir mode)) t)
    (hp : Placed top x Root.sourceName m.tree t u) {id : FileId}
    (hlt : id < m.tree.bodies.length) :
    u.body? id = m.tree.body? id := by
  rw [body?, hp.bodies]
  exact halike.bodies id hlt

/-- `m` with the sources, which are new files unless they were there
before. Nothing else differs. -/
structure Sourced (r : Root) (top : Location) (m w : World σ) : Prop where
  closed : w.tree.Closed
  filled : w.tree.Filled
  routes : RoutesKept m.tree w.tree
  nodes : ∀ loc, isWithin (top ++ [Root.sourceName]) loc = false →
    w.tree.node? loc = m.tree.node? loc
  bodies : ∀ id b, m.tree.body? id = some b → w.tree.body? id = some b
  fresh : ∀ loc id, isWithin (top ++ [Root.sourceName]) loc = true →
    w.tree.node? loc = some (.file id) →
    m.tree.node? loc = some (.file id) ∨ m.tree.bodies.length ≤ id
  entry : w.tree.node? (top ++ [Root.sourceName]) = m.tree.node? (top ++ [Root.sourceName]) ∨
    ∃ mode, w.tree.node? (top ++ [Root.sourceName]) = some (.dir mode)
  there : isFetched r w = true

theorem Sourced.of_still (hm : m.IsSound) (hfilled : m.tree.Filled) (h : isFetched r m = true)
    (hw : m.Still w) : Sourced r top m w where
  closed := hw.1 ▸ hm.closed
  filled := hw.1 ▸ hfilled
  routes := hw.1 ▸ .refl _
  nodes _ _ := by rw [hw.1]
  bodies _ _ hb := by rwa [hw.1]
  fresh _ _ _ hn := .inl (by rwa [hw.1] at hn)
  entry := .inl (by rw [hw.1])
  there := by rwa [isFetched, hw.1, hw.2]

theorem sourced_placed (hm : m.IsSound) (hfilled : m.tree.Filled)
    (hr : Reaches m.tree m.cwd r.path top) (ht : t.Closed)
    (hconfined : Confined L (top ++ [x]) (m.tree.put (top ++ [x]) (.dir mode)) t)
    (hplace : InPlace r m top x t w.tree) (hc : w.cwd = m.cwd) : Sourced r top m w := by
  have hp := hplace.placed
  have hwithin : ∀ loc id, isWithin (top ++ [Root.sourceName]) loc = true →
      w.tree.node? loc = some (.file id) →
      m.tree.bodies.length ≤ id ∧ id < t.bodies.length := by
    intro loc id hloc hn
    obtain ⟨rel, rfl⟩ := isWithin_iff.mp hloc
    rw [List.append_assoc, List.singleton_append] at hn
    obtain ⟨hne, hn', hle⟩ := fresh_placed hconfined hp hn
    exact ⟨hle, (hconfined.fresh rel id hne hn').2⟩
  have hbodies : ∀ id b, m.tree.body? id = some b →
      w.tree.body? id = some b := fun id b hb => by
    rw [body?_placed hconfined hp (List.getElem?_eq_some_iff.mp hb).1, hb]
  exact {
    closed := hp.isClosed hm.closed ht hr.dir
    filled := fun loc id hn => by
      cases hloc : isWithin (top ++ [Root.sourceName]) loc with
      | true =>
          rw [body?, hp.bodies]
          exact ⟨_, List.getElem?_eq_getElem (hwithin loc id hloc hn).2⟩
      | false =>
          rw [hp.nodes loc hloc] at hn
          exact (hfilled loc id hn).imp fun b => hbodies id b
    routes := hplace.routes
    nodes := hp.nodes
    bodies := hbodies
    fresh := fun loc id hloc hn => .inr (hwithin loc id hloc hn).1
    entry := .inr hplace.dir
    there := by rw [isFetched, hc, hplace.isDir] }

/-- No name outside the sources is a name of a file in them. -/
theorem not_oneFile_placed (hfilled : m.tree.Filled)
    (hconfined : Confined L (top ++ [x]) (m.tree.put (top ++ [x]) (.dir mode)) t)
    (hp : Placed top x Root.sourceName m.tree t u) {loc : Location} {rel : List Name}
    (hloc : isWithin (top ++ [Root.sourceName]) loc = false) :
    ¬ u.OneFile loc (top ++ Root.sourceName :: rel) := by
  rintro ⟨id, hn, hn'⟩
  rw [hp.nodes _ hloc] at hn
  exact absurd (lt_of_filled hfilled hn) (Nat.not_lt.mpr (fresh_placed hconfined hp hn').2.2)

/-- The directory of the sources itself is no name of a file. -/
theorem not_oneFile_top
    (hconfined : Confined L (top ++ [x]) (m.tree.put (top ++ [x]) (.dir mode)) t)
    (hp : Placed top x Root.sourceName m.tree t u) {loc : Location} :
    ¬ u.OneFile (top ++ [Root.sourceName]) loc := by
  rintro ⟨id, hn, -⟩
  exact (fresh_placed hconfined hp hn).1 rfl

theorem exists_of_isWithin {n : Name} {loc : Location} (h : isWithin (top ++ [n]) loc = true) :
    ∃ rel, loc = top ++ n :: rel := by
  obtain ⟨rel, rfl⟩ := isWithin_iff.mp h
  exact ⟨rel, by simp⟩

section Placed

variable (h : Twin r top lock m m')
  (halike : Alike L (top ++ [x]) (m.tree.put (top ++ [x]) (.dir mode)) t (top ++ [x'])
    (m'.tree.put (top ++ [x']) (.dir mode)) t')
  (hp : Placed top x Root.sourceName m.tree t u)
  (hp' : Placed top x' Root.sourceName m'.tree t' u')

include h hp hp'

theorem node?_outside {loc : Location}
    (hloc : isWithin (top ++ [Root.sourceName]) loc = false) :
    u'.node? loc = u.node? loc := by
  rw [hp'.nodes _ hloc, hp.nodes _ hloc, h.agrees.nodes]

include halike

/-- Outside the sources stands what stood there before, and it was the same. -/
theorem shown_outside {loc : Location} (hne : loc ≠ lock)
    (hloc : isWithin (top ++ [Root.sourceName]) loc = false) :
    (u.node? loc).map u.shown = (u'.node? loc).map u'.shown := by
  rw [node?_outside h hp hp' hloc]
  cases hn : u.node? loc with
  | none => rfl
  | some n =>
      cases n with
      | dir mode => rfl
      | link target => rfl
      | file id =>
          rw [hp.nodes _ hloc] at hn
          have hlt := lt_of_filled h.filled hn
          have hlt' := lt_of_filled h.filled' ((h.agrees.nodes loc).trans hn)
          simp only [Option.map_some, Tree.shown, Tree.mode, content,
            body?_placed halike.left hp hlt, body?_placed halike.right hp' hlt',
            h.agrees.bodies loc id hne hn]

omit h

/-- The sources show what has been unpacked, which looks the same. -/
theorem shown_within (rel : List Name) :
    (u.node? (top ++ Root.sourceName :: rel)).map u.shown =
      (u'.node? (top ++ Root.sourceName :: rel)).map u'.shown := by
  have hshown : u.shown = t.shown := shown_of_bodies hp.bodies
  have hshown' : u'.shown = t'.shown := shown_of_bodies hp'.bodies
  rw [node?_placed hp, node?_placed hp', hshown, hshown']
  by_cases hrel : rel = []
  · rw [hrel, List.append_nil, List.append_nil, halike.left.node?_top, halike.right.node?_top,
      node?_put_self _ _ (by simp), node?_put_self _ _ (by simp)]
    rfl
  · exact halike.sameBelow.shown rel hrel

theorem oneFile_within (rel rel' : List Name) :
    u.OneFile (top ++ Root.sourceName :: rel) (top ++ Root.sourceName :: rel') ↔
      u'.OneFile (top ++ Root.sourceName :: rel) (top ++ Root.sourceName :: rel') := by
  by_cases hrel : rel = []
  · subst hrel
    exact iff_of_false (not_oneFile_top halike.left hp) (not_oneFile_top halike.right hp')
  · by_cases hrel' : rel' = []
    · subst hrel'
      exact iff_of_false (fun hone => not_oneFile_top halike.left hp hone.symm)
        fun hone => not_oneFile_top halike.right hp' hone.symm
    · have hone := halike.sameBelow.oneFile rel rel' hrel hrel'
      rwa [OneFile, OneFile, ← node?_placed hp, ← node?_placed hp, ← node?_placed hp',
        ← node?_placed hp'] at hone

include h

/-- The sources that two fetches have put in place are the same, and so is all besides. -/
theorem sameOn_placed : SameOn (· ≠ lock) u u' := by
  -- The files of the sources are new, so none of them has a name elsewhere.
  have hcross : ∀ rel {loc}, isWithin (top ++ [Root.sourceName]) loc = false →
      (u.OneFile loc (top ++ Root.sourceName :: rel) ↔
        u'.OneFile loc (top ++ Root.sourceName :: rel)) :=
    fun rel _ hloc => iff_of_false (not_oneFile_placed h.filled halike.left hp hloc)
      (not_oneFile_placed h.filled' halike.right hp' hloc)
  constructor
  · intro loc hne
    cases hloc : isWithin (top ++ [Root.sourceName]) loc with
    | true =>
        obtain ⟨rel, rfl⟩ := exists_of_isWithin hloc
        exact shown_within halike hp hp' rel
    | false => exact shown_outside h halike hp hp' hne hloc
  · intro loc loc' _ _
    cases hloc : isWithin (top ++ [Root.sourceName]) loc with
    | true =>
        obtain ⟨rel, rfl⟩ := exists_of_isWithin hloc
        cases hloc' : isWithin (top ++ [Root.sourceName]) loc' with
        | true =>
            obtain ⟨rel', rfl⟩ := exists_of_isWithin hloc'
            exact oneFile_within halike hp hp' rel rel'
        | false =>
            exact ⟨fun hone => ((hcross rel hloc').mp hone.symm).symm,
              fun hone => ((hcross rel hloc').mpr hone.symm).symm⟩
    | false =>
        cases hloc' : isWithin (top ++ [Root.sourceName]) loc' with
        | true =>
            obtain ⟨rel', rfl⟩ := exists_of_isWithin hloc'
            exact hcross rel' hloc
        | false =>
            rw [OneFile, OneFile, node?_outside h hp hp' hloc, node?_outside h hp hp' hloc']

end Placed

inductive UnpackedTwice (r : Root) (top lock : Location) (x x' : Name) (m m' : World σ) :
    Except SourceError Fetched → World σ → World σ → Prop
  | failed {e : SourceError} {w w' : World σ} (hw : Staged m top x w)
      (hw' : Staged m' top x' w') :
      UnpackedTwice r top lock x x' m m' (.error e) w w'
  | placed {f : Fetched} {t t' : Tree} {w w' : World σ} (hw : InPlace r m top x t w.tree)
      (hw' : InPlace r m' top x' t' w'.tree) (hcwd : w.cwd = m.cwd) (hcwd' : w'.cwd = m'.cwd)
      (hsourced : Sourced r top m w) (hsourced' : Sourced r top m' w')
      (hsame : SameOn (· ≠ lock) w.tree w'.tree) :
      UnpackedTwice r top lock x x' m m' (.ok f) w w'

/-- Unpacking into both of them. -/
theorem extract_twice (file : Bytes) (format : Format) (root : String)
    (h : Twin r top lock m m') (hx : Path.Interchange x x')
    (hs : IsStaging o r m top x (r.path / (⟨x⟩ : Path)))
    (hs' : IsStaging o r m' top x' (r.path / (⟨x'⟩ : Path)))
    (ht : w.tree = m.tree.put (top ++ [x]) (.dir mode)) (hc : w.cwd = m.cwd)
    (ht' : w'.tree = m'.tree.put (top ++ [x']) (.dir mode)) (hc' : w'.cwd = m'.cwd) :
    ∃ res w₁ w₁', (extract file format root (r.path / (⟨x⟩ : Path))).run.run o w = (res, w₁) ∧
      (extract file format root (r.path / (⟨x'⟩ : Path))).run.run o w' = (res, w₁') ∧
      Staged m top x w₁ ∧ Staged m' top x' w₁' ∧
      Alike (fun _ _ => True) (top ++ [x]) (m.tree.put (top ++ [x]) (.dir mode)) w₁.tree
        (top ++ [x']) (m'.tree.put (top ++ [x']) (.dir mode)) w₁'.tree := by
  obtain ⟨hres, halike⟩ := unpack_elsewhere o o hx (Tar.read (format.stream file)) root
    (hasEmptyDir_staging h.sound h.reaches hs ht hc)
    (hasEmptyDir_staging h.sound' h.reaches' hs' ht' hc')
  rw [ht, ht'] at halike
  exact ⟨_, _, ((extract file format root (r.path / (⟨x'⟩ : Path))).run.run o w').2, rfl,
    Prod.ext hres.symm rfl,
    (throughout_extract file format root h.sound h.reaches hs ht hc).at_end,
    (throughout_extract file format root h.sound' h.reaches' hs' ht' hc').at_end, halike⟩

theorem run_place_error {a : SourceArchive} {n : Nat} {e : Errno} (hpos : 0 < n)
    (h : w.tree.renameDir w.cwd staging r.sources = .error e) :
    (place a r staging n).run.run o w = (.error (.failed (.system e)), w) := by
  rw [run_place_pos hpos]
  exact run_bind_error
    (run_orFail_error (run_change_error (c := .renameDir staging r.sources) h)) _

theorem run_place_ok {a : SourceArchive} {n : Nat} {t : Tree} (hpos : 0 < n)
    (h : w.tree.renameDir w.cwd staging r.sources = .ok t) :
    (place a r staging n).run.run o w = (.ok (.unpacked n),
      ({ w with tree := t }.perform o (.log .info "sources ready")).2) := by
  rw [run_place_pos hpos]
  exact run_bind_ok (run_orFail_ok (run_change_ok (c := .renameDir staging r.sources) h)) _

theorem unpackSources_twice (a : SourceArchive) (format : Format) (file : Bytes)
    (h : Twin r top lock m m') (hx : Path.Interchange x x')
    (hs : IsStaging o r m top x (r.path / (⟨x⟩ : Path)))
    (hs' : IsStaging o r m' top x' (r.path / (⟨x'⟩ : Path)))
    (ht : w.tree = m.tree.put (top ++ [x]) (.dir mode)) (hc : w.cwd = m.cwd)
    (ht' : w'.tree = m'.tree.put (top ++ [x']) (.dir mode)) (hc' : w'.cwd = m'.cwd) :
    ∃ res w₁ w₁', (unpackSources a r format file (r.path / (⟨x⟩ : Path))).run.run o w =
      (res, w₁) ∧
      (unpackSources a r format file (r.path / (⟨x'⟩ : Path))).run.run o w' = (res, w₁') ∧
      UnpackedTwice r top lock x x' m m' res w₁ w₁' := by
  obtain ⟨res, w₂, w₂', hrun, hrun', hstaged, hstaged', halike⟩ :=
    extract_twice file format a.top h hx hs hs' (show (told o w).tree = _ from ht)
      (show (told o w).cwd = _ from hc) (show (told o w').tree = _ from ht')
      (show (told o w').cwd = _ from hc')
  rw [run_unpackSources, run_unpackSources]
  cases res with
  | error e =>
      rw [run_bind_error hrun, run_bind_error hrun']
      exact ⟨_, _, _, rfl, rfl, .failed hstaged hstaged'⟩
  | ok entries =>
      rw [run_bind_ok hrun, run_bind_ok hrun']
      rcases Nat.eq_zero_or_pos entries with rfl | hpos
      · exact ⟨_, _, _, rfl, rfl, .failed hstaged hstaged'⟩
      rcases renameDir_twice h hs hs' hstaged hstaged' with
        ⟨e, hmove, hmove'⟩ | ⟨hmove, hmove'⟩
      · rw [run_place_error hpos hmove, run_place_error hpos hmove']
        exact ⟨_, _, _, rfl, rfl, .failed hstaged hstaged'⟩
      · have hplace := renameDir_staging h.sound h.reaches hs hstaged hmove
        have hplace' := renameDir_staging h.sound' h.reaches' hs' hstaged' hmove'
        rw [run_place_ok hpos hmove, run_place_ok hpos hmove']
        refine ⟨_, _, _, rfl, rfl, .placed hplace hplace' hstaged.cwd hstaged'.cwd ?_ ?_
          (sameOn_placed h halike hplace.placed hplace'.placed)⟩
        · exact sourced_placed h.sound h.filled h.reaches hstaged.closed halike.left
            hplace hstaged.cwd
        · exact sourced_placed h.sound' h.filled' h.reaches' hstaged'.closed halike.right
            hplace' hstaged'.cwd

/-! ### Two fetches -/

/-- What two fetches come to that start from the same files: if they fail, there is nothing
more than there was, and if they do not, all is the same but for the file at `lock`. -/
inductive FetchedTwice (r : Root) (top lock : Location) (m m' : World σ) :
    Except SourceError Fetched → World σ → World σ → Prop
  | failed {e : SourceError} {w w' : World σ} (hkept : Kept m.tree w.tree)
      (hkept' : Kept m'.tree w'.tree) :
      FetchedTwice r top lock m m' (.error e) w w'
  | done {f : Fetched} {w w' : World σ} (hsourced : Sourced r top m w)
      (hsourced' : Sourced r top m' w')
      (hsame : SameOn (· ≠ lock) w.tree w'.tree) : FetchedTwice r top lock m m' (.ok f) w w'

theorem isStaging_of_free {s : σ} (hd : o.DrawsPlain)
    (hfree : blocked? r (Root.stagingName (o.draw s).1) = none)
    (hvacant : m.tree.node? (top ++ [Root.stagingName (o.draw s).1]) = none) :
    IsStaging o r m top (Root.stagingName (o.draw s).1)
      (r.path / (⟨Root.stagingName (o.draw s).1⟩ : Path)) where
  fresh := isDrawn_stagingName hd s
  named := (Path.Extends.refl r.path).concat (Root.isPlain_stagingName (hd s))
  refusal := (blocked?_eq_none_iff.mp hfree).1
  short := (blocked?_eq_none_iff.mp hfree).2
  vacant := hvacant

/-- Whatever work in a staging directory comes to, the directory is removed. -/
theorem run_withStaging_made {α : Type} {work : Path → Attempt SourceError α} {d s x : World σ}
    {res : Except SourceError α} (h : (makeStaging r maxTries).run.run o d = (.ok staging, s))
    (hwork : (work staging).run.run o s = (res, x)) :
    (withStaging r work).run.run o d =
      (res, (x.perform o (.change (.removeAll staging))).2) := by
  rw [withStaging, run_bind_ok (run_orFail_ok h)]
  change ((work staging).run >>= fun result => _).run o s = _
  rw [run_bind, hwork]
  rfl

theorem withStaging_twice (a : SourceArchive) (format : Format) (file : Bytes)
    (h : Twin r top lock m m') (hd : o.DrawsAlike)
    (hfree : ∀ s, o.FindsFree m.tree top maxTries s) (hw : m.Still w) (hw' : m'.Still w') :
    ∃ res w₁ w₁', (withStaging r (unpackSources a r format file)).run.run o w = (res, w₁) ∧
      (withStaging r (unpackSources a r format file)).run.run o w' = (res, w₁') ∧
      FetchedTwice r top lock m m' res w₁ w₁' := by
  have hmake := makes?_makeStaging h.reaches hd.plain (hfree w.outside) hw
  have hmake' := makes?_makeStaging h.reaches' hd.plain
    ((hfree w'.outside).congr fun s => h.agrees.nodes _) hw'
  generalize hrun : (makeStaging r maxTries).run.run o w = made at hmake
  generalize hrun' : (makeStaging r maxTries).run.run o w' = made' at hmake'
  obtain ⟨res, w₂⟩ := made
  obtain ⟨res', w₂'⟩ := made'
  dsimp only at hmake hmake'
  -- The names that are drawn are as long as each other, so both can be made or neither.
  cases hmake with
  | @blocked s e _ hblocked hw₂ =>
      cases hmake' with
      | @blocked s' e' _ hblocked' hw₂' =>
          rw [blocked?_eq (hd.interchange s s'), hblocked] at hblocked'
          obtain rfl := Option.some.inj hblocked'
          rw [withStaging, run_bind_error (run_orFail_error hrun),
            run_bind_error (run_orFail_error hrun')]
          exact ⟨_, _, _, rfl, rfl, .failed (hw₂.1.symm ▸ .refl _) (hw₂'.1.symm ▸ .refl _)⟩
      | @made s' _ hfree' hvacant htree hcwd =>
          rw [blocked?_eq (hd.interchange s s'), hblocked] at hfree'
          contradiction
  | @made s _ hfree₁ hvacant htree hcwd =>
      cases hmake' with
      | @blocked s' e' _ hblocked' hw₂' =>
          rw [blocked?_eq (hd.interchange s s'), hfree₁] at hblocked'
          contradiction
      | @made s' _ hfree₁' hvacant' htree' hcwd' =>
          have hs := isStaging_of_free hd.plain hfree₁ hvacant
          have hs' := isStaging_of_free hd.plain hfree₁' hvacant'
          obtain ⟨res, w₃, w₃', hwork, hwork', hends⟩ := unpackSources_twice a format file h
            (hd.interchange s s') hs hs' htree hcwd htree' hcwd'
          rw [run_withStaging_made hrun hwork, run_withStaging_made hrun' hwork']
          refine ⟨_, _, _, rfl, rfl, ?_⟩
          cases hends with
          | failed hstaged hstaged' =>
              obtain ⟨t, hremove, hkept, -⟩ := removeAll_staging h.sound h.reaches hs hstaged
              obtain ⟨t', hremove', hkept', -⟩ :=
                removeAll_staging h.sound' h.reaches' hs' hstaged'
              rw [World.perform_change_ok (c := .removeAll _) hremove,
                World.perform_change_ok (c := .removeAll _) hremove']
              exact .failed hkept hkept'
          | placed hplace hplace' hcwd₃ hcwd₃' hsourced hsourced' hsame =>
              have hgone := removeAll_placed hs hplace
              have hgone' := removeAll_placed hs' hplace'
              rw [← hcwd₃] at hgone
              rw [← hcwd₃'] at hgone'
              rw [World.perform_change_error (c := .removeAll _) hgone,
                World.perform_change_error (c := .removeAll _) hgone']
              exact .done hsourced hsourced' hsame

theorem unpackTrusted_twice (a : SourceArchive) (format : Format) (file : Bytes)
    (h : Twin r top lock m m') (hd : o.DrawsAlike)
    (hfree : ∀ s, o.FindsFree m.tree top maxTries s) (hw : m.Still w) (hw' : m'.Still w') :
    ∃ res w₁ w₁', (unpackTrusted a r format file).run.run o w = (res, w₁) ∧
      (unpackTrusted a r format file).run.run o w' = (res, w₁') ∧
      FetchedTwice r top lock m m' res w₁ w₁' := by
  -- Whether the digest is right is a matter of the file alone.
  have hcheck : ∀ {res}, (checkDigest a file).run = pure res →
      ∀ u : World σ, (checkDigest a file).run.run o u = (res, u) := fun hdigest u => by
    rw [hdigest]
    rfl
  rw [unpackTrusted]
  rcases checkDigest_run a file with hdigest | ⟨e, hdigest⟩
  · rw [run_bind_ok (hcheck hdigest w), run_bind_ok (hcheck hdigest w')]
    exact withStaging_twice a format file h hd hfree hw hw'
  · rw [run_bind_error (hcheck hdigest w), run_bind_error (hcheck hdigest w')]
    exact ⟨_, _, _, rfl, rfl, .failed (hw.1.symm ▸ .refl _) (hw'.1.symm ▸ .refl _)⟩

theorem fetched_again {a : SourceArchive} (h : isFetched r w = true) : fetched o a r w =
    (.ok .already, (w.perform o (.log .info "sources already fetched")).2) := by
  have hlook : (fetch a r r.record).run = r.record.isComplete .fetch >>= _ :=
    ExceptT.run_bind_lift ..
  rw [fetched, hlook, run_bind, run_isComplete, h]
  rfl

/-- Whatever names are drawn, two fetches that start from the same files come to the same. -/
theorem fetch_twice (a : SourceArchive) (h : Twin r top lock m m') (ho : o.Serves)
    (hd : o.DrawsAlike) (hfree : ∀ s, o.FindsFree m.tree top maxTries s) :
    ∃ res w w', fetched o a r m = (res, w) ∧ fetched o a r m' = (res, w') ∧
      FetchedTwice r top lock m m' res w w' := by
  have hfetched : isFetched r m' = isFetched r m := by
    rw [isFetched, isFetched, Tree.isDir, Tree.isDir,
      lookup_congr h.agrees.nodes (by rw [h.cwd])]
  cases hthere : isFetched r m with
  | true =>
      rw [fetched_again hthere, fetched_again (hfetched.trans hthere)]
      exact ⟨_, _, _, rfl, rfl, .done (.of_still h.sound h.filled hthere ⟨rfl, rfl⟩)
        (.of_still h.sound' h.filled' (hfetched.trans hthere) ⟨rfl, rfl⟩) h.agrees.sameOn⟩
  | false =>
      rw [fetched_of_missing hthere, fetched_of_missing (hfetched.trans hthere)]
      cases Format.ofUrl? a.url with
      | none => exact ⟨_, _, _, rfl, rfl, .failed (.refl _) (.refl _)⟩
      | some format =>
          have hmake := run_makeDirs_of_reaches (o := o) h.reaches
          have hmake' := run_makeDirs_of_reaches (o := o) h.reaches'
          -- Whether the root can be had depends on its path alone.
          generalize (if r.path.bytes = [] ∨ r.path.refusal? = none then .ok ()
            else .error ((trimSlashes r.path).refusal?.getD .exists) : Except Errno Unit) =
              made at hmake hmake'
          cases made with
          | error e =>
              dsimp only
              rw [run_bind_error (run_orFail_error hmake),
                run_bind_error (run_orFail_error hmake')]
              exact ⟨_, _, _, rfl, rfl, .failed (.refl _) (.refl _)⟩
          | ok u =>
              have hstill := (Download.throughout_download (o := o) a.url
                (⟨rfl, rfl⟩ : World.Still m m)).at_end
              have hstill' := (Download.throughout_download (o := o) a.url
                (⟨rfl, rfl⟩ : World.Still m' m')).at_end
              have heq : ((download a.url).run.run o m).1 =
                  ((download a.url).run.run o m').1 :=
                Download.download_eq ho a.url
              generalize hrun : (download a.url).run.run o m = loaded at hstill heq
              generalize hrun' : (download a.url).run.run o m' = loaded' at hstill' heq
              obtain ⟨res, w₁⟩ := loaded
              obtain ⟨res', w₁'⟩ := loaded'
              obtain rfl : res = res' := heq
              dsimp only
              rw [run_bind_ok (run_orFail_ok hmake), run_bind_ok (run_orFail_ok hmake')]
              cases res with
              | error e =>
                  rw [run_bind_error hrun, run_bind_error hrun']
                  exact ⟨_, _, _, rfl, rfl,
                    .failed (hstill.1.symm ▸ .refl _) (hstill'.1.symm ▸ .refl _)⟩
              | ok file =>
                  rw [run_bind_ok hrun, run_bind_ok hrun']
                  exact unpackTrusted_twice a format file h hd hfree hstill hstill'

end Sources

end LlvmBootstrap
