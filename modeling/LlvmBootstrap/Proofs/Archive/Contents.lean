import LlvmBootstrap.Proofs.Archive.Placing
import LlvmBootstrap.Proofs.Archive.Rejection

/-!
What an archive of files and directories leaves in an empty destination. It is read off the
members: the last file for each path, the directories that are named, and those that are needed
for what lies in them. Members elsewhere than below the top directory are as good as not there.
-/

namespace LlvmBootstrap

theorem Path.stripBase?_names_iff {tops names below : List Name} :
    stripBase? (tops.map .name) names = some below ↔ names = tops ++ below := by
  induction tops generalizing names with
  | nil => simp [stripBase?]
  | cons b tops ih =>
      cases names with
      | nil => simp [stripBase?]
      | cons n ns =>
          rw [List.map_cons, stripBase?, List.cons_append, List.cons.injEq]
          by_cases heq : b = n
          · rw [if_pos heq, ih]
            simp [heq]
          · rw [if_neg heq]
            simp [Ne.symm heq]

namespace Archive

open LlvmBootstrap.Tree Program Tar

variable {σ : Type} {o : Outside σ} {L : List Name → Path → Prop} {t₀ t t' : Tree}
  {cwd top : Location} {root dest : Path} {w w' : World σ} {tops rel : List Name} {m : Member}
  {ms : List Member} {tr : List Answered}

/-! ### Where members lie -/

/-- The path of a member leads to the names `rel`, strictly below the top directory `tops`. -/
structure LiesAt (tops : List Name) (m : Member) (rel : List Name) : Prop where
  names : m.path.normalize? = some (tops ++ rel)
  below : rel ≠ []

def liesBelow (tops : List Name) (m : Member) : Bool :=
  m.path.normalize?.any fun names => tops.isPrefixOf names && names ≠ tops

theorem liesBelow_iff : liesBelow tops m = true ↔ ∃ rel, LiesAt tops m rel := by
  rw [liesBelow, Option.any_eq_true]
  constructor
  · rintro ⟨names, hnames, hbelow⟩
    obtain ⟨hpre, hne⟩ := Bool.and_eq_true_iff.mp hbelow
    obtain ⟨rel, rfl⟩ := List.isPrefixOf_iff_prefix.mp hpre
    exact ⟨rel, hnames, fun hnil => of_decide_eq_true hne (by rw [hnil, List.append_nil])⟩
  · rintro ⟨rel, hnames, hne⟩
    refine ⟨tops ++ rel, hnames, Bool.and_eq_true_iff.mpr ⟨?_, ?_⟩⟩
    · exact List.isPrefixOf_iff_prefix.mpr (List.prefix_append ..)
    · exact decide_eq_true fun heq => hne (List.append_right_eq_self.mp heq)

theorem LiesAt.unique {rel' : List Name} (h : LiesAt tops m rel) (h' : LiesAt tops m rel') :
    rel = rel' :=
  List.append_cancel_left (Option.some.inj (h.names.symm.trans h'.names))

/-- What the last file for the names `rel` holds. -/
def contentAt? (tops rel : List Name) (ms : List Member) : Option Bytes :=
  ((ms.filter fun m => m.kind = .file && m.path.normalize? = some (tops ++ rel)).getLast?).map
    (·.content)

theorem contentAt?_concat (tops rel : List Name) (ms : List Member) (m : Member) :
    contentAt? tops rel (ms ++ [m]) =
      if m.kind = .file ∧ m.path.normalize? = some (tops ++ rel) then some m.content
      else contentAt? tops rel ms := by
  rw [contentAt?, List.filter_append]
  split
  · next h => rw [List.filter_cons_of_pos (by simpa using h)]; simp
  · next h => rw [List.filter_cons_of_neg (by simpa using h)]; simp [contentAt?]

/-- A member is a directory at the names `rel`, or lies somewhere below them. -/
def NeedsDir (tops rel : List Name) (m : Member) : Prop :=
  ∃ place, LiesAt tops m place ∧
    (m.kind = .directory ∧ rel = place ∨ rel <+: place ∧ rel ≠ place)

/-- What stands below `top` is what the members `ms` say. -/
structure Unpacked (tops : List Name) (ms : List Member) (top : Location)
    (t : Tree) : Prop where
  files : ∀ rel content, rel ≠ [] →
    (t.item? (top ++ rel) = some (.file content) ↔ contentAt? tops rel ms = some content)
  dirs : ∀ rel, rel ≠ [] → (t.item? (top ++ rel) = some .dir ↔ ∃ m ∈ ms, NeedsDir tops rel m)
  noLinks : ∀ rel target, rel ≠ [] → t.item? (top ++ rel) ≠ some (.link target)

theorem unpacked_nil (h : t.isVacantBelow top = true) : Unpacked tops [] top t := by
  have hnone : ∀ rel, rel ≠ [] → t.item? (top ++ rel) = none := fun rel hne =>
    item?_eq_none_iff.mpr (isVacantBelow_iff.mp h rel hne)
  refine ⟨fun rel content hne => ?_, fun rel hne => ?_, fun rel target hne => ?_⟩
  · simp [hnone rel hne, contentAt?]
  · simp [hnone rel hne]
  · simp [hnone rel hne]

/-- A member that lies elsewhere changes nothing of what the members say. -/
theorem Unpacked.outside (h : Unpacked tops ms top t) (hout : liesBelow tops m = false) :
    Unpacked tops (ms ++ [m]) top t := by
  have hno : ∀ rel, ¬ LiesAt tops m rel := fun rel hat => by
    rw [liesBelow_iff.mpr ⟨rel, hat⟩] at hout
    contradiction
  refine ⟨fun rel content hne => ?_, fun rel hne => ?_, h.noLinks⟩
  · rw [h.files rel content hne, contentAt?_concat, if_neg fun hat => hno rel ⟨hat.2, hne⟩]
  · rw [h.dirs rel hne]
    constructor
    · rintro ⟨x, hx, hneeds⟩
      exact ⟨x, List.mem_append_left _ hx, hneeds⟩
    · rintro ⟨x, hx, hneeds⟩
      rcases List.mem_append.mp hx with hx | hx
      · exact ⟨x, hx, hneeds⟩
      · obtain rfl := List.mem_singleton.mp hx
        obtain ⟨place, hat, -⟩ := hneeds
        exact absurd hat (hno place)

/-- A file or directory has come to stand at its place. -/
theorem Unpacked.placed (h : Unpacked tops ms top t) (hat : LiesAt tops m rel)
    (hk : m.kind = .file ∨ m.kind = .directory) (hp : Placement top rel (itemOf m) t t') :
    Unpacked tops (ms ++ [m]) top t' := by
  have hneeds : ∀ {place}, NeedsDir tops place m ↔
      m.kind = .directory ∧ place = rel ∨ place <+: rel ∧ place ≠ rel := fun {place} =>
    ⟨fun ⟨_, hat', hneeds⟩ => hat.unique hat' ▸ hneeds, fun hneeds => ⟨rel, hat, hneeds⟩⟩
  have hnames {place : List Name} :
      m.path.normalize? = some (tops ++ place) ↔ place = rel := by
    rw [hat.names, Option.some.injEq, List.append_cancel_left_eq]
    exact eq_comm
  have hdirs : ∀ {place}, place ≠ [] → ((∃ x ∈ ms ++ [m], NeedsDir tops place x) ↔
      t.item? (top ++ place) = some .dir ∨ NeedsDir tops place m) := fun hne => by
    rw [h.dirs _ hne]
    simp only [List.mem_append, List.mem_singleton, or_and_right, exists_or, exists_eq_left]
  have hfiles : ∀ {place content}, place ≠ [] → place ≠ rel →
      (contentAt? tops place (ms ++ [m]) = some content ↔
        t.item? (top ++ place) = some (.file content)) :=
    fun hne hother => by
      rw [contentAt?_concat, if_neg fun hfile => hother (hnames.mp hfile.2), h.files _ _ hne]
  -- There are three kinds of place: the member's own, those above it, which are directories
  -- now, and all the others, where nothing has changed.
  refine ⟨fun place content hne => ?_, fun place hne => ?_, fun place target hne hlink => ?_⟩
  · by_cases hself : place = rel
    · subst hself
      rw [hp.placed, contentAt?_concat, itemOf]
      rcases hk with hk | hk
      · rw [if_neg (by rw [hk]; exact nofun), if_pos ⟨hk, hat.names⟩]
        simp
      · -- No file stood where a directory has been accepted.
        rw [if_pos hk, if_neg (fun hfile => by rw [hk] at hfile; exact absurd hfile.1 nofun),
          ← h.files _ _ hne]
        refine ⟨nofun, fun hthere => absurd ((hp.replaces _ hthere).mpr (if_pos hk)) nofun⟩
    · rw [hfiles hne hself]
      by_cases hpre : place <+: rel
      · rw [hp.above place hne hpre hself]
        exact ⟨nofun, fun hthere =>
          absurd (hp.replaces_above place _ hne hpre hself hthere) nofun⟩
      · rw [hp.others place hne hpre]
  · rw [hdirs hne, hneeds]
    by_cases hself : place = rel
    · subst hself
      rw [hp.placed, Option.some.injEq]
      rcases hk with hk | hk
      · -- No directory stood where a file has been accepted.
        have hnot : itemOf m ≠ .dir := by
          rw [itemOf, if_neg (by rw [hk]; exact nofun)]; exact nofun
        simp only [hnot, hk, ne_eq, not_true_eq_false, and_false, or_false,
          reduceCtorEq, false_and, false_iff]
        exact fun hthere => hnot ((hp.replaces _ hthere).mp rfl)
      · simp [itemOf, hk]
    · by_cases hpre : place <+: rel
      · simp [hp.above place hne hpre hself, hpre, hself]
      · simp [hp.others place hne hpre, hpre, hself]
  · by_cases hself : place = rel
    · rw [hself, hp.placed] at hlink
      have hitem := Option.some.inj hlink
      rw [itemOf] at hitem
      split at hitem <;> contradiction
    · by_cases hpre : place <+: rel
      · rw [hp.above place hne hpre hself] at hlink
        exact absurd (Option.some.inj hlink) nofun
      · rw [hp.others place hne hpre] at hlink
        exact h.noLinks place target hne hlink

/-! ### One member -/

/-- Nothing is done for a member that lies elsewhere. -/
theorem unpackMember_outside (hroot : root.components = tops.map .name)
    (hin : ¬ m.path.Escapes) (hout : liesBelow tops m = false) :
    unpackMember root dest m = pure false := by
  obtain ⟨names, hnames⟩ :=
    Option.ne_none_iff_exists'.mp (mt Path.normalize?_eq_none_iff.mp hin)
  simp only [unpackMember, hnames, belowTop?, hroot]
  cases hstrip : Path.stripBase? (tops.map .name) names with
  | none => rfl
  | some below =>
      cases below with
      | nil => rfl
      | cons n ns =>
          rw [Path.stripBase?_names_iff.mp hstrip] at hnames
          rw [liesBelow_iff.mpr ⟨n :: ns, hnames, by simp⟩] at hout
          contradiction

theorem placement_of_unpackMember {counted : Bool} (hw : Inside L t₀ cwd top w)
    (he : EmptyDir t₀ cwd dest top) (hw' : Inside L t₀ cwd top w')
    (hroot : root.components = tops.map .name) (hat : LiesAt tops m rel)
    (hk : m.kind = .file ∨ m.kind = .directory)
    (hgoes : (unpackMember root dest m).run.Goes o w (.ok counted) tr w') :
    counted = true ∧ Placement top rel (itemOf m) w.tree w'.tree := by
  have hs := shelter_inside (σ := σ) (L := L) he
  have hplain : ∀ n ∈ rel, Path.IsPlain n := fun n hn =>
    Path.isPlain_of_normalize? hat.names n (List.mem_append_right _ hn)
  have hupper : ∀ n ∈ rel.dropLast, Path.IsPlain n := fun n hn =>
    hplain n ((List.dropLast_prefix _).subset hn)
  have hstrip : belowTop? root (tops ++ rel) = some rel := by
    rw [belowTop?, hroot]
    exact Path.stripBase?_names_iff.mpr rfl
  have hcheck : ∀ names, checkTarget root dest names m = pure none := fun names => by
    rcases hk with hk | hk <;> simp only [checkTarget, hk]
  obtain ⟨n, ns, rfl⟩ := List.exists_cons_of_ne_nil hat.below
  simp only [unpackMember, hat.names, hstrip, hcheck, pure_bind] at hgoes
  -- First the looks for links on the way, then the directories above, then the member itself.
  rcases hgoes.of_attempt_bind with ⟨e, he', -⟩ | ⟨met, w₁, tr₁, more, hlook, hgoes₁, -⟩
  · contradiction
  obtain ⟨hw₁, htree₁, hu⟩ := looked_of_goes hw he hplain hlook
  cases met with
  | true => cases hgoes₁.of_pure.1
  | false =>
      have hu₁ : Unlinked w₁.tree top (n :: ns) := htree₁ ▸ hu rfl
      rcases hgoes₁.of_attempt_bind with ⟨e, he', -⟩ | ⟨⟨⟩, w₂, tr₂, more, hmade, hgoes₂, -⟩
      · contradiction
      obtain ⟨hw₂, hnew⟩ := made_of_goes hw₁ he hupper hu₁.dropLast hmade
      obtain ⟨-, hdirs⟩ := (goes_of_orFail hmade).at_end
        (throughout_makeDirs_along he.named hupper (hs.reaches hw₁) hu₁.dropLast)
      have hu₂ := hnew.unlinked hu₁
      have hc : Clear w₂.tree top dest (dest / Path.ofNames (n :: ns)) (n :: ns) :=
        ⟨Path.extends_ofNames dest hplain, hat.below, hu₂.dropLast⟩
      rcases hgoes₂.of_attempt_bind with ⟨e, he', -⟩ | ⟨⟨⟩, w₃, tr₃, more, hmember, hrest, -⟩
      · contradiction
      obtain ⟨hcounted, -, rfl⟩ := hrest.of_pure
      obtain ⟨hreplaces, hchanged⟩ := placed_of_makeMember hw₂ he hc hu₂ hk hmember
      rw [htree₁] at hdirs
      exact ⟨Except.ok.inj hcounted,
        .of_dirsAlong hdirs hat.below hchanged hreplaces hw'.confined⟩

/-! ### All members -/

theorem inside_of_unpackMember {counted : Except SourceError Bool}
    (hw : Inside (fun _ _ => True) t₀ cwd top w) (he : EmptyDir t₀ cwd dest top)
    (hgoes : (unpackMember root dest m).run.Goes o w counted tr w') :
    Inside (fun _ _ => True) t₀ cwd top w' := by
  have hrun : (unpackMember root dest m).run.Amid o (fun _ => Eq)
      (fun _ => Permits (fun _ _ => True) (Inside (fun _ _ => True) t₀ cwd top) top dest)
      (fun _ _ => Inside (fun _ _ => True) t₀ cwd top) [] w :=
    amid_unpackMember (shelter_inside he) steady_alone hw fun _ _ _ => trivial
  exact hgoes.at_end hrun.throughout

/-- What stands below the destination is what the members say, from each member to the next. -/
theorem unpacked_of_unpackAll {done : List Member} {count n : Nat}
    (he : EmptyDir t₀ cwd dest top) (hroot : root.components = tops.map .name)
    (hk : ∀ m ∈ ms, m.kind = .file ∨ m.kind = .directory)
    (hw : Inside (fun _ _ => True) t₀ cwd top w) (hdone : Unpacked tops done top w.tree)
    (hgoes : (unpackAll root dest count ms).run.Goes o w (.ok n) tr w') :
    Unpacked tops (done ++ ms) top w'.tree ∧ n = count + ms.countP (liesBelow tops) := by
  -- On the members that are left; the invariant is about those that are done.
  induction ms generalizing done count w tr with
  | nil =>
      obtain ⟨heq, -, rfl⟩ := hgoes.of_pure
      rw [List.append_nil]
      exact ⟨hdone, Except.ok.inj heq⟩
  | cons m ms ih =>
      rw [unpackAll_cons] at hgoes
      rcases hgoes.of_attempt_bind with ⟨e, heq, -⟩ | ⟨counted, w₁, tr₁, tr₂,
        hmember, hrest, -⟩
      · contradiction
      · have hstep : counted = liesBelow tops m ∧ Unpacked tops (done ++ [m]) top w₁.tree := by
          cases hbelow : liesBelow tops m with
          | true =>
              obtain ⟨rel, hat⟩ := liesBelow_iff.mp hbelow
              have hkind := hk m (List.mem_cons_self ..)
              obtain ⟨hcounted, hplaced⟩ := placement_of_unpackMember hw he
                (inside_of_unpackMember hw he hmember) hroot hat hkind hmember
              exact ⟨hcounted, hdone.placed hat hkind hplaced⟩
          | false =>
              rw [unpackMember_outside hroot (not_escapes_of_unpackMember hmember) hbelow]
                at hmember
              obtain ⟨hcounted, -, rfl⟩ := hmember.of_pure
              exact ⟨Except.ok.inj hcounted, hdone.outside hbelow⟩
        obtain ⟨rfl, hdone₁⟩ := hstep
        obtain ⟨hall, hn⟩ := ih (fun x hx => hk x (List.mem_cons_of_mem _ hx))
          (inside_of_unpackMember hw he hmember) hdone₁ hrest
        rw [List.append_assoc, List.singleton_append] at hall
        refine ⟨hall, ?_⟩
        rw [hn, List.countP_cons]
        cases liesBelow tops m <;> simp +arith

/-- Leaving out members that lie elsewhere leaves the same to be done. -/
theorem unpackAll_sublist {ms' : List Member} (hroot : root.components = tops.map .name)
    (hin : ∀ m ∈ ms, ¬ m.path.Escapes) (hsub : ms'.Sublist ms)
    (hsame : ms'.filter (liesBelow tops) = ms.filter (liesBelow tops)) (count : Nat) :
    unpackAll root dest count ms' = unpackAll root dest count ms := by
  induction hsub generalizing count with
  | slnil => rfl
  | @cons ms' ms m hsub ih =>
      have hout : liesBelow tops m = false := by
        -- Without a member that is counted there would be fewer of them.
        by_contra hbelow
        rw [List.filter_cons_of_pos (by simpa using hbelow)] at hsame
        have hle := (hsub.filter (liesBelow tops)).length_le
        rw [hsame, List.length_cons] at hle
        omega
      rw [List.filter_cons_of_neg (by simp [hout])] at hsame
      rw [unpackAll_cons, unpackMember_outside hroot (hin m (List.mem_cons_self ..)) hout,
        pure_bind]
      exact ih (fun x hx => hin x (List.mem_cons_of_mem _ hx)) hsame count
  | @cons_cons ms' ms m hsub ih =>
      have hrest : ms'.filter (liesBelow tops) = ms.filter (liesBelow tops) := by
        rw [List.filter_cons, List.filter_cons] at hsame
        split at hsame
        · exact (List.cons.inj hsame).2
        · exact hsame
      rw [unpackAll_cons, unpackAll_cons]
      congr 1
      funext counted
      exact ih (fun x hx => hin x (List.mem_cons_of_mem _ hx)) hrest _

/-- **What an archive of files and directories leaves in an empty destination.** If it is
unpacked at all, no path in it escapes, no path is used both for a file and for a directory,
the members below the top directory are counted, and what stands below the destination is what
they say. The others might as well not be there, any of them. -/
theorem unpack_contents (members : Members) (root dest : Path)
    (hroot : root.components = tops.map .name)
    (hk : ∀ m ∈ members.list, m.kind = .file ∨ m.kind = .directory)
    (h : w.HasEmptyDir dest top) {n : Nat}
    (hok : ((unpack members root dest).run.run o w).1 = .ok n) :
    (∀ m ∈ members.list, ¬ m.path.Escapes) ∧
    (∀ m ∈ members.list, ∀ rel, m.kind = .file → LiesAt tops m rel →
      ∀ m' ∈ members.list, ¬ NeedsDir tops rel m') ∧
    n = members.list.countP (liesBelow tops) ∧
    Unpacked tops members.list top ((unpack members root dest).run.run o w).2.tree ∧
    ∀ ms', ms'.Sublist members.list →
      ms'.filter (liesBelow tops) = members.list.filter (liesBelow tops) →
      (unpack ⟨ms', false⟩ root dest).run.run o w =
        (unpack members root dest).run.run o w := by
  have he := emptyDir_of_hasEmptyDir h
  have hgoes := Goes.run o (unpack members root dest).run w
  rw [hok] at hgoes
  obtain ⟨hwhole, hall⟩ := goes_unpack_ok hgoes
  have hin : ∀ m ∈ members.list, ¬ m.path.Escapes := fun m hm => by
    obtain ⟨counted, w₁, tr₁, w₂, hmember⟩ := goes_of_mem hall hm
    exact not_escapes_of_unpackMember hmember
  obtain ⟨hunpacked, hn⟩ := unpacked_of_unpackAll he hroot hk (inside_of_hasEmptyDir h)
    (unpacked_nil h.empty) hall
  rw [List.nil_append] at hunpacked
  rw [Nat.zero_add] at hn
  refine ⟨hin, fun m hm rel hfile hat m' hm' hneeds => ?_, hn, hunpacked,
    fun ms' hsub hsame => ?_⟩
  -- A path used for both would have to be a directory and a file in the end.
  · have hdir := (hunpacked.dirs rel hat.below).mpr ⟨m', hm', hneeds⟩
    have hmem : m ∈ members.list.filter fun m =>
        m.kind = .file && m.path.normalize? = some (tops ++ rel) :=
      List.mem_filter.mpr ⟨hm, by simp [hfile, hat.names]⟩
    obtain ⟨last, hlast⟩ := Option.ne_none_iff_exists'.mp
      (mt List.getLast?_eq_none_iff.mp (List.ne_nil_of_mem hmem))
    have hcontent : contentAt? tops rel members.list = some last.content := by
      rw [contentAt?, hlast, Option.map_some]
    have hthere := (hunpacked.files rel last.content hat.below).mpr hcontent
    rw [hdir] at hthere
    exact absurd (Option.some.inj hthere) nofun
  · have hmembers : unpack members root dest = unpackAll root dest 0 members.list := by
      rw [← run_unpack_undamaged, ← hwhole]
    rw [hmembers, run_unpack_undamaged, unpackAll_sublist hroot hin hsub hsame]

def rewritten : Members where
  list := [
    ⟨"./R/a", .file, none, none, [7], true⟩,
    ⟨"Rx/a", .file, none, none, [1], true⟩,
    ⟨"R/d/f", .file, none, none, [8], true⟩,
    ⟨"R/d/../a", .file, none, none, [9], true⟩]
  damaged := false

/-- Three members are counted, the file holds what its second member says, and there is a
directory that no member names. -/
theorem unpack_contents_rewritten :
    let w := World.fresh bareDir [] .empty 1 ()
    let r := (unpack rewritten "R" "/d").run.run silent w
    w.HasEmptyDir "/d" [[0x64]] ∧ r.1 = .ok 3 ∧
      3 = rewritten.list.countP (liesBelow [[0x52]]) ∧
      r.2.tree.item? [[0x64], [0x61]] = some (.file [9]) ∧
      r.2.tree.item? [[0x64], [0x64]] = some .dir := by
  intro w r
  have h : w.HasEmptyDir "/d" [[0x64]] := hasEmptyDir_d (by decide) (by decide)
  have hroot : (Path.ofString "R").components = [[0x52]].map .name := by decide
  have hk : ∀ m ∈ rewritten.list, m.kind = .file ∨ m.kind = .directory := by decide
  have hok :
      ((unpack rewritten "R" "/d").run.run silent (World.fresh bareDir [] .empty 1 ())).1 =
        .ok 3 := by
    cbv
  obtain ⟨-, -, hn, hunpacked, -⟩ := unpack_contents rewritten "R" "/d" hroot hk h hok
  have hneeds : NeedsDir [[0x52]] [[0x64]] ⟨"R/d/f", .file, none, none, [8], true⟩ :=
    ⟨[[0x64], [0x66]], ⟨by decide, by simp⟩, .inr ⟨by simp, by simp⟩⟩
  refine ⟨h, hok, hn, ?_, ?_⟩
  · exact (hunpacked.files [[0x61]] [9] (by simp)).mpr (by decide)
  · exact (hunpacked.dirs [[0x64]] (by simp)).mpr ⟨_, by simp [rewritten], hneeds⟩

end Archive

end LlvmBootstrap
