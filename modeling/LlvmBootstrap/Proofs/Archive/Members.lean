import LlvmBootstrap.Proofs.Archive.Inside

/-!
Unpacking all members of an archive. What is known of a member's names before anything is made
for it is that looking along them met no link; the directories made in between leave that so.
-/

namespace LlvmBootstrap.Archive

open LlvmBootstrap.Tree Program

variable {σ : Type} {o : Outside σ} {R : World σ → World σ → Prop}
  {L : List Name → Path → Prop} {top : Location} {root dest : Path} {I : World σ → Prop}
  {past : List Answered} {w w' : World σ}

theorem isPlain_of_below {path : Path} {names : List Name}
    (h : path.normalize?.bind (belowTop? root) = some names) :
    ∀ n ∈ names, Path.IsPlain n := by
  obtain ⟨all, hnorm, hstrip⟩ := Option.bind_eq_some_iff.mp h
  obtain ⟨tops, -, rfl⟩ := Path.eq_append_of_stripBase? hstrip
  exact fun n hn => Path.isPlain_of_normalize? hnorm n (List.mem_append_right _ hn)

def IsChecked (root : Path) (below : List Name) (target : Path) : Prop :=
  ∃ tops, root.components = tops.map .name ∧
    ((linkedNames? (tops ++ below) target).bind (belowTop? root)).isSome

/-- A path that can be the source of a hard link: no link is met along it. -/
def IsSource (t : Tree) (top : Location) (dest src : Path) : Prop :=
  (Path.Extends dest [] src ∧ steps src = src.moves ++ [.here]) ∨
    ∃ ns, Clear t top dest src ns ∧ Unlinked t top ns

theorem Steady.isSource {src : Path} (hw' : Steady I top w w')
    (h : IsSource w.tree top dest src) :
    IsSource w'.tree top dest src := by
  rcases h with h | ⟨ns, hc, hu⟩
  · exact .inl h
  · exact .inr ⟨ns, hw'.clear hc, hw'.unlinked hu⟩

section

variable (hs : Shelter L top dest I) (hR : ∀ w w', I w → R w w' → Steady I top w w')

include hs hR

theorem amid_makeHardLink {src p : Path} {ns : List Name} (hw : I w)
    (hsource : IsSource w.tree top dest src) (hc : Clear w.tree top dest p ns)
    (hu : Unlinked w.tree top ns) :
    (makeHardLink src p).run.Amid o (fun _ => R) (fun _ => Permits L I top dest) (fun _ _ => I)
      past w := by
  have hlink : ∀ w', Steady I top w w' →
      TouchesBy L w'.tree top dest (.link src p) := fun w' hw' => by
    rcases hw'.isSource hsource with ⟨hext, hsteps⟩ | ⟨ns', hc', hu'⟩
    · exact .linkTop hext hsteps (hw'.clear hc)
    · exact .link hc' hu' (hw'.clear hc)
  have hcopy : ∀ w', Steady I top w w' →
      TouchesBy L w'.tree top dest (.copy src p) := fun w' hw' => by
    rcases hw'.isSource hsource with ⟨hext, -⟩ | ⟨ns', hc', hu'⟩
    · exact .copyTop hext
    · exact .copy hc' hu' (hw'.clear hc) (hw'.unlinked hu)
  rw [makeHardLink]
  refine amid_change hs hR (Q := fun _ => I) hw hlink
    (fun _ _ _ _ _ hI => hI) fun w' e _ hw' _ => ?_
  exact amid_orFail (amid_lastChange hs hR (Q := fun _ => I) hw'.inv
    (fun w'' hw'' => hcopy w'' (hw'.trans hw''))
    (fun _ _ _ _ hI => hI) fun _ _ hw'' => hw''.inv)

/-- Looking for links changes nothing, and where none is met there is none. -/
theorem amid_looked {names : List Name} (hw : I w) (hp : ∀ n ∈ names, Path.IsPlain n) :
    (orFail (meetsLink dest names)).run.Amid o (fun _ => R) (fun _ => Permits L I top dest)
      (fun r _ w' => Steady I top w w' ∧
        (r = .ok false → Unlinked w'.tree top names)) past w := by
  refine Amid.adapt ((amid_meetsLink hs hR hw (Path.Extends.refl dest) hp
    (unlinked_nil w.tree top)).post ?_)
  rintro (e | b) _ w' ⟨hw', hu⟩
  · exact ⟨hw', nofun⟩
  · refine ⟨hw', fun h => hu ?_⟩
    rw [Except.ok.inj h]

theorem amid_checkTarget {names : List Name} {m : Tar.Member} (hw : I w) :
    (checkTarget root dest names m).run.Amid o (fun _ => R) (fun _ => Permits L I top dest)
      (fun r _ w' => Steady I top w w' ∧
        (∀ src, r = .ok (some src) → IsSource w'.tree top dest src) ∧
        (r = .ok none → m.kind = .symlink → ∀ target, m.target = some target →
          ((linkedNames? names target).bind (belowTop? root)).isSome)) past w := by
  rw [checkTarget]
  cases hk : m.kind with
  | symlink =>
      simp only [targetOf]
      cases ht : m.target with
      | none => exact ⟨.refl hw, nofun, nofun⟩
      | some target =>
          simp only [pure_bind]
          cases hl : (linkedNames? names target).bind (belowTop? root) with
          | none => exact ⟨.refl hw, nofun, nofun⟩
          | some inner =>
              refine ⟨.refl hw, nofun, fun _ _ target' heq => ?_⟩
              rw [← Option.some.inj heq, hl]
              rfl
  | hardLink =>
      simp only [targetOf]
      cases ht : m.target with
      | none => exact ⟨.refl hw, nofun, nofun⟩
      | some target =>
          simp only [pure_bind]
          cases hl : target.normalize?.bind (belowTop? root) with
          | none => exact ⟨.refl hw, nofun, nofun⟩
          | some below =>
              have hplain := isPlain_of_below hl
              refine Amid.attempt_bind (amid_looked hs hR hw hplain) ?_ ?_
              · rintro met _ w' ⟨hw', hu⟩
                cases met with
                | true => exact ⟨hw', nofun, nofun⟩
                | false =>
                    -- A source with no names is the destination itself, which is no link.
                    refine ⟨hw', fun src h => ?_, nofun⟩
                    rw [← Option.some.inj (Except.ok.inj h)]
                    have hext := Path.extends_ofNames dest hplain
                    by_cases hnil : below = []
                    · subst hnil
                      exact .inl ⟨hext, Path.steps_join_nil hs.named⟩
                    · exact .inr ⟨below, ⟨hext, hnil, (hu rfl).dropLast⟩, hu rfl⟩
              · rintro e _ w' ⟨hw', -⟩
                exact ⟨hw', nofun, nofun⟩
  | _ => exact ⟨.refl hw, nofun, nofun⟩

theorem amid_unpackMember {m : Tar.Member} (hw : I w)
    (hl : ∀ below target, IsChecked root below target → L below target) :
    (unpackMember root dest m).run.Amid o (fun _ => R) (fun _ => Permits L I top dest)
      (fun _ _ => I) past w := by
  rw [unpackMember]
  cases hnames : m.path.normalize? with
  | none => exact hw
  | some names =>
      simp only
      cases hbelow : belowTop? root names with
      | none => exact hw
      | some below =>
          cases below with
          | nil => exact hw
          | cons n ns =>
              have hplain :=
                isPlain_of_below (Option.bind_eq_some_iff.mpr ⟨names, hnames, hbelow⟩)
              have hext := Path.extends_ofNames dest hplain
              have hupper : ∀ x ∈ (n :: ns).dropLast, Path.IsPlain x :=
                fun x hx => hplain x ((List.dropLast_prefix _).subset hx)
              refine Amid.attempt_bind (amid_looked hs hR hw hplain) ?_ fun _ _ _ h => h.1.inv
              rintro met past₁ w₁ ⟨hw₁, hu⟩
              cases met with
              | true => exact hw₁.inv
              | false =>
                  -- From here on the way to the member is known to meet no link. Each
                  -- step keeps that: the checks change nothing, and the directories
                  -- that are made are no links.
                  have hu := hu rfl
                  refine Amid.attempt_bind (amid_checkTarget hs hR hw₁.inv)
                    ?_ fun _ _ _ h => h.1.inv
                  rintro linked past₂ w₂ ⟨hw₂, hsource, hchecked⟩
                  refine Amid.attempt_bind (P := fun _ _ => Steady I top w₂)
                    (amid_orFail
                      (amid_makeDirs hs hR hw₂.inv hupper (hw₂.unlinked hu.dropLast))) ?_
                    fun _ _ _ h => h.inv
                  rintro ⟨⟩ past₃ w₃ hw₃
                  have hu₃ := hw₃.unlinked (hw₂.unlinked hu)
                  have hc : Clear w₃.tree top dest (dest / Path.ofNames (n :: ns)) (n :: ns) :=
                    ⟨hext, by simp, hu₃.dropLast⟩
                  cases linked with
                  | some src =>
                      exact Amid.attempt_bind (P := fun _ _ => I)
                        (amid_makeHardLink hs hR hw₃.inv
                          (hw₃.isSource (hsource src rfl)) hc hu₃)
                        (fun _ _ _ h => h) fun _ _ _ h => h
                  | none =>
                      have hlinks : m.kind = .symlink → ∀ target, m.target = some target →
                          L (n :: ns) target := by
                        intro hk target ht
                        obtain ⟨tops, hroot, rfl⟩ := Path.eq_append_of_stripBase? hbelow
                        exact hl _ _ ⟨tops, hroot, hchecked rfl hk target ht⟩
                      exact Amid.attempt_bind (P := fun _ _ => I)
                        (amid_makeMember hs hR hw₃.inv hc hu₃ hlinks) (fun _ _ _ h => h)
                        fun _ _ _ h => h

theorem amid_unpackAll {ms : List Tar.Member} {count : Nat} (hw : I w)
    (hl : ∀ below target, IsChecked root below target → L below target) :
    (unpackAll root dest count ms).run.Amid o (fun _ => R) (fun _ => Permits L I top dest)
      (fun _ _ => I) past w := by
  induction ms generalizing count past w with
  | nil => exact hw
  | cons m ms ih =>
      rw [unpackAll]
      refine Amid.attempt_bind (P := fun _ _ => I) (amid_unpackMember hs hR hw hl)
        ?_ fun _ _ _ h => h
      rintro counted past' w' hw'
      cases counted with
      | true => exact ih hw'
      | false => exact ih hw'

/-- Every call of an unpacking is about what stands below the destination alone. -/
theorem amid_unpack (members : Tar.Members) (root : Path) (hw : I w)
    (hl : ∀ below target, IsChecked root below target → L below target) :
    (unpack members root dest).run.Amid o (fun _ => R) (fun _ => Permits L I top dest)
      (fun _ _ => I) past w := by
  rw [unpack]
  refine Amid.attempt_bind (P := fun _ _ => I) (amid_unpackAll hs hR hw hl) ?_ fun _ _ _ h => h
  rintro count past' w' hw'
  cases members.damaged with
  | true => exact hw'
  | false => exact hw'

end

/-- Every call of an unpacking into an empty directory stays below it,
and sees nothing else. -/
theorem throughout_unpack {t₀ : Tree} {cwd : Location} (members : Tar.Members) (root : Path)
    (hw : Inside L t₀ cwd top w) (he : EmptyDir t₀ cwd dest top)
    (hl : ∀ below target, IsChecked root below target → L below target) :
    (unpack members root dest).run.Throughout o (Permits L (Inside L t₀ cwd top) top dest)
      (fun _ w' => Inside L t₀ cwd top w') w := by
  have halone : ∀ w w' : World σ, Inside L t₀ cwd top w → w = w' →
      Steady (Inside L t₀ cwd top) top w w' := fun _ _ hw heq => heq ▸ .refl hw
  have hrun : (unpack members root dest).run.Amid o (fun _ => Eq)
      (fun _ => Permits L (Inside L t₀ cwd top) top dest)
      (fun _ _ => Inside L t₀ cwd top) [] w :=
    amid_unpack (shelter_inside he) halone members root hw hl
  exact hrun.throughout

end LlvmBootstrap.Archive
