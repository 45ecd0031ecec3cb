import LlvmBootstrap.Proofs.Archive.HardLinks
import LlvmBootstrap.Proofs.Path.Escaping

/-!
What is left of a member that is rejected. Whether a member leads outside is found out by
looking alone, and nothing that is done for it afterwards can fail for that reason. So a member
that is rejected leaves nothing behind, not even a directory above its place, and the members
behind it are not looked at.
-/

namespace LlvmBootstrap

def SourceError.IsEscape : SourceError → Prop
  | .pathEscapes _ | .linkEscapes _ _ => True
  | _ => False

namespace Program

variable {σ α : Type} {o : Outside σ} {p : Program α} {a : α} {w w' : World σ}
  {tr : List Answered}

/-- After a program that only looks the world is the same. -/
theorem Only.same_of_looks (h : p.Only Call.IsLook) (hgoes : p.Goes o w a tr w') :
    w' = w ∧ ∀ x ∈ tr, x.call.IsLook := by
  have hrun : p.Throughout o (fun _ _ => True) (fun _ w' => w' = w) w := by
    refine h.throughout (I := fun w' => w' = w) ?_ rfl
    rintro w' c rfl hc
    cases c with
    | look follow q => exact ⟨trivial, rfl⟩
    | _ => exact hc.elim
  exact ⟨hgoes.at_end hrun, h.goes hgoes⟩

end Program

namespace Archive

open Program Tar

variable {σ α β : Type} {o : Outside σ} {root dest place : Path} {m : Member} {e : SourceError}
  {w w' : World σ} {tr : List Answered}

/-! ### What cannot fail with an escape -/

structure NeverRejects (x : Attempt SourceError α) : Prop where
  not_isEscape :
    ∀ {σ : Type} {o : Outside σ} {w w' : World σ} {tr : List Answered} {e : SourceError},
    x.run.Goes o w (.error e) tr w' → ¬ e.IsEscape

namespace NeverRejects

theorem pure (a : α) : NeverRejects (pure a : Attempt SourceError α) where
  not_isEscape h := absurd h.of_pure.1 nofun

theorem failed (cause : Failure) :
    NeverRejects (throw (.failed cause) : Attempt SourceError α) where
  not_isEscape h := by
    obtain rfl := Except.error.inj h.of_pure.1
    exact id

theorem orFail (x : Attempt Errno α) : NeverRejects (orFail x) where
  not_isEscape h := by
    rw [Archive.orFail, run_adapt] at h
    obtain ⟨res, w₁, tr₁, tr₂, -, hrest, -⟩ := h.of_bind
    obtain ⟨heq, -, -⟩ := hrest.of_pure
    cases res with
    | ok a => contradiction
    | error cause =>
        obtain rfl := Except.error.inj heq
        exact id

theorem bind {x : Attempt SourceError α} {f : α → Attempt SourceError β} (hx : NeverRejects x)
    (hf : ∀ a, NeverRejects (f a)) : NeverRejects (x >>= f) where
  not_isEscape h := by
    rcases h.of_attempt_bind with ⟨e', heq, hfail⟩ | ⟨a, w₁, tr₁, tr₂, -, hrest, -⟩
    · obtain rfl := Except.error.inj heq
      exact hx.not_isEscape hfail
    · exact (hf a).not_isEscape hrest

theorem make_bind {c : Call} {f : c.Answer → Attempt SourceError β}
    (hf : ∀ r, NeverRejects (f r)) :
    NeverRejects ((make c : Attempt SourceError c.Answer) >>= f) where
  not_isEscape h := by
    obtain ⟨r, w₁, tr₁, tr₂, -, hrest, -⟩ := h.of_attempt_lift_bind
    exact (hf r).not_isEscape hrest

end NeverRejects

theorem makeHardLink_neverRejects (src place : Path) :
    NeverRejects (makeHardLink src place) := by
  refine .make_bind fun answer => ?_
  cases answer with
  | ok u => exact .pure ()
  | error cause => exact .orFail _

theorem makeMember_neverRejects (m : Member) (place : Path) :
    NeverRejects (makeMember m place) := by
  rw [makeMember]
  split
  · exact .pure ()
  · exact .pure ()
  · exact .orFail _
  · split
    · split
      · exact .failed _
      · exact .orFail _
    · exact .failed _
  · refine .bind (.orFail _) fun _ => ?_
    split
    · exact .failed _
    · exact .orFail _

theorem checkTarget_onlyLooks (root dest : Path) (names : List Name) (m : Member) :
    (checkTarget root dest names m).run.Only Call.IsLook := by
  have htarget : ∀ {β : Type} {f : Path → Attempt SourceError β},
      (∀ t, (f t).run.Only Call.IsLook) → (targetOf m >>= f).run.Only Call.IsLook := by
    intro β f hf
    refine .attempt_bind ?_ hf
    rw [targetOf]
    split <;> exact trivial
  rw [checkTarget]
  split
  · refine htarget fun target => ?_
    split <;> exact trivial
  · refine htarget fun target => ?_
    split
    · refine .attempt_bind ((meetsLink_onlyLooks ..).adapt _) fun met => ?_
      cases met <;> exact trivial
    · exact trivial
  · exact trivial

/-- Until a member is rejected nothing has been done for it but looks. -/
theorem same_of_unpackMember (h : (unpackMember root dest m).run.Goes o w (.error e) tr w')
    (he : e.IsEscape) : w' = w ∧ ∀ x ∈ tr, x.call.IsLook := by
  have hdone : ∀ {res : Except SourceError Bool},
      (pure res : Program _).Goes o w (.error e) tr w' →
      w' = w ∧ ∀ x ∈ tr, x.call.IsLook := fun hpure => by
    obtain ⟨-, rfl, rfl⟩ := hpure.of_pure
    exact ⟨rfl, nofun⟩
  rw [unpackMember] at h
  cases hnorm : m.path.normalize? with
  | none =>
      rw [hnorm] at h
      exact hdone h
  | some names =>
      simp only [hnorm] at h
      split at h
      · exact hdone h
      · exact hdone h
      · next below _ _ =>
        rcases h.of_attempt_bind with ⟨e', heq, hlook⟩ | ⟨met, w₁, tr₁, tr₂, hlook, hrest, rfl⟩
        · obtain rfl := Except.error.inj heq
          exact absurd he ((NeverRejects.orFail _).not_isEscape hlook)
        · obtain ⟨rfl, hlooks⟩ :=
            ((meetsLink_onlyLooks dest below).adapt _).same_of_looks hlook
          cases met with
          | true =>
              obtain ⟨-, rfl, rfl⟩ := hrest.of_pure
              exact ⟨rfl, by simpa using hlooks⟩
          | false =>
              rcases hrest.of_attempt_bind with
                ⟨e', heq, hcheck⟩ | ⟨linked, w₂, tr₃, tr₄, -, hmake, -⟩
              · obtain rfl := Except.error.inj heq
                obtain ⟨rfl, hlooks'⟩ := (checkTarget_onlyLooks ..).same_of_looks hcheck
                exact ⟨rfl, fun x hx => (List.mem_append.mp hx).elim (hlooks x) (hlooks' x)⟩
              -- What is done behind the checks cannot fail with an escape.
              · refine absurd he
                  ((NeverRejects.bind (.orFail _) fun _ => ?_).not_isEscape hmake)
                cases linked with
                | some src => exact .bind (makeHardLink_neverRejects ..) fun _ => .pure true
                | none => exact .bind (makeMember_neverRejects ..) fun _ => .pure true

/-! ### The members in front of it -/

theorem unpackAll_cons (root dest : Path) (count : Nat) (m : Member) (ms : List Member) :
    unpackAll root dest count (m :: ms) =
      unpackMember root dest m >>= fun counted =>
        unpackAll root dest (count + counted.toNat) ms := by
  rw [unpackAll]
  congr 1
  funext counted
  cases counted <;> rfl

/-- Unpacking fails at one of the members, and those in front of that
one have been unpacked. -/
theorem goes_unpackAll_error_iff {count : Nat} {ms : List Member} :
    (unpackAll root dest count ms).run.Goes o w (.error e) tr w' ↔
      ∃ before bad after k w₁ tr₁ tr₂, ms = before ++ bad :: after ∧
        (unpackAll root dest count before).run.Goes o w (.ok k) tr₁ w₁ ∧
        (unpackMember root dest bad).run.Goes o w₁ (.error e) tr₂ w' ∧ tr = tr₁ ++ tr₂ := by
  constructor
  · intro h
    induction ms generalizing count w tr with
    | nil => exact absurd h.of_pure.1 nofun
    | cons m ms ih =>
        rw [unpackAll_cons] at h
        rcases h.of_attempt_bind with ⟨e', heq, hmember⟩ | ⟨counted, w₁, tr₁, tr₂,
          hmember, hrest, rfl⟩
        · obtain rfl := Except.error.inj heq
          exact ⟨[], m, ms, count, w, [], tr, rfl, ⟨rfl, rfl⟩, hmember, rfl⟩
        · obtain ⟨before, bad, after, k, w₂, tr₃, tr₄, rfl, hbefore, hbad, rfl⟩ := ih hrest
          refine ⟨m :: before, bad, after, k, w₂, tr₁ ++ tr₃, tr₄, rfl, ?_, hbad, ?_⟩
          · rw [unpackAll_cons]
            exact hmember.attempt_bind hbefore
          · rw [List.append_assoc]
  · rintro ⟨before, bad, after, k, w₁, tr₁, tr₂, rfl, hbefore, hbad, rfl⟩
    rw [unpackAll_append]
    refine hbefore.attempt_bind ?_
    rw [unpackAll_cons]
    exact hbad.attempt_bind_error _

/-- Where all members are unpacked, each of them is. -/
theorem goes_of_mem {count n : Nat} {ms : List Member}
    (h : (unpackAll root dest count ms).run.Goes o w (.ok n) tr w') (hm : m ∈ ms) :
    ∃ counted w₁ tr₁ w₂, (unpackMember root dest m).run.Goes o w₁ (.ok counted) tr₁ w₂ := by
  induction ms generalizing count w tr with
  | nil => contradiction
  | cons m' ms ih =>
      rw [unpackAll_cons] at h
      rcases h.of_attempt_bind with ⟨e, heq, -⟩ | ⟨counted, w₁, tr₁, tr₂, hmember, hrest, -⟩
      · contradiction
      · rcases List.mem_cons.mp hm with rfl | hm
        · exact ⟨counted, w, tr₁, w₁, hmember⟩
        · exact ih hrest hm

theorem not_escapes_of_unpackMember {counted : Bool}
    (h : (unpackMember root dest m).run.Goes o w (.ok counted) tr w') : ¬ m.path.Escapes := by
  rw [← Path.normalize?_eq_none_iff]
  intro hnone
  rw [unpackMember, hnone] at h
  cases h.of_pure.1

/-- An archive that can be read to its end is unpacked as its members are. -/
theorem run_unpack_undamaged (root dest : Path) (ms : List Member) :
    unpack ⟨ms, false⟩ root dest = unpackAll root dest 0 ms := by
  rw [unpack]
  exact bind_pure _

theorem goes_unpack_ok {n : Nat} {members : Members}
    (h : (unpack members root dest).run.Goes o w (.ok n) tr w') :
    members.damaged = false ∧
    (unpackAll root dest 0 members.list).run.Goes o w (.ok n) tr w' := by
  rw [unpack] at h
  rcases h.of_attempt_bind with ⟨e, heq, -⟩ | ⟨k, w₁, tr₁, tr₂, hall, hrest, rfl⟩
  · contradiction
  · cases hd : members.damaged with
    | true =>
        simp only [hd, if_true] at hrest
        cases hrest.of_pure.1
    | false =>
        simp only [hd, Bool.false_eq_true, if_false] at hrest
        obtain ⟨heq, rfl, rfl⟩ := hrest.of_pure
        obtain rfl := Except.ok.inj heq
        rw [List.append_nil]
        exact ⟨rfl, hall⟩

/-- **A rejected member leaves nothing behind.** If the members `before` are unpacked and
`bad` behind them is rejected as an escape, then whatever comes after it, unpacking ends
there with that error: all that is done for `bad` are looks, nothing is done for what comes
after it, and the world is the one that `before` leaves alone. And no archive that holds a
path that escapes is ever unpacked. -/
theorem unpack_rejected (o : Outside σ) (w : World σ) (root dest : Path) :
    (∀ before bad n w₁ e, (unpack ⟨before, false⟩ root dest).run.run o w = (.ok n, w₁) →
      ((unpack ⟨before ++ [bad], false⟩ root dest).run.run o w).1 = .error e → e.IsEscape →
      ∃ looks, (∀ x ∈ looks, x.call.IsLook) ∧ ∀ after damaged,
        let whole := (unpack ⟨before ++ bad :: after, damaged⟩ root dest).run
        whole.run o w = (.error e, w₁) ∧
          whole.trace o w = (unpack ⟨before, false⟩ root dest).run.trace o w ++ looks) ∧
    ∀ members : Members, (∃ m ∈ members.list, m.path.Escapes) →
      ∀ n, ((unpack members root dest).run.run o w).1 ≠ .ok n := by
  refine ⟨fun before bad n w₁ e hbefore hbad he => ?_, ?_⟩
  · rw [run_unpack_undamaged] at hbefore hbad ⊢
    have hall : (unpackAll root dest 0 before).run.Goes o w (.ok n) _ w₁ := ⟨hbefore, rfl⟩
    -- It was the last member that was refused, since those before it were accepted.
    obtain ⟨tr₂, hmember⟩ : ∃ tr₂,
        (unpackMember root dest bad).run.Goes o w₁ (.error e) tr₂ w₁ := by
      have hgoes := Goes.run o (unpackAll root dest 0 (before ++ [bad])).run w
      rw [hbad, unpackAll_append] at hgoes
      rcases hgoes.of_attempt_bind with ⟨e', heq, hfail⟩ | ⟨k, w₂, tr₁, tr₂, hall', hrest, -⟩
      · rw [hfail.1] at hbefore
        exact absurd (congrArg Prod.fst hbefore) nofun
      · obtain ⟨heq, rfl⟩ := Prod.mk.inj (hall'.1.symm.trans hbefore)
        rw [unpackAll_cons] at hrest
        rcases hrest.of_attempt_bind with ⟨e', heq', hfail⟩ | ⟨c, w₃, tr₃, tr₄, -, hnil, -⟩
        · obtain rfl := Except.error.inj heq'
          obtain ⟨hsame, -⟩ := same_of_unpackMember hfail he
          exact ⟨_, hsame ▸ hfail⟩
        · exact absurd hnil.of_pure.1 nofun
    refine ⟨tr₂, (same_of_unpackMember hmember he).2, fun after damaged => ?_⟩
    have hwhole : (unpack ⟨before ++ bad :: after, damaged⟩ root dest).run.Goes o w (.error e)
        ((unpackAll root dest 0 before).run.trace o w ++ tr₂) w₁ := by
      rw [unpack]
      exact Goes.attempt_bind_error (goes_unpackAll_error_iff.mpr
        ⟨before, bad, after, n, w₁, _, tr₂, rfl, hall, hmember, rfl⟩) _
    exact hwhole
  · rintro members ⟨m, hm, hescapes⟩ n hok
    have hgoes := Goes.run o (unpack members root dest).run w
    rw [hok] at hgoes
    obtain ⟨counted, w₁, tr₁, w₂, hmember⟩ := goes_of_mem (goes_unpack_ok hgoes).2 hm
    exact not_escapes_of_unpackMember hmember hescapes

def keptFile : Member := ⟨"R/a", .file, none, some 0o644, [7], true⟩

def strayLink : Member := ⟨"R/x/l", .symlink, some "../../../s", some 0o777, [], true⟩

def climbingFile : Member := ⟨"S/../../b", .file, none, some 0o644, [8], true⟩

/-- The link is rejected, and neither the directory for it nor the file behind it is made; nor
is an archive unpacked for whose last member nothing would be made. -/
theorem unpack_rejected_strayLink :
    let w := World.fresh bareDir [] .empty 1 ()
    let r := (unpack ⟨[keptFile, strayLink, keptFile], false⟩ "R" "/d").run.run silent w
    r = (.error (.linkEscapes "R/x/l" "../../../s"),
      ((unpack ⟨[keptFile], false⟩ "R" "/d").run.run silent w).2) ∧
      r.2.tree.held? [[0x64], [0x61]] = some [7] ∧ r.2.tree.node? [[0x64], [0x78]] = none ∧
      ((unpack ⟨[keptFile, climbingFile], false⟩ "R" "/d").run.run silent w).1 ≠ .ok 1 := by
  intro w r
  obtain ⟨hrejected, hnever⟩ := unpack_rejected silent w "R" "/d"
  have hbefore : ((unpack ⟨[keptFile], false⟩ "R" "/d").run.run silent
      (World.fresh bareDir [] .empty 1 ())).1 = .ok 1 := by cbv
  have hbad : ((unpack ⟨[keptFile] ++ [strayLink], false⟩ "R" "/d").run.run silent
      (World.fresh bareDir [] .empty 1 ())).1 =
        .error (.linkEscapes "R/x/l" "../../../s") := by cbv
  obtain ⟨looks, -, hwhole⟩ :=
    hrejected [keptFile] strayLink 1 _ _ (Prod.ext hbefore rfl) hbad trivial
  have hr : r = _ := (hwhole [keptFile] false).1
  have hescapes : climbingFile.path.Escapes := Path.normalize?_eq_none_iff.mp (by decide)
  refine ⟨hr, ?_, ?_, hnever _ ⟨climbingFile, by simp, hescapes⟩ 1⟩
  · rw [hr]
    cbv
  · rw [hr]
    cbv

end Archive

end LlvmBootstrap
