import LlvmBootstrap.Tar.Members

/-!
A tar stream with more behind it. Reading goes from member to member and never looks ahead, so
what comes behind is read where the stream ends between two members, and only there: behind an
end marker nothing more is read.
-/

namespace LlvmBootstrap.Tar

variable {s rest more : Bytes} {h : Header} {p : Pending}

/-! ### Members with holes -/

theorem take_blockSize_append (hlen : blockSize ≤ s.length) (more : Bytes) :
    (s ++ more).take blockSize = s.take blockSize :=
  List.take_append_of_le_length hlen

theorem drop_blockSize_append (hlen : blockSize ≤ s.length) :
    (s ++ more).drop blockSize = s.drop blockSize ++ more :=
  List.drop_append_of_le_length hlen

theorem Sparse.readMore?_append {size : Nat} {announced : Bool} {p q : Progress}
    (hq : readMore? size announced p s = some (q, rest)) (more : Bytes) :
    readMore? size announced p (s ++ more) = some (q, rest ++ more) := by
  fun_induction readMore? size announced p s with
  | case1 announced p s hlast =>
      obtain ⟨rfl, rfl⟩ := Prod.mk.inj (Option.some.inj hq)
      rw [readMore?, if_pos hlast]
  | case2 => contradiction
  | case3 announced p s hlast hlen block ih =>
      obtain ⟨p', hadd, hrest⟩ := Option.bind_eq_some_iff.mp hq
      rw [readMore?, if_neg hlast, if_neg (by rw [List.length_append]; omega)]
      refine Option.bind_eq_some_iff.mpr ⟨p', ?_, ?_⟩
      · rw [take_blockSize_append (by omega) more]
        exact hadd
      · rw [take_blockSize_append (by omega) more, drop_blockSize_append (by omega)]
        exact ih p' hrest

theorem pieces?_append {ps : List Sparse.Piece} (hp : pieces? h s = some (ps, rest))
    (more : Bytes) :
    pieces? h (s ++ more) = some (ps, rest ++ more) := by
  unfold pieces? at hp ⊢
  split at hp
  · next hsparse =>
    rw [if_pos hsparse]
    unfold Sparse.read? at hp ⊢
    obtain ⟨_, hformat, hp⟩ := Option.bind_eq_some_iff.mp hp
    obtain ⟨p, hentries, hp⟩ := Option.bind_eq_some_iff.mp hp
    obtain ⟨⟨q, left⟩, hmore, hp⟩ := Option.bind_eq_some_iff.mp hp
    obtain ⟨_, hsize, hp⟩ := Option.bind_eq_some_iff.mp hp
    obtain ⟨_, hused, heq⟩ := Option.bind_eq_some_iff.mp hp
    cases heq
    refine Option.bind_eq_some_iff.mpr
      ⟨_, hformat, Option.bind_eq_some_iff.mpr ⟨p, hentries, ?_⟩⟩
    refine Option.bind_eq_some_iff.mpr ⟨_, Sparse.readMore?_append hmore more, ?_⟩
    exact Option.bind_eq_some_iff.mpr ⟨_, hsize, Option.bind_eq_some_iff.mpr ⟨_, hused, rfl⟩⟩
  · next hsparse =>
    rw [if_neg hsparse]
    cases hp
    rfl

theorem le_padded (size : Nat) : size ≤ padded size := by
  unfold padded blockSize
  omega

/-! ### Streams -/

theorem readFrom_header {broken : Bool} {ps : List Sparse.Piece} (hlen : blockSize ≤ s.length)
    (hblock : ¬ (s.take blockSize).all (· = 0) = true)
    (hh : nextHeader? p (s.take blockSize) = some h)
    (hp : pieces? h (s.drop blockSize) = some (ps, rest)) :
    readFrom broken p s =
      match p.add? h (rest.take h.size) with
      | .none => ⟨[], true⟩
      | some (some q) =>
        if rest.length < padded h.size then ⟨[], true⟩
          else readFrom broken q (rest.drop (padded h.size))
      | some .none =>
        (if rest.length < padded h.size then ⟨[], true⟩
          else readFrom broken .none (rest.drop (padded h.size))).cons
            (member p h (Sparse.expand ps (rest.take h.size))) := by
  have hne : s ≠ [] := by
    rintro rfl
    exact absurd hlen (by decide)
  rw [readFrom, if_neg hne, dif_neg (by omega), if_neg hblock]
  simp only [hh]
  split
  · next hnone =>
    rw [hp] at hnone
    contradiction
  · next ps' rest' hsome =>
    rw [hp] at hsome
    obtain ⟨rfl, rfl⟩ := Prod.mk.inj (Option.some.inj hsome)
    rfl

/-- With all of the data there, nothing before the next header depends
on what stands behind. -/
theorem readFrom_header_append {broken : Bool} {ps : List Sparse.Piece}
    (hlen : blockSize ≤ s.length) (hblock : ¬ (s.take blockSize).all (· = 0) = true)
    (hh : nextHeader? p (s.take blockSize) = some h)
    (hp : pieces? h (s.drop blockSize) = some (ps, rest))
    (hwhole : padded h.size ≤ rest.length) (more : Bytes) :
    readFrom broken p (s ++ more) =
      match p.add? h (rest.take h.size) with
      | .none => ⟨[], true⟩
      | some (some q) => readFrom broken q (rest.drop (padded h.size) ++ more)
      | some .none =>
        (readFrom broken .none (rest.drop (padded h.size) ++ more)).cons
          (member p h (Sparse.expand ps (rest.take h.size))) := by
  have hhead := take_blockSize_append hlen more
  have hpieces := pieces?_append hp more
  rw [← drop_blockSize_append hlen] at hpieces
  rw [readFrom_header (by rw [List.length_append]; omega) (by rwa [hhead])
    (by rwa [hhead]) hpieces,
    List.take_append_of_le_length (Nat.le_trans (le_padded h.size) hwhole),
    List.drop_append_of_le_length hwhole]
  simp only [if_neg
    (show ¬ (rest ++ more).length < padded h.size by rw [List.length_append]; omega)]

def Members.append (a b : Members) : Members := ⟨a.list ++ b.list, b.damaged⟩

/-- What becomes of a stream's members when more stands behind it. An end marker closes the
stream, and nothing behind it is read; without one the members behind come next. -/
inductive Ends (p : Pending) (s : Bytes) : Prop where
  | damaged (h : (readFrom false p s).damaged = true)
  | closed (h : ∀ broken more, readFrom broken p (s ++ more) = readFrom false p s)
  | unclosed (hsound : (readFrom false p s).damaged = false)
      (h : ∀ broken more, readFrom broken p (s ++ more) =
        (readFrom false p s).append (readFrom broken .none more))

theorem Ends.of_describing {q : Pending} (hends : Ends q rest)
    (heq : ∀ broken more, readFrom broken p (s ++ more) = readFrom broken q (rest ++ more)) :
    Ends p s := by
  have hs : readFrom false p s = readFrom false q rest := by
    simpa only [List.append_nil] using heq false []
  cases hends with
  | damaged h => exact .damaged (by rw [hs, h])
  | closed h => exact .closed fun broken more => by rw [heq, hs, h]
  | unclosed hsound h =>
      exact .unclosed (by rw [hs, hsound]) fun broken more => by rw [heq, hs, h]

theorem Ends.of_member {m : Member} (hends : Ends .none rest)
    (heq : ∀ broken more,
      readFrom broken p (s ++ more) = (readFrom broken .none (rest ++ more)).cons m) :
    Ends p s := by
  have hs : readFrom false p s = (readFrom false .none rest).cons m := by
    simpa only [List.append_nil] using heq false []
  cases hends with
  | damaged h => exact .damaged (by rw [hs]; exact h)
  | closed h => exact .closed fun broken more => by rw [heq, hs, h]
  | unclosed hsound h =>
      exact .unclosed (by rw [hs]; exact hsound) fun broken more => by rw [heq, hs, h]; rfl

/-- By the members of the stream. Only where it ends in front of a header does it stay open. -/
theorem ends (p : Pending) (s : Bytes) : Ends p s := by
  fun_induction readFrom false p s with
  | case1 p =>
      by_cases hp : p = .none
      · subst hp
        exact .unclosed (by simp [readFrom]) fun broken more => by
          simp [readFrom.eq_def false, Members.append]
      · exact .damaged (by simp [readFrom, hp])
  | case2 p s hne hlen => exact .damaged (by rw [readFrom, if_neg hne, dif_pos hlen])
  | case3 p s hne hlen block hzeros =>
      -- An end marker: the stream is read the same whatever comes
      -- behind, also if that is nothing.
      have hclosed : ∀ broken more, readFrom broken p (s ++ more) = ⟨[], decide (p ≠ .none)⟩ :=
        fun broken more => by
          rw [readFrom, if_neg (by simp [hne]), dif_neg (by rw [List.length_append]; omega),
            take_blockSize_append (by omega) more, if_pos hzeros]
      refine .closed fun broken more => ?_
      rw [hclosed, ← hclosed false [], List.append_nil]
  | case4 p s hne hlen block hzeros hnone =>
      refine .damaged ?_
      rw [readFrom, if_neg hne, dif_neg hlen, if_neg hzeros]
      simp only [hnone, block]
  | case5 p s hne hlen block hzeros h hh hnone =>
      refine .damaged ?_
      rw [readFrom, if_neg hne, dif_neg hlen, if_neg hzeros]
      simp only [hh, block]
      split
      · rfl
      · simp_all
  | case6 p s hne hlen block hzeros h hh ps rest hp _ hadd =>
      refine .damaged ?_
      rw [readFrom_header (by omega) hzeros hh hp, hadd]
  | case7 p s hne hlen block hzeros h hh ps rest hp _ isCut q hadd hcut =>
      refine .damaged ?_
      rw [readFrom_header (by omega) hzeros hh hp, hadd]
      exact congrArg Members.damaged (if_pos hcut)
  -- All data is there; the header describes the next member, or is that of one.
  | case8 p s hne hlen block hzeros h hh ps rest hp _ isCut q hadd hcut ih =>
      refine ih.of_describing fun broken more => ?_
      rw [readFrom_header_append (by omega) hzeros hh hp (by omega), hadd]
  | case9 p s hne hlen block hzeros h hh ps rest hp _ isCut hadd ih =>
      by_cases hcut : isCut
      · refine .damaged ?_
        rw [readFrom_header (by omega) hzeros hh hp, hadd]
        exact congrArg (fun ms => (Members.cons _ ms).damaged) (if_pos hcut)
      · refine (ih hcut).of_member (m := member p h (Sparse.expand ps (rest.take h.size)))
          fun broken more => ?_
        rw [readFrom_header_append (by omega) hzeros hh hp (by omega), hadd]

end LlvmBootstrap.Tar
