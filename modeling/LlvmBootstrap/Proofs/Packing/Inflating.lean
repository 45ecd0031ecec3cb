import LlvmBootstrap.Packing.Deflate

/-!
What comes behind a deflated stream makes no difference. Each reader takes its bits from the
front and never looks further, so with more octets behind a sound stream the same is inflated
and more is left over.
-/

namespace LlvmBootstrap.Deflate

/-! ### Readers -/

/-- A reader that never looks behind what it takes: with more bits behind, it reads the same
and leaves those bits as well. -/
structure TakesOnly {α : Type} (f : Bits → Option (α × Bits)) : Prop where
  append : ∀ {bs a rest}, f bs = some (a, rest) →
    ∀ more, f (bs ++ more) = some (a, rest ++ more)

namespace TakesOnly

variable {α β γ : Type}

theorem pure (a : α) : TakesOnly fun bs => some (a, bs) where
  append h more := by
    obtain ⟨rfl, rfl⟩ := Prod.mk.inj (Option.some.inj h)
    rfl

theorem none : TakesOnly fun _ => (Option.none : Option (α × Bits)) where
  append h := by contradiction

/-- What a reader in front has read, and that it reads the same with more bits behind. -/
theorem of_bind {f : Bits → Option (α × Bits)} {g : α × Bits → Option β} {bs : Bits} {b : β}
    (hf : TakesOnly f) (h : (f bs >>= g) = some b) (more : Bits) :
    ∃ a rest, f (bs ++ more) = some (a, rest ++ more) ∧ g (a, rest) = some b := by
  obtain ⟨⟨a, rest⟩, ha, hb⟩ := Option.bind_eq_some_iff.mp h
  exact ⟨a, rest, hf.append ha more, hb⟩

theorem bind {f : Bits → Option (α × Bits)} {g : α × Bits → Option (β × Bits)}
    (hf : TakesOnly f) (hg : ∀ a, TakesOnly fun bs => g (a, bs)) :
    TakesOnly fun bs => f bs >>= g where
  append h more := by
    obtain ⟨a, rest, ha, hb⟩ := hf.of_bind h more
    exact Option.bind_eq_some_iff.mpr ⟨(a, rest ++ more), ha, (hg a).append hb more⟩

/-- A part in between that takes nothing. -/
theorem given (x : Option γ) {g : γ → Bits → Option (β × Bits)} (hg : ∀ c, TakesOnly (g c)) :
    TakesOnly fun bs => x >>= fun c => g c bs where
  append h more := by
    obtain ⟨c, hc, hb⟩ := Option.bind_eq_some_iff.mp h
    exact Option.bind_eq_some_iff.mpr ⟨c, hc, (hg c).append hb more⟩

theorem ite {c : Prop} [Decidable c] {f g : Bits → Option (α × Bits)} (hf : TakesOnly f)
    (hg : TakesOnly g) : TakesOnly fun bs => if c then f bs else g bs := by
  by_cases hc : c
  · simpa only [if_pos hc] using hf
  · simpa only [if_neg hc] using hg

end TakesOnly

theorem number?_takesOnly (n : Nat) : TakesOnly (number? n) := by
  induction n with
  | zero => exact .pure 0
  | succ n ih =>
      refine ⟨fun {bs a rest} h more => ?_⟩
      cases bs with
      | nil => contradiction
      | cons b bs =>
          obtain ⟨⟨m, left⟩, hm, heq⟩ := Option.map_eq_some_iff.mp h
          obtain ⟨rfl, rfl⟩ := Prod.mk.inj heq
          exact Option.map_eq_some_iff.mpr ⟨_, ih.append hm more, rfl⟩

theorem Code.read?_takesOnly (c : Code) : TakesOnly c.read? := by
  refine ⟨fun {bs s rest} h more => ?_⟩
  fun_induction Code.read? c bs with
  | case1 s bs =>
      obtain ⟨rfl, rfl⟩ := Prod.mk.inj (Option.some.inj h)
      simp [Code.read?]
  | case2 z o bs ih => exact ih h
  | case3 z o bs ih => exact ih h
  | case4 => contradiction
  | case5 => contradiction

theorem tableValue?_takesOnly (table : List (Nat × Nat)) (i : Nat) :
    TakesOnly (tableValue? table i) := by
  refine .given _ fun p => ?_
  exact .bind (number?_takesOnly p.2) fun n => .pure _

theorem step?_takesOnly (literals distances : Code) :
    TakesOnly (step? literals distances) := by
  refine .bind literals.read?_takesOnly fun s => ?_
  refine .ite (.pure _) (.ite (.pure _) ?_)
  refine .bind (tableValue?_takesOnly ..) fun length => ?_
  refine .bind distances.read?_takesOnly fun d => ?_
  exact .bind (tableValue?_takesOnly ..) fun distance => .pure _

theorem numbers?_takesOnly (n width : Nat) : TakesOnly (numbers? n width) := by
  induction n with
  | zero => exact .pure []
  | succ n ih => exact .bind (number?_takesOnly width) fun x => .bind ih fun xs => .pure _

theorem codeLengths?_takesOnly (code : Code) (count fuel : Nat) (acc : List Nat) :
    TakesOnly (codeLengths? code count fuel acc) := by
  induction fuel generalizing acc with
  | zero => exact .none
  | succ fuel ih =>
      refine .ite (.pure acc) (.ite .none ?_)
      refine .bind code.read?_takesOnly fun s => ?_
      refine .ite (ih _) (.ite ?_ (.ite ?_ ?_))
      · exact .given _ fun last => .bind (number?_takesOnly 2) fun n => ih _
      · exact .bind (number?_takesOnly 3) fun n => ih _
      · exact .bind (number?_takesOnly 7) fun n => ih _

theorem writtenCodes?_append {bs rest : Bits} {literals distances : Code}
    (h : writtenCodes? bs = some (literals, distances, rest)) (more : Bits) :
    writtenCodes? (bs ++ more) = some (literals, distances, rest ++ more) := by
  unfold writtenCodes? at h ⊢
  obtain ⟨l, bs₁, h₁, h⟩ := (number?_takesOnly 5).of_bind h more
  obtain ⟨d, bs₂, h₂, h⟩ := (number?_takesOnly 5).of_bind h more
  obtain ⟨n, bs₃, h₃, h⟩ := (number?_takesOnly 4).of_bind h more
  obtain ⟨_, hl, h⟩ := Option.bind_eq_some_iff.mp h
  obtain ⟨_, hd, h⟩ := Option.bind_eq_some_iff.mp h
  obtain ⟨written, bs₄, h₄, h⟩ := (numbers?_takesOnly _ 3).of_bind h more
  obtain ⟨_, hspace, h⟩ := Option.bind_eq_some_iff.mp h
  obtain ⟨code, hcode, h⟩ := Option.bind_eq_some_iff.mp h
  obtain ⟨acc, bs₅, h₅, h⟩ := (codeLengths?_takesOnly ..).of_bind h more
  obtain ⟨_, hstop, h⟩ := Option.bind_eq_some_iff.mp h
  obtain ⟨lit, hlit, h⟩ := Option.bind_eq_some_iff.mp h
  obtain ⟨dist, hdist, heq⟩ := Option.bind_eq_some_iff.mp h
  cases heq
  refine Option.bind_eq_some_iff.mpr ⟨_, h₁, Option.bind_eq_some_iff.mpr ⟨_, h₂, ?_⟩⟩
  refine Option.bind_eq_some_iff.mpr ⟨_, h₃, Option.bind_eq_some_iff.mpr ⟨_, hl, ?_⟩⟩
  refine Option.bind_eq_some_iff.mpr ⟨_, hd, Option.bind_eq_some_iff.mpr ⟨_, h₄, ?_⟩⟩
  refine Option.bind_eq_some_iff.mpr ⟨_, hspace, Option.bind_eq_some_iff.mpr ⟨_, hcode, ?_⟩⟩
  refine Option.bind_eq_some_iff.mpr ⟨_, h₅, Option.bind_eq_some_iff.mpr ⟨_, hstop, ?_⟩⟩
  exact Option.bind_eq_some_iff.mpr ⟨_, hlit, Option.bind_eq_some_iff.mpr ⟨_, hdist, rfl⟩⟩

theorem lengths?_takesOnly : TakesOnly stored.lengths? := by
  refine .bind (number?_takesOnly 16) fun n => .bind (number?_takesOnly 16) fun m => ?_
  exact .given _ fun _ => .pure n

/-! ### Blocks -/

def Progress.before (p : Progress) (more : Bits) : Progress :=
  { p with rest := p.rest ++ more }

theorem copy_append {n : Nat} {out : Bytes} {bs : Bits}
    (h : (stored.copy n out bs).sound = true) (more : Bits) :
    stored.copy n out (bs ++ more) = (stored.copy n out bs).before more := by
  induction n generalizing out bs with
  | zero => rfl
  | succ n ih =>
      rw [stored.copy] at h ⊢
      cases hb : number? 8 bs with
      | none =>
          rw [hb] at h
          contradiction
      | some p =>
          obtain ⟨b, rest⟩ := p
          rw [hb] at h
          rw [(number?_takesOnly 8).append hb more, stored.copy, hb]
          exact ih h

/-- A stored block starts at the next octet, wherever that is counted from the end. -/
theorem stored_append {out : Bytes} {bs more : Bits} (h : (stored out bs).sound = true)
    (hmore : more.length % 8 = 0) : stored out (bs ++ more) = (stored out bs).before more := by
  have halign : (bs ++ more).length % 8 = bs.length % 8 := by
    rw [List.length_append]
    omega
  unfold stored at h ⊢
  rw [halign, List.drop_append_of_le_length (Nat.mod_le _ 8)]
  cases hn : stored.lengths? (bs.drop (bs.length % 8)) with
  | none =>
      rw [hn] at h
      contradiction
  | some p =>
      obtain ⟨n, rest⟩ := p
      rw [hn] at h
      rw [lengths?_takesOnly.append hn more]
      exact copy_append h more

theorem compressed_append {literals distances : Code} {fuel fuel' : Nat}
    {out : Bytes} {bs : Bits} (h : (compressed literals distances fuel out bs).sound = true)
    (hfuel : fuel ≤ fuel') (more : Bits) :
    compressed literals distances fuel' out (bs ++ more) =
      (compressed literals distances fuel out bs).before more := by
  -- A longer stream comes with more fuel. What was sound did not run out of it.
  induction fuel generalizing fuel' out bs with
  | zero => contradiction
  | succ fuel ih =>
      obtain ⟨k, rfl⟩ : ∃ k, fuel' = k + 1 := ⟨fuel' - 1, by omega⟩
      have hle : fuel ≤ k := Nat.le_of_succ_le_succ hfuel
      rw [compressed] at h ⊢
      rw [compressed]
      cases hs : step? literals distances bs with
      | none =>
          rw [hs] at h
          contradiction
      | some p =>
          obtain ⟨step, rest⟩ := p
          rw [hs] at h
          rw [(step?_takesOnly ..).append hs more]
          cases step with
          | stop => rfl
          | literal b => exact ih h hle
          | back distance length =>
              dsimp only at h ⊢
              split at h
              · next hback =>
                rw [if_pos hback, if_pos hback]
                exact ih h hle
              · contradiction

/-- A block, for which the number of bits left may be greater. -/
theorem block_append {out : Bytes} {bs more : Bits} (h : (block out bs).2.sound = true)
    (hmore : more.length % 8 = 0) :
    block out (bs ++ more) = ((block out bs).1, (block out bs).2.before more) := by
  have hfuel : ∀ bs : Bits, bs.length + 1 ≤ (bs ++ more).length + 1 := fun bs => by
    rw [List.length_append]
    omega
  unfold block at h ⊢
  -- The fixed codes are large terms that must not be opened here.
  generalize Code.ofLengths? fixedLiterals = literals at h ⊢
  generalize Code.ofLengths? fixedDistances = distances at h ⊢
  cases hlast : number? 1 bs with
  | none =>
      rw [hlast] at h
      contradiction
  | some p =>
      obtain ⟨last, bs₁⟩ := p
      rw [hlast] at h
      rw [(number?_takesOnly 1).append hlast more]
      dsimp only at h ⊢
      cases hkind : number? 2 bs₁ with
      | none =>
          rw [hkind] at h
          contradiction
      | some p =>
          obtain ⟨kind, bs₂⟩ := p
          rw [hkind] at h
          rw [(number?_takesOnly 2).append hkind more]
          match kind with
          | 0 =>
              change (decide (last = 1), stored out (bs₂ ++ more)) =
                (decide (last = 1), (stored out bs₂).before more)
              rw [stored_append h hmore]
          | 1 =>
              match literals, distances with
              | some l, some d =>
                  change (decide (last = 1),
                    compressed l d ((bs₂ ++ more).length + 1) out (bs₂ ++ more)) =
                      (decide (last = 1), (compressed l d (bs₂.length + 1) out bs₂).before more)
                  rw [compressed_append h (hfuel bs₂) more]
              | none, _ | some _, none => contradiction
          | 2 =>
              -- The codes are read from the bits first, and what is read
              -- does not depend on what follows.
              cases hcodes : writtenCodes? bs₂ with
              | none =>
                  simp [hcodes] at h
              | some c =>
                  obtain ⟨l, d, bs₃⟩ := c
                  simp only [hcodes] at h
                  simp only [writtenCodes?_append hcodes more, hcodes]
                  rw [compressed_append h (hfuel bs₃) more]
          | _ + 3 => contradiction

theorem blocks_append {fuel fuel' : Nat} {out : Bytes} {bs more : Bits}
    (h : (blocks fuel out bs).sound = true) (hfuel : fuel ≤ fuel')
    (hmore : more.length % 8 = 0) :
    blocks fuel' out (bs ++ more) = (blocks fuel out bs).before more := by
  induction fuel generalizing fuel' out bs with
  | zero => contradiction
  | succ fuel ih =>
      obtain ⟨k, rfl⟩ : ∃ k, fuel' = k + 1 := ⟨fuel' - 1, by omega⟩
      have hle : fuel ≤ k := Nat.le_of_succ_le_succ hfuel
      rw [blocks] at h ⊢
      rw [blocks]
      dsimp only at h ⊢
      cases hsound : (block out bs).2.sound with
      | false =>
          simp [hsound] at h
      | true =>
          rw [block_append hsound hmore]
          cases hlast : (block out bs).1 with
          | true => rfl
          | false =>
              simp only [hlast, hsound, Progress.before, Bool.not_true, Bool.or_self,
                Bool.false_eq_true, if_false] at h ⊢
              exact ih h hle

/-! ### Octets -/

theorem bits_append (bs more : Bytes) : bits (bs ++ more) = bits bs ++ bits more :=
  List.flatMap_append

theorem length_bits (bs : Bytes) : (bits bs).length = 8 * bs.length := by
  induction bs with
  | nil => rfl
  | cons b bs ih =>
      rw [bits, List.flatMap_cons, List.length_append, ← bits, ih]
      simp only [bitsOf, List.length_map, List.length_range, List.length_cons]
      omega

/-- Octets behind a sound stream are left over. -/
theorem inflate_append {bs : Bytes} (h : (inflate bs).sound = true) (more : Bytes) :
    inflate (bs ++ more) = { inflate bs with rest := (inflate bs).rest ++ more } := by
  have hfuel : 8 * bs.length + 1 ≤ 8 * (bs.length + more.length) + 1 := by omega
  have hmore : (bits more).length % 8 = 0 := by
    rw [length_bits]
    omega
  have hblocks := blocks_append h hfuel hmore
  simp only [inflate, bits_append, hblocks, Progress.before, List.length_append, length_bits]
  rw [Nat.add_mul_div_left _ _ (by decide), Nat.add_sub_add_right,
    List.drop_append_of_le_length (Nat.sub_le ..)]

end LlvmBootstrap.Deflate
