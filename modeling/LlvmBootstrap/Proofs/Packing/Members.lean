import LlvmBootstrap.Packing.Gzip
import LlvmBootstrap.Proofs.Packing.Inflating
import Mathlib.Data.List.TakeDrop

/-!
Files of several gzip members, one behind the other. Whatever comes behind the first member,
only that one is unpacked.
-/

namespace LlvmBootstrap.Gzip

variable {all bs rest file bytes : Bytes} {n : Nat}

/-! ### Headers -/

theorem skip?_append (h : skip? n bs = some rest) (more : Bytes) :
    skip? n (bs ++ more) = some (rest ++ more) := by
  rw [skip?] at h ⊢
  split at h
  · next hle =>
    rw [if_pos (by rw [List.length_append]; omega), List.drop_append_of_le_length hle]
    rw [Option.some.inj h]
  · contradiction

theorem take_of_skip? (h : skip? n bs = some rest) (more : Bytes) :
    (bs ++ more).take n = bs.take n := by
  rw [skip?] at h
  split at h
  · next hle => exact List.take_append_of_le_length hle
  · contradiction

theorem span_append {p : UInt8 → Bool} {text tail : Bytes} {b : UInt8}
    (h : bs.span p = (text, b :: tail)) (more : Bytes) :
    (bs ++ more).span p = (text, b :: (tail ++ more)) := by
  rw [List.span_eq_takeWhile_dropWhile] at h ⊢
  obtain ⟨htext, htail⟩ := Prod.mk.inj h
  have hbs : bs = text ++ b :: tail := by
    rw [← htext, ← htail, List.takeWhile_append_dropWhile]
  have hall : ∀ x ∈ text, p x = true := fun x hx => by
    rw [← htext] at hx
    exact List.all_eq_true.mp List.all_takeWhile x hx
  have hb : ¬ p b = true := by
    have hhead := List.head?_dropWhile_not p bs
    rw [htail] at hhead
    simpa using hhead
  rw [hbs, List.append_assoc, List.takeWhile_append_of_pos hall,
    List.dropWhile_append_of_pos hall, List.cons_append, List.takeWhile_cons_of_neg hb,
    List.dropWhile_cons_of_neg hb, List.append_nil]

theorem skipText?_append (h : skipText? bs = some rest) (more : Bytes) :
    skipText? (bs ++ more) = some (rest ++ more) := by
  unfold skipText? at h ⊢
  split at h
  · next text b tail hspan =>
    rw [span_append hspan more]
    dsimp only
    split at h
    · next hlen =>
      rw [if_pos hlen, Option.some.inj h]
    · contradiction
  · contradiction

theorem skipExtra?_append (h : skipExtra? bs = some rest) (more : Bytes) :
    skipExtra? (bs ++ more) = some (rest ++ more) := by
  obtain ⟨field, hfield, hrest⟩ := Option.bind_eq_some_iff.mp h
  refine Option.bind_eq_some_iff.mpr ⟨field ++ more, skip?_append hfield more, ?_⟩
  rw [take_of_skip? hfield]
  exact skip?_append hrest more

theorem skipChecksum?_append (h : skipChecksum? all bs = some rest) (more : Bytes) :
    skipChecksum? (all ++ more) (bs ++ more) = some (rest ++ more) := by
  have hbefore : (all ++ more).take ((all ++ more).length - (bs ++ more).length) =
      all.take (all.length - bs.length) := by
    rw [List.length_append, List.length_append, Nat.add_sub_add_right,
      List.take_append_of_le_length (Nat.sub_le ..)]
  obtain ⟨left, hleft, hrest⟩ := Option.bind_eq_some_iff.mp h
  obtain ⟨u, hfits, heq⟩ := Option.bind_eq_some_iff.mp hrest
  refine Option.bind_eq_some_iff.mpr ⟨left ++ more, skip?_append hleft more, ?_⟩
  rw [take_of_skip? hleft, hbefore]
  refine Option.bind_eq_some_iff.mpr ⟨u, hfits, ?_⟩
  cases heq
  rfl

def skipIf (flag : UInt8) (field : Bytes → Option Bytes) (bs : Bytes) : Option Bytes :=
  if flag ≠ 0 then field bs else some bs

theorem skipIf_append {flag : UInt8} {f g : Bytes → Option Bytes}
    (h : skipIf flag f bs = some rest) (more : Bytes)
    (hf : f bs = some rest → g (bs ++ more) = some (rest ++ more)) :
    skipIf flag g (bs ++ more) = some (rest ++ more) := by
  rw [skipIf] at h ⊢
  split at h
  · next hset =>
    rw [if_pos hset]
    exact hf h
  · next hset =>
    rw [if_neg hset, Option.some.inj h]

theorem ite_bind_eq {flag : UInt8} {f g g' : Bytes → Option Bytes} (h : ∀ bs, g bs = g' bs) :
    (if flag ≠ 0 then f bs >>= g else some bs >>= g) = skipIf flag f bs >>= g' := by
  rw [skipIf, funext h]
  split <;> rfl

theorem body?_eq (flags : UInt8) (bs : Bytes) : body? (0x1F :: 0x8B :: 8 :: flags :: bs) =
    guard (flags &&& 0xE0 = 0) >>= fun _ => skip? 6 bs >>= fun bs₁ =>
      skipIf (flags &&& 4) skipExtra? bs₁ >>= fun bs₂ =>
        skipIf (flags &&& 8) skipText? bs₂ >>= fun bs₃ =>
        skipIf (flags &&& 16) skipText? bs₃ >>=
          skipIf (flags &&& 2) (skipChecksum? (0x1F :: 0x8B :: 8 :: flags :: bs)) := by
  refine bind_congr fun _ => bind_congr fun bs₁ => ?_
  exact ite_bind_eq fun bs₂ => ite_bind_eq fun bs₃ => ite_bind_eq fun bs₄ => rfl

theorem body?_append (h : body? all = some rest) (more : Bytes) :
    body? (all ++ more) = some (rest ++ more) := by
  obtain ⟨flags, bs, rfl⟩ : ∃ flags bs, all = 0x1F :: 0x8B :: 8 :: flags :: bs := by
    unfold body? at h
    split at h
    · exact ⟨_, _, rfl⟩
    · contradiction
  rw [body?_eq] at h
  rw [List.cons_append, List.cons_append, List.cons_append, List.cons_append, body?_eq]
  obtain ⟨u, hflags, h⟩ := Option.bind_eq_some_iff.mp h
  obtain ⟨bs₁, h₁, h⟩ := Option.bind_eq_some_iff.mp h
  obtain ⟨bs₂, h₂, h⟩ := Option.bind_eq_some_iff.mp h
  obtain ⟨bs₃, h₃, h⟩ := Option.bind_eq_some_iff.mp h
  obtain ⟨bs₄, h₄, h⟩ := Option.bind_eq_some_iff.mp h
  refine Option.bind_eq_some_iff.mpr
    ⟨u, hflags, Option.bind_eq_some_iff.mpr ⟨_, skip?_append h₁ more, ?_⟩⟩
  refine Option.bind_eq_some_iff.mpr ⟨_, skipIf_append h₂ more (skipExtra?_append · more), ?_⟩
  refine Option.bind_eq_some_iff.mpr ⟨_, skipIf_append h₃ more (skipText?_append · more), ?_⟩
  refine Option.bind_eq_some_iff.mpr ⟨_, skipIf_append h₄ more (skipText?_append · more), ?_⟩
  exact skipIf_append h more (skipChecksum?_append · more)

/-! ### Members -/

/-- The file is one member: a header, sound data from which `bytes` are inflated, and behind it
the trailer that fits them and nothing else. -/
def IsMember (file bytes : Bytes) : Prop :=
  ∃ packed, body? file = some packed ∧ (Deflate.inflate packed).sound = true ∧
    (Deflate.inflate packed).bytes = bytes ∧
    trailerFits bytes (Deflate.inflate packed).rest = true ∧
    (Deflate.inflate packed).rest.length = 8

theorem trailerFits_append {trailer : Bytes} (h : trailerFits bytes trailer = true)
    (more : Bytes) :
    trailerFits bytes (trailer ++ more) = true := by
  have hlen : 8 ≤ trailer.length := by
    simp only [trailerFits, Bool.and_eq_true, decide_eq_true_eq] at h
    exact h.1.1
  have htake : (trailer ++ more).take 4 = trailer.take 4 :=
    List.take_append_of_le_length (by omega)
  have hdrop : ((trailer ++ more).drop 4).take 4 = (trailer.drop 4).take 4 := by
    rw [List.drop_append_of_le_length (by omega),
      List.take_append_of_le_length (by rw [List.length_drop]; omega)]
  rw [trailerFits, htake, hdrop, List.length_append]
  simp only [trailerFits, Bool.and_eq_true, decide_eq_true_eq] at h ⊢
  exact ⟨⟨by omega, h.1.2⟩, h.2⟩

/-- **Only the first member is unpacked**, whatever comes behind it. -/
theorem unpack_append (h : IsMember file bytes) (more : Bytes) :
    unpack (file ++ more) = ⟨bytes, false⟩ := by
  obtain ⟨packed, hbody, hsound, rfl, hfits, -⟩ := h
  rw [unpack, body?_append hbody more]
  simp only [Deflate.inflate_append hsound more, hsound, trailerFits_append hfits more,
    Bool.and_self, Bool.not_true]

end LlvmBootstrap.Gzip
