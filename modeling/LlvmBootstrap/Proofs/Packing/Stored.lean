import LlvmBootstrap.Proofs.Packing.Members

/-!
Packing without compression: a gzip member whose data is one stored block. So whatever fits
into such a block can be packed, and is unpacked again as it was.
-/

namespace LlvmBootstrap

/-! ### Numbers in octets -/

/-- A number in `n` octets, the lowest first. What does not fit is left out. -/
def octetsOf : Nat → Nat → Bytes
  | 0, _ => []
  | n + 1, x => UInt8.ofNat x :: octetsOf n (x / 256)

@[simp] theorem length_octetsOf (n x : Nat) : (octetsOf n x).length = n := by
  induction n generalizing x with
  | zero => rfl
  | succ n ih => rw [octetsOf, List.length_cons, ih]

theorem Gzip.number_octetsOf {n x : Nat} (h : x < Nat.pow 256 n) :
    number (octetsOf n x) = x := by
  induction n generalizing x with
  | zero =>
      have hx : x = 0 := by simpa using h
      rw [hx]
      rfl
  | succ n ih =>
      have hdiv : x / 256 < Nat.pow 256 n := Nat.div_lt_of_lt_mul (by rwa [Nat.mul_comm])
      have hrest := ih hdiv
      rw [number] at hrest ⊢
      rw [octetsOf, List.foldr_cons, hrest, UInt8.toNat_ofNat']
      exact Nat.div_add_mod' x 256

namespace Deflate

/-- A number of more bits goes on behind the first ones. -/
theorem number?_add {m x : Nat} {bs rest : Bits}
    (h : number? m bs = some (x, rest)) (n : Nat) :
    number? (n + m) bs = (number? n rest).map fun q => (x + Nat.pow 2 m * q.1, q.2) := by
  induction m generalizing bs x with
  | zero =>
      obtain ⟨rfl, rfl⟩ := Prod.mk.inj (Option.some.inj h)
      simp
  | succ m ih =>
      cases bs with
      | nil => contradiction
      | cons b bs =>
          obtain ⟨⟨y, left⟩, hy, heq⟩ := Option.map_eq_some_iff.mp h
          obtain ⟨rfl, rfl⟩ := Prod.mk.inj heq
          rw [← Nat.add_assoc, number?, ih hy, Option.map_map]
          congr 1
          funext q
          simp only [Function.comp_apply, Nat.pow_eq, Nat.pow_succ, Nat.mul_comm _ 2,
            Nat.mul_assoc, Prod.mk.injEq, and_true]
          omega

theorem number?_bitsOf (b : UInt8) (more : Bits) :
    number? 8 (bitsOf b ++ more) = some (b.toNat, more) := by
  -- There are 256 octets, and each is read back.
  have hall : ∀ n < 256, number? 8 ((List.range 8).map fun i => n.testBit i) =
      some (n, []) := by
    decide +kernel
  exact (number?_takesOnly 8).append (hall b.toNat b.toNat_lt) more

theorem number?_bits_octetsOf {n x : Nat} (h : x < Nat.pow 256 n) (more : Bits) :
    number? (8 * n) (bits (octetsOf n x) ++ more) = some (x, more) := by
  induction n generalizing x with
  | zero =>
      have hx : x = 0 := by simpa using h
      rw [hx]
      rfl
  | succ n ih =>
      have hdiv : x / 256 < Nat.pow 256 n := Nat.div_lt_of_lt_mul (by rwa [Nat.mul_comm])
      rw [octetsOf, bits, List.flatMap_cons, List.append_assoc, Nat.mul_succ,
        number?_add (number?_bitsOf ..), ← bits, ih hdiv, UInt8.toNat_ofNat']
      exact congrArg (fun y => some (y, more)) (Nat.mod_add_div x 256)

/-! ### Stored blocks -/

theorem copy_bits (bytes out : Bytes) (more : Bits) :
    stored.copy bytes.length out (bits bytes ++ more) =
      ⟨bytes.reverse ++ out, more, true⟩ := by
  induction bytes generalizing out with
  | nil => rfl
  | cons b bytes ih =>
      rw [bits, List.flatMap_cons, List.append_assoc, List.length_cons, stored.copy,
        number?_bitsOf, ← bits]
      dsimp only
      rw [UInt8.ofNat_toNat, ih, List.reverse_cons, List.append_assoc]
      rfl

/-- What stands in front of the octets of a stored block: their number, and its complement. -/
def lengthField (n : Nat) : Bytes := octetsOf 2 n ++ octetsOf 2 (0xFFFF - n)

theorem lengths?_lengthField {n : Nat} (h : n < Nat.pow 256 2) (more : Bits) :
    stored.lengths? (bits (lengthField n) ++ more) = some (n, more) := by
  have hcomplement : 0xFFFF - n < Nat.pow 256 2 :=
    Nat.lt_of_le_of_lt (Nat.sub_le ..) (by decide)
  have hsum : n + (0xFFFF - n) = 0xFFFF := Nat.add_sub_cancel' (Nat.le_of_lt_succ h)
  rw [stored.lengths?, lengthField, bits_append, List.append_assoc]
  refine Option.bind_eq_some_iff.mpr ⟨_, number?_bits_octetsOf h _, ?_⟩
  refine Option.bind_eq_some_iff.mpr ⟨_, number?_bits_octetsOf hcomplement more, ?_⟩
  exact Option.bind_eq_some_iff.mpr ⟨(), if_pos hsum, rfl⟩

def storedBlock (bytes : Bytes) : Bytes := 1 :: (lengthField bytes.length ++ bytes)

theorem block_storedBlock {bytes : Bytes} (h : bytes.length < Nat.pow 256 2) (more : Bytes) :
    block [] (bits (storedBlock bytes ++ more)) =
      (true, ⟨bytes.reverse, bits more, true⟩) := by
  have hbits : bits (storedBlock bytes ++ more) =
      true :: false :: false :: (List.replicate 5 false ++
      (bits (lengthField bytes.length) ++ (bits bytes ++ bits more))) := by
    rw [storedBlock, List.cons_append, bits, List.flatMap_cons, ← bits,
      bits_append, bits_append, List.append_assoc]
    rfl
  have halign : (List.replicate 5 false ++ (bits (lengthField bytes.length) ++
      (bits bytes ++ bits more))).length % 8 = 5 := by
    rw [List.length_append, List.length_append, List.length_append, length_bits,
      length_bits, length_bits, List.length_replicate]
    omega
  have hstored : stored [] (List.replicate 5 false ++ (bits (lengthField bytes.length) ++
      (bits bytes ++ bits more))) = ⟨bytes.reverse, bits more, true⟩ := by
    rw [stored, halign, List.drop_left' (List.length_replicate ..), lengths?_lengthField h]
    dsimp only
    rw [copy_bits, List.append_nil]
  rw [hbits]
  exact congrArg (Prod.mk true) hstored

theorem inflate_storedBlock {bytes : Bytes} (h : bytes.length < Nat.pow 256 2) (more : Bytes) :
    inflate (storedBlock bytes ++ more) = ⟨bytes, more, true⟩ := by
  have hlen : (storedBlock bytes ++ more).length - 8 * more.length / 8 =
      (storedBlock bytes).length := by
    rw [List.length_append]
    omega
  rw [inflate, blocks, block_storedBlock h]
  simp only [Bool.true_or, if_true]
  rw [length_bits, hlen, List.drop_left, List.reverse_reverse]

end Deflate

/-! ### Members -/

theorem Crc.bitStep_lt {poly r n : Nat} (hp : poly < Nat.pow 2 n) (hr : r < Nat.pow 2 n) :
    bitStep poly r < Nat.pow 2 n := by
  have hhalf : r / 2 < Nat.pow 2 n := Nat.lt_of_le_of_lt (Nat.div_le_self r 2) hr
  rw [bitStep]
  split
  · exact Nat.xor_lt_two_pow hhalf hp
  · exact hhalf

theorem Crc.byteStep_lt {poly r n : Nat} (hp : poly < Nat.pow 2 n)
    (hr : r < Nat.pow 2 n) (hn : 8 ≤ n) (b : UInt8) : byteStep poly r b < Nat.pow 2 n := by
  have hb : b.toNat < Nat.pow 2 n :=
    Nat.lt_of_lt_of_le b.toNat_lt (Nat.pow_le_pow_right (by decide) hn)
  have hrepeat : ∀ m, Nat.repeat (bitStep poly) m (r ^^^ b.toNat) < Nat.pow 2 n := fun m => by
    induction m with
    | zero => exact Nat.xor_lt_two_pow hr hb
    | succ m ih => exact bitStep_lt hp ih
  exact hrepeat 8

theorem Crc.compute_lt (k : Kind) (hp : k.polynomial < Nat.pow 2 k.width) (hk : 8 ≤ k.width)
    (bs : Bytes) :
    compute k bs < Nat.pow 2 k.width := by
  have hones : ones k < Nat.pow 2 k.width := Nat.sub_lt (Nat.two_pow_pos _) (by decide)
  have hfold : bs.foldl (byteStep k.polynomial) (ones k) < Nat.pow 2 k.width := by
    generalize ones k = r at hones
    induction bs generalizing r with
    | nil => exact hones
    | cons b bs ih => exact ih _ (byteStep_lt hp hones hk b)
  exact Nat.xor_lt_two_pow hfold hones

namespace Gzip

def storedMember (bytes : Bytes) : Bytes :=
  [0x1F, 0x8B, 8, 0, 0, 0, 0, 0, 0, 255] ++ (Deflate.storedBlock bytes ++
    (octetsOf 4 (Crc.compute Crc.crc32 bytes) ++ octetsOf 4 bytes.length))

theorem isMember_storedMember {bytes : Bytes} (h : bytes.length < Nat.pow 256 2) :
    IsMember (storedMember bytes) bytes := by
  have hbody : body? (storedMember bytes) = some (Deflate.storedBlock bytes ++
      (octetsOf 4 (Crc.compute Crc.crc32 bytes) ++ octetsOf 4 bytes.length)) := by
    refine (body?_eq 0 _).trans (Option.bind_eq_some_iff.mpr ⟨(), if_pos (by decide), ?_⟩)
    exact Option.bind_eq_some_iff.mpr ⟨_, if_pos (by simp), rfl⟩
  have hcrc : Crc.compute Crc.crc32 bytes < Nat.pow 256 4 :=
    Crc.compute_lt Crc.crc32 (by decide) (by decide) bytes
  have hlen : bytes.length < Nat.pow 256 4 := Nat.lt_trans h (by decide)
  have hfits : trailerFits bytes
      (octetsOf 4 (Crc.compute Crc.crc32 bytes) ++ octetsOf 4 bytes.length) =
        true := by
    rw [trailerFits, List.take_left' (length_octetsOf ..),
      List.drop_left' (length_octetsOf ..), List.take_of_length_le
        (Nat.le_of_eq (length_octetsOf ..)), number_octetsOf hcrc, number_octetsOf hlen]
    simp [Nat.mod_eq_of_lt (show bytes.length < Numeral.limit 32 from hlen)]
  refine ⟨_, hbody, ?_⟩
  rw [Deflate.inflate_storedBlock h]
  exact ⟨rfl, rfl, hfits, by simp⟩

end Gzip

end LlvmBootstrap
