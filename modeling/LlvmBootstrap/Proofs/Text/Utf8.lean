import LlvmBootstrap.Text.Utf8
import Mathlib.Data.List.TakeDrop

/-!
Texts and their octets. Reading a text back, strictly or lossily, gives the text; so a lossy
reading keeps just the octets that are those of a text.
-/

namespace LlvmBootstrap.Utf8

theorem encode_of_decode? {bs : Bytes} {s : String} (h : decode? bs = some s) :
    encode s = bs := by
  rw [decode?, String.fromUTF8?] at h
  split at h
  · cases h
    rfl
  · contradiction

theorem decode?_eq_some_iff {bs : Bytes} {s : String} :
    decode? bs = some s ↔ encode s = bs := by
  refine ⟨encode_of_decode?, ?_⟩
  rintro rfl
  exact decode?_encode s

theorem encode_injective : Function.Injective encode := fun s s' h => by
  simpa using congrArg decode? h

theorem encode_eq_flatMap (s : String) :
    encode s = s.toList.flatMap String.utf8EncodeChar := by
  rw [encode, String.toUTF8_eq_toByteArray]
  conv => lhs; rw [← String.ofList_toList (s := s)]
  simp [String.ofList, List.utf8Encode]

@[simp] theorem encode_append (s s' : String) : encode (s ++ s') = encode s ++ encode s' := by
  simp only [encode_eq_flatMap, String.toList_append, List.flatMap_append]

/-! ### Reading a character -/

section Reading

variable {b : UInt8} {tail rest : Bytes} {n : Nat} {lo hi : UInt8}

/-- An octet that can follow others in a character. -/
def Continues (b : UInt8) : Prop := 0x80 ≤ b ∧ b ≤ 0xBF

theorem follow_one (h : b.toNat < 0x80) : follow b = some (0, 0x80, 0xBF) :=
  if_pos (UInt8.lt_iff_toNat_lt.mpr h)

theorem follow_two (h : 0xC2 ≤ b.toNat) (h' : b.toNat < 0xE0) :
    follow b = some (1, 0x80, 0xBF) := by
  simp only [follow, UInt8.lt_iff_toNat_lt, UInt8.reduceToNat]
  rw [if_neg (by omega), if_neg (by omega), if_pos h']

theorem follow_three (h : 0xE0 ≤ b.toNat) (h' : b.toNat < 0xF0) : follow b =
    some (2, if b.toNat = 0xE0 then 0xA0 else 0x80, if b.toNat = 0xED then 0x9F
      else 0xBF) := by
  simp only [follow, UInt8.lt_iff_toNat_lt, ← UInt8.toNat_inj, UInt8.reduceToNat]
  rw [if_neg (by omega), if_neg (by omega), if_neg (by omega)]
  split_ifs <;> first | rfl | omega

theorem follow_four (h : 0xF0 ≤ b.toNat) (h' : b.toNat < 0xF5) : follow b =
    some (3, if b.toNat = 0xF0 then 0x90 else 0x80, if b.toNat = 0xF4 then 0x8F
      else 0xBF) := by
  simp only [follow, UInt8.lt_iff_toNat_lt, ← UInt8.toNat_inj, UInt8.reduceToNat]
  rw [if_neg (by omega), if_neg (by omega), if_neg (by omega), if_neg (by omega),
    if_neg (by omega), if_neg (by omega)]
  split_ifs <;> first | rfl | omega

theorem takeFollow_append (hfirst : ∀ x ∈ tail.head?, lo ≤ x ∧ x ≤ hi)
    (hrest : ∀ x ∈ tail.tail, Continues x) :
    takeFollow tail.length lo hi (tail ++ rest) = (tail, rest) := by
  induction tail generalizing lo hi with
  | nil => rfl
  | cons x tail ih =>
      have hnext : takeFollow tail.length 0x80 0xBF (tail ++ rest) = (tail, rest) :=
        ih (fun y hy => hrest y (List.mem_of_mem_head? hy)) fun y hy =>
          hrest y (List.mem_of_mem_tail hy)
      rw [List.length_cons, List.cons_append, takeFollow, if_pos (hfirst x rfl), hnext]

theorem lossyChars_append (hfollow : follow b = some (tail.length, lo, hi))
    (hfirst : ∀ x ∈ tail.head?, lo ≤ x ∧ x ≤ hi) (hrest : ∀ x ∈ tail.tail, Continues x) :
    lossyChars (b :: (tail ++ rest)) = Char.ofNat (codePoint b tail) :: lossyChars rest := by
  rw [lossyChars, hfollow]
  simp only [takeFollow_append hfirst hrest, if_pos]

theorem toNat_ofNat_of_lt {n : Nat} (h : n < 256) : (UInt8.ofNat n).toNat = n :=
  (UInt8.toNat_ofNat' ..).trans (Nat.mod_eq_of_lt h)

theorem continues_ofNat (n : Nat) : Continues (.ofNat (n % 64 + 0x80)) := by
  simp only [Continues, UInt8.le_iff_toNat_le,
    toNat_ofNat_of_lt (show n % 64 + 0x80 < 256 by omega), UInt8.reduceToNat]
  omega

/-- The octets of a character are read as that character. -/
theorem exists_lead (c : Char) : ∃ b tail lo hi, String.utf8EncodeChar c = b :: tail ∧
    follow b = some (tail.length, lo, hi) ∧ (∀ x ∈ tail.head?, lo ≤ x ∧ x ≤ hi) ∧
    (∀ x ∈ tail.tail, Continues x) ∧ codePoint b tail = c.toNat := by
  have hvalid : c.toNat < 0xD800 ∨ 0xDFFF < c.toNat ∧ c.toNat < 0x110000 := c.valid
  have hvalue : c.val.toNat = c.toNat := rfl
  -- The four lengths of an encoding. What is left in each is arithmetic on the bytes.
  have htail (n : Nat) : (UInt8.ofNat (n % 64 + 0x80)).toNat = n % 64 + 0x80 :=
    toNat_ofNat_of_lt (by omega)
  fun_cases String.utf8EncodeChar c with
  | case1 v h =>
      have hlead : (UInt8.ofNat v).toNat = v := toNat_ofNat_of_lt (by omega)
      refine ⟨_, [], 0x80, 0xBF, rfl, follow_one (by omega), by simp, by simp, ?_⟩
      simp only [codePoint, List.length_nil, List.foldl_nil]
      omega
  | case2 v h h' =>
      have hlead : (UInt8.ofNat (v / 64 % 0x20 + 0xC0)).toNat = v / 64 % 0x20 + 0xC0 :=
        toNat_ofNat_of_lt (by omega)
      refine ⟨_, _, 0x80, 0xBF, rfl, follow_two (by omega) (by omega), ?_, by simp, ?_⟩
      · rintro _ ⟨⟩
        exact continues_ofNat v
      · simp only [codePoint, List.length_cons, List.length_nil, List.foldl_cons,
          List.foldl_nil, hlead, htail]
        omega
  | case3 v h h' h'' =>
      have hlead : (UInt8.ofNat (v / 4096 % 0x10 + 0xE0)).toNat = v / 4096 % 0x10 + 0xE0 :=
        toNat_ofNat_of_lt (by omega)
      refine ⟨_, _, _, _, rfl, follow_three (by omega) (by omega), ?_, ?_, ?_⟩
      · rintro _ ⟨⟩
        simp only [UInt8.le_iff_toNat_le, hlead, htail]
        split_ifs <;> simp only [UInt8.reduceToNat] <;> omega
      · simpa only [List.tail_cons, List.forall_mem_singleton] using continues_ofNat v
      · simp only [codePoint, List.length_cons, List.length_nil, List.foldl_cons,
          List.foldl_nil, hlead, htail]
        omega
  | case4 v h h' h'' =>
      have hlead : (UInt8.ofNat (v / 262144 % 0x08 + 0xF0)).toNat = v / 262144 % 0x08 + 0xF0 :=
        toNat_ofNat_of_lt (by omega)
      refine ⟨_, _, _, _, rfl, follow_four (by omega) (by omega), ?_, ?_, ?_⟩
      · rintro _ ⟨⟩
        simp only [UInt8.le_iff_toNat_le, hlead, htail]
        split_ifs <;> simp only [UInt8.reduceToNat] <;> omega
      · exact List.forall_mem_cons.mpr
          ⟨continues_ofNat _, List.forall_mem_singleton.mpr (continues_ofNat v)⟩
      · simp only [codePoint, List.length_cons, List.length_nil, List.foldl_cons,
          List.foldl_nil, hlead, htail]
        omega

end Reading

theorem lossyChars_encode_append (cs : List Char) (rest : Bytes) :
    lossyChars (cs.flatMap String.utf8EncodeChar ++ rest) = cs ++ lossyChars rest := by
  induction cs with
  | nil => rfl
  | cons c cs ih =>
      obtain ⟨b, tail, lo, hi, hchar, hfollow, hfirst, hrest, hcode⟩ := exists_lead c
      rw [List.flatMap_cons, hchar, List.append_assoc, List.cons_append,
        lossyChars_append hfollow hfirst hrest, hcode, Char.ofNat_toNat, ih, List.cons_append]

@[simp] theorem lossy_encode (s : String) : lossy (encode s) = s := by
  have hchars := lossyChars_encode_append s.toList []
  rw [List.append_nil, ← encode_eq_flatMap, lossyChars, List.append_nil] at hchars
  rw [lossy, hchars, String.ofList_toList]

/-- A lossy reading keeps just the octets that are those of a text. -/
theorem encode_lossy_eq_iff {bs : Bytes} :
    encode (lossy bs) = bs ↔ (decode? bs).isSome = true := by
  refine ⟨fun h => ?_, fun h => ?_⟩
  · rw [decode?_eq_some_iff.mpr h]
    rfl
  · obtain ⟨s, hs⟩ := Option.isSome_iff_exists.mp h
    rw [← encode_of_decode? hs, lossy_encode]

/-! ### Behind an octet that is a character of its own -/

theorem low_of_follow {x : UInt8} {n : Nat} {lo hi : UInt8} (h : follow x = some (n, lo, hi)) :
    0x80 ≤ lo := by
  unfold follow at h
  split_ifs at h <;> cases h <;> decide

section Ascii

variable {b : UInt8} (hb : b < 0x80)

include hb

theorem takeFollow_append_ascii {n : Nat} {lo hi : UInt8} (hlo : 0x80 ≤ lo) (bs rest : Bytes) :
    takeFollow n lo hi (bs ++ b :: rest) =
      ((takeFollow n lo hi bs).1, (takeFollow n lo hi bs).2 ++ b :: rest) := by
  induction n generalizing lo hi bs with
  | zero => rfl
  | succ n ih =>
      cases bs with
      | nil => exact if_neg fun h => absurd (UInt8.le_trans hlo h.1) (UInt8.not_le.mpr hb)
      | cons x bs =>
          rw [List.cons_append, takeFollow, takeFollow, ih UInt8.le_rfl]
          split <;> rfl

/-- No character that has begun before goes on with an octet that is a character of its own. -/
theorem lossyChars_append_ascii (bs rest : Bytes) :
    lossyChars (bs ++ b :: rest) = lossyChars bs ++ lossyChars (b :: rest) := by
  fun_induction lossyChars bs with
  | case1 => rfl
  | case2 x bs hx ih =>
      rw [List.cons_append, lossyChars, hx]
      exact congrArg _ ih
  | case3 x bs n lo hi hx _ tail ih =>
      rw [List.cons_append, lossyChars, hx]
      simp only [takeFollow_append_ascii hb (low_of_follow hx), ih]
      rfl

variable {s : String} {rest : Bytes} (hs : encode s = b :: rest)

include hs

theorem lossy_append (bs : Bytes) : lossy (bs ++ encode s) = lossy bs ++ s := by
  rw [lossy, hs, lossyChars_append_ascii hb, ← hs, String.ofList_append]
  exact congrArg (lossy bs ++ ·) (lossy_encode s)

theorem isSome_decode?_append (bs : Bytes) :
    (decode? (bs ++ encode s)).isSome = true ↔ (decode? bs).isSome = true := by
  rw [← encode_lossy_eq_iff, ← encode_lossy_eq_iff, lossy_append hb hs, encode_append,
    List.append_cancel_right_eq]

end Ascii

/-! ### The order of texts -/

theorem utf8EncodeChar_append_lt {c d : Char} (h : c < d) (bs bs' : Bytes) :
    String.utf8EncodeChar c ++ bs < String.utf8EncodeChar d ++ bs' := by
  have hlt : c.val.toNat < d.val.toNat := h
  have hvalid : d.val.toNat < 0xD800 ∨ 0xDFFF < d.val.toNat ∧ d.val.toNat < 0x110000 := d.valid
  have hlt_iff {n m : Nat} (hn : n < 256) (hm : m < 256) : UInt8.ofNat n < UInt8.ofNat m ↔
      n < m := by
    rw [UInt8.lt_iff_toNat_lt, toNat_ofNat_of_lt hn, toNat_ofNat_of_lt hm]
  have heq_iff {n m : Nat} (hn : n < 256) (hm : m < 256) : UInt8.ofNat n = UInt8.ofNat m ↔
      n = m := by
    rw [← UInt8.toNat_inj, toNat_ofNat_of_lt hn, toNat_ofNat_of_lt hm]
  -- The digits to the base 64 are written as quotients of the whole
  -- number, which can be compared.
  have hmod (n : Nat) : n / 64 % 64 = n / 64 - 64 * (n / 4096) := by omega
  have hmod' (n : Nat) : n / 4096 % 64 = n / 4096 - 64 * (n / 262144) := by omega
  have htop {n : Nat} (h : n < 0x110000) : n / 262144 % 8 = n / 262144 := by omega
  fun_cases String.utf8EncodeChar c <;> fun_cases String.utf8EncodeChar d <;>
    simp (disch := omega) only [List.cons_append, List.nil_append, List.cons_lt_cons_iff,
      hlt_iff, heq_iff, hmod, hmod', htop] <;>
    omega

/-- The order of texts is that of their octets. -/
theorem encode_lt_encode {s s' : String} (h : s < s') : encode s < encode s' := by
  rw [String.lt_iff] at h
  rw [encode_eq_flatMap, encode_eq_flatMap]
  generalize s.toList = cs at h
  generalize s'.toList = cs' at h
  induction cs generalizing cs' with
  | nil =>
      cases cs' with
      | nil => simp at h
      | cons d ds =>
          obtain ⟨b, tail, _, _, hd, -⟩ := exists_lead d
          rw [List.flatMap_cons, hd]
          exact List.nil_lt_cons ..
  | cons c cs ih =>
      cases cs' with
      | nil => simp at h
      | cons d ds =>
          rw [List.flatMap_cons, List.flatMap_cons]
          rcases List.cons_lt_cons_iff.mp h with hlt | ⟨rfl, hrest⟩
          · exact utf8EncodeChar_append_lt hlt ..
          · exact List.append_left_lt (ih _ hrest)

end LlvmBootstrap.Utf8
