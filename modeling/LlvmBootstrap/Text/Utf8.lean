/-!
Texts as octets. Reading is strict (`decode?`, an ill-formed sequence has no text) or lossy
(`lossy`, each longest run of octets that starts a character without finishing it is shown as
U+FFFD). Writing and then reading strictly gives the text back.
-/

namespace LlvmBootstrap

abbrev Bytes := List UInt8

namespace Utf8

def encode (s : String) : Bytes := s.toUTF8.data.toList

def decode? (bs : Bytes) : Option String := String.fromUTF8? ⟨bs.toArray⟩

@[simp] theorem decode?_encode (s : String) : decode? (encode s) = some s := by
  have h : (⟨(encode s).toArray⟩ : ByteArray) = s.toUTF8 := rfl
  simp only [decode?, h, String.fromUTF8?, String.toUTF8_eq_toByteArray, dif_pos s.isValidUTF8]
  rfl

/-- How many octets a lead octet asks for, and the range the first of them must lie in. -/
def follow (b : UInt8) : Option (Nat × UInt8 × UInt8) :=
  if b < 0x80 then some (0, 0x80, 0xBF)
  else if b < 0xC2 then none
  else if b < 0xE0 then some (1, 0x80, 0xBF)
  else if b = 0xE0 then some (2, 0xA0, 0xBF)
  else if b = 0xED then some (2, 0x80, 0x9F)
  else if b < 0xF0 then some (2, 0x80, 0xBF)
  else if b = 0xF0 then some (3, 0x90, 0xBF)
  else if b < 0xF4 then some (3, 0x80, 0xBF)
  else if b = 0xF4 then some (3, 0x80, 0x8F)
  else none

/-- The at most `n` following octets that continue a character, and what comes after them. -/
def takeFollow : Nat → UInt8 → UInt8 → Bytes → Bytes × Bytes
  | 0, _, _, bs => ([], bs)
  | _ + 1, _, _, [] => ([], [])
  | n + 1, lo, hi, b :: bs =>
    if lo ≤ b ∧ b ≤ hi then
      let (taken, rest) := takeFollow n 0x80 0xBF bs
      (b :: taken, rest)
    else ([], b :: bs)

theorem length_takeFollow_snd (n : Nat) (lo hi : UInt8) (bs : Bytes) :
    (takeFollow n lo hi bs).2.length ≤ bs.length := by
  induction n generalizing lo hi bs with
  | zero => simp [takeFollow]
  | succ n ih =>
    cases bs with
    | nil => simp [takeFollow]
    | cons b bs =>
      unfold takeFollow
      split
      · exact Nat.le_succ_of_le (ih _ _ bs)
      · simp

/-- The code point of a lead octet with all its followers. -/
def codePoint (lead : UInt8) (tail : Bytes) : Nat :=
  let high := match tail.length with
    | 0 => lead.toNat
    | 1 => lead.toNat - 0xC0
    | 2 => lead.toNat - 0xE0
    | _ => lead.toNat - 0xF0
  tail.foldl (fun n b => n * 64 + (b.toNat - 0x80)) high

def lossyChars : Bytes → List Char
  | [] => []
  | b :: bs =>
    match follow b with
    | none => '\uFFFD' :: lossyChars bs
    | some (n, lo, hi) =>
      have : (takeFollow n lo hi bs).2.length ≤ bs.length := length_takeFollow_snd n lo hi bs
      let tail := (takeFollow n lo hi bs).1
      (if tail.length = n then Char.ofNat (codePoint b tail) else '\uFFFD')
        :: lossyChars (takeFollow n lo hi bs).2
termination_by bs => bs.length

def lossy (bs : Bytes) : String := String.ofList (lossyChars bs)

end Utf8

end LlvmBootstrap
