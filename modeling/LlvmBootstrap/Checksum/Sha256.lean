import LlvmBootstrap.Text.Hex

/-!
The SHA-256 digest. The schedule of a block is not stored: a window of its last sixteen words
moves along with the rounds.
-/

namespace LlvmBootstrap.Sha256

abbrev Word := UInt32

def rotate (x : Word) (n : Word) : Word := (x >>> n) ||| (x <<< (32 - n))

/-- The constants of the rounds: the first thirty-two bits of the fractional parts of the cube
roots of the first sixty-four primes. -/
def constants : List Word :=
  [0x428a2f98, 0x71374491, 0xb5c0fbcf, 0xe9b5dba5, 0x3956c25b, 0x59f111f1,
    0x923f82a4, 0xab1c5ed5,
    0xd807aa98, 0x12835b01, 0x243185be, 0x550c7dc3, 0x72be5d74, 0x80deb1fe,
    0x9bdc06a7, 0xc19bf174,
    0xe49b69c1, 0xefbe4786, 0x0fc19dc6, 0x240ca1cc, 0x2de92c6f, 0x4a7484aa,
    0x5cb0a9dc, 0x76f988da,
    0x983e5152, 0xa831c66d, 0xb00327c8, 0xbf597fc7, 0xc6e00bf3, 0xd5a79147,
    0x06ca6351, 0x14292967,
    0x27b70a85, 0x2e1b2138, 0x4d2c6dfc, 0x53380d13, 0x650a7354, 0x766a0abb,
    0x81c2c92e, 0x92722c85,
    0xa2bfe8a1, 0xa81a664b, 0xc24b8b70, 0xc76c51a3, 0xd192e819, 0xd6990624,
    0xf40e3585, 0x106aa070,
    0x19a4c116, 0x1e376c08, 0x2748774c, 0x34b0bcb5, 0x391c0cb3, 0x4ed8aa4a,
    0x5b9cca4f, 0x682e6ff3,
    0x748f82ee, 0x78a5636f, 0x84c87814, 0x8cc70208, 0x90befffa, 0xa4506ceb,
    0xbef9a3f7, 0xc67178f2]

structure State where
  a : Word
  b : Word
  c : Word
  d : Word
  e : Word
  f : Word
  g : Word
  h : Word

def initial : State :=
  ⟨0x6a09e667, 0xbb67ae85, 0x3c6ef372, 0xa54ff53a, 0x510e527f, 0x9b05688c,
    0x1f83d9ab, 0x5be0cd19⟩

def State.add (s t : State) : State :=
  ⟨s.a + t.a, s.b + t.b, s.c + t.c, s.d + t.d, s.e + t.e, s.f + t.f, s.g + t.g, s.h + t.h⟩

def State.words (s : State) : List Word := [s.a, s.b, s.c, s.d, s.e, s.f, s.g, s.h]

/-- One round with the constant `k` and the schedule word `w`. -/
def round (s : State) (k w : Word) : State :=
  let high := rotate s.e 6 ^^^ rotate s.e 11 ^^^ rotate s.e 25
  let choice := (s.e &&& s.f) ^^^ (~~~s.e &&& s.g)
  let t1 := s.h + high + choice + k + w
  let low := rotate s.a 2 ^^^ rotate s.a 13 ^^^ rotate s.a 22
  let majority := (s.a &&& s.b) ^^^ (s.a &&& s.c) ^^^ (s.b &&& s.c)
  ⟨t1 + (low + majority), s.a, s.b, s.c, s.d + t1, s.e, s.f, s.g⟩

/-- The schedule word behind a window of sixteen. -/
def nextWord (window : List Word) : Word :=
  let w1 := window.getD 1 0
  let w14 := window.getD 14 0
  let s0 := rotate w1 7 ^^^ rotate w1 18 ^^^ (w1 >>> 3)
  let s1 := rotate w14 17 ^^^ rotate w14 19 ^^^ (w14 >>> 10)
  window.headD 0 + s0 + window.getD 9 0 + s1

/-- The rounds for the given constants. `window` starts with the
schedule word of the first one. -/
def rounds (s : State) (window : List Word) : List Word → State
  | [] => s
  | k :: ks =>
    rounds (round s k (window.headD 0)) (window.tail ++ [nextWord window]) ks

def wordOf (bs : Bytes) : Word := bs.foldl (fun w b => (w <<< 8) ||| b.toUInt32) 0

/-- The words of some octets, the first octet of each word highest. -/
def wordsOf : Bytes → List Word
  | a :: b :: c :: d :: bs => wordOf [a, b, c, d] :: wordsOf bs
  | _ => []

def compress (s : State) (block : Bytes) : State := s.add (rounds s (wordsOf block) constants)

/-- A number in `n` octets, the highest first. -/
def bigEndian : Nat → Nat → Bytes
  | 0, _ => []
  | n + 1, x => UInt8.ofNat (x / Nat.pow 256 n) :: bigEndian n x

/-- A message of `length` octets is followed by a one bit, zeros up to a whole number of
blocks, and its length in bits. -/
def padding (length : Nat) : Bytes :=
  0x80 :: List.replicate ((119 - length % 64) % 64) 0 ++ bigEndian 8 (8 * length)

/-- Takes in all whole blocks. What is left after 63 octets tells whether there is one more. -/
def blocks (s : State) (bs : Bytes) : State :=
  if bs.drop 63 = [] then s else blocks (compress s (bs.take 64)) (bs.drop 64)
termination_by bs.length
decreasing_by
  rename_i h
  simp only [List.drop_eq_nil_iff, List.length_drop] at h ⊢
  omega

def wordBytes (w : Word) : Bytes :=
  [(w >>> 24).toUInt8, (w >>> 16).toUInt8, (w >>> 8).toUInt8, w.toUInt8]

def digest (bs : Bytes) : Bytes :=
  (blocks initial (bs ++ padding bs.length)).words.flatMap wordBytes

/-- The digest in hexadecimal digits. -/
def hex (bs : Bytes) : String := Hex.encode (digest bs)

example : hex [] = "e3b0c44298fc1c149afbf4c8996fb92427ae41e4649b934ca495991b7852b855" := by
  decide +kernel

end LlvmBootstrap.Sha256
