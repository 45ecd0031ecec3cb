import LlvmBootstrap.Text.Utf8

/-!
Inflating: the octets that a deflated stream of bits stands for. The stream is a list of bits,
the lowest bit of each octet first. Codes are read along a tree; output is kept last octet
first, so that a repeated stretch is found at its distance from the front.
-/

namespace LlvmBootstrap.Deflate

abbrev Bits := List Bool

def bitsOf (b : UInt8) : Bits := (List.range 8).map fun i => b.toNat.testBit i

def bits (bs : Bytes) : Bits := bs.flatMap bitsOf

/-- A number of `n` bits, the lowest first, and the bits behind it. -/
def number? : Nat → Bits → Option (Nat × Bits)
  | 0, bs => some (0, bs)
  | _ + 1, [] => none
  | n + 1, b :: bs => (number? n bs).map fun r => (2 * r.1 + b.toNat, r.2)

/-! ### Codes -/

inductive Code where
  | unused
  | symbol (s : Nat)
  | branch (zero one : Code)

/-- Puts a symbol at the end of a way through the tree. -/
def Code.put (s : Nat) : Bits → Code → Code
  | [], _ => .symbol s
  | false :: way, .branch z o => .branch (put s way z) o
  | true :: way, .branch z o => .branch z (put s way o)
  | false :: way, _ => .branch (put s way .unused) .unused
  | true :: way, _ => .branch .unused (put s way .unused)

def Code.read? : Code → Bits → Option (Nat × Bits)
  | .symbol s, bs => some (s, bs)
  | .branch z _, false :: bs => z.read? bs
  | .branch _ o, true :: bs => o.read? bs
  | .branch _ _, [] => none
  | .unused, _ => none

/-- The lowest `n` bits of a number, the highest first. -/
def way (n x : Nat) : Bits := (List.range n).reverse.map fun i => x.testBit i

/-- The code words of one length: consecutive numbers for the symbols
that have it, in order. -/
def wordsOfLength (lengths : List Nat) (n first : Nat) : List (Nat × Bits) :=
  let symbols := (lengths.zipIdx.filter (·.1 = n)).map (·.2)
  symbols.zipIdx.map fun p => (p.1, way n (first + p.2))

/-- The code words of all lengths from `n` on. `first` is the first number of length `n`. -/
def wordsFrom (lengths : List Nat) (n first : Nat) : Nat → List (Nat × Bits)
  | 0 => []
  | more + 1 =>
    let here := wordsOfLength lengths n first
    here ++ wordsFrom lengths (n + 1) (2 * (first + here.length)) more

def maxLength : Nat := 15

/-- In units of the longest code words, how much of the code space the lengths take up. -/
def spaceUsed (lengths : List Nat) : Nat :=
  (lengths.filter (· ≠ 0)).foldl (fun n l => n + Nat.pow 2 (maxLength - l)) 0

/-- The code with the given lengths, where zero means that a symbol has no word. The words fill
the code space; a code of a single word of one bit may also stand. -/
def Code.ofLengths? (lengths : List Nat) : Option Code :=
  let used := lengths.filter (· ≠ 0)
  if spaceUsed lengths = Nat.pow 2 maxLength ∨ used = [1] ∨ used = [] then
    some ((wordsFrom lengths 1 0 maxLength).foldl (fun c p => c.put p.1 p.2) .unused)
  else none

/-! ### Blocks -/

/-- Base values and counts of extra bits for the lengths of repeated stretches. -/
def lengthTable : List (Nat × Nat) :=
  [(3, 0), (4, 0), (5, 0), (6, 0), (7, 0), (8, 0), (9, 0), (10, 0), (11, 1), (13, 1), (15, 1),
    (17, 1), (19, 2), (23, 2), (27, 2), (31, 2), (35, 3), (43, 3), (51, 3), (59, 3), (67, 4),
    (83, 4), (99, 4), (115, 4), (131, 5), (163, 5), (195, 5), (227, 5), (258, 0)]

/-- Base values and counts of extra bits for the distances of repeated stretches. -/
def distanceTable : List (Nat × Nat) :=
  [(1, 0), (2, 0), (3, 0), (4, 0), (5, 1), (7, 1), (9, 2), (13, 2), (17, 3), (25, 3), (33, 4),
    (49, 4), (65, 5), (97, 5), (129, 6), (193, 6), (257, 7), (385, 7), (513, 8), (769, 8),
    (1025, 9), (1537, 9), (2049, 10), (3073, 10), (4097, 11), (6145, 11),
    (8193, 12), (12289, 12),
    (16385, 13), (24577, 13)]

def tableValue? (table : List (Nat × Nat)) (i : Nat) (bs : Bits) : Option (Nat × Bits) := do
  let (base, extra) ← table[i]?
  let (n, bs) ← number? extra bs
  return (base + n, bs)

/-- Whether there is output as far back as a distance. Only as much of it is looked at. -/
def goesBack (distance : Nat) (out : Bytes) : Bool :=
  distance = 0 || out.drop (distance - 1) ≠ []

/-- Repeats a stretch of `length` octets that starts `distance` back;
it may run into itself. -/
def repeatBack (distance length : Nat) (out : Bytes) : Bytes :=
  if distance = 0 then out
  else if length ≤ distance then (out.drop (distance - length)).take length ++ out
  else repeatBack distance (length - distance) (out.take distance ++ out)
termination_by length

/-- What one symbol of a compressed block does. -/
inductive Step where
  | literal (b : UInt8)
  | back (distance length : Nat)
  | stop

def step? (literals distances : Code) (bs : Bits) : Option (Step × Bits) := do
  let (s, bs) ← literals.read? bs
  if s < 256 then return (.literal (UInt8.ofNat s), bs)
  else if s = 256 then return (.stop, bs)
  else
    let (length, bs) ← tableValue? lengthTable (s - 257) bs
    let (d, bs) ← distances.read? bs
    let (distance, bs) ← tableValue? distanceTable d bs
    return (.back distance length, bs)

/-- Output so far, last octet first; the bits left; and whether the
stream is sound up to there. -/
structure Progress where
  out : Bytes
  rest : Bits
  sound : Bool

/-- A compressed block. Each symbol takes at least one bit, so `fuel` above the
count of bits left is never used up. -/
def compressed (literals distances : Code) : Nat → Bytes → Bits → Progress
  | 0, out, bs => ⟨out, bs, false⟩
  | fuel + 1, out, bs =>
    match step? literals distances bs with
    | none => ⟨out, bs, false⟩
    | some (.stop, bs) => ⟨out, bs, true⟩
    | some (.literal b, bs) => compressed literals distances fuel (b :: out) bs
    | some (.back distance length, bs) =>
      if goesBack distance out then
        compressed literals distances fuel (repeatBack distance length out) bs
      else ⟨out, bs, false⟩

/-- A stored block: from the next octet on, its length twice, the second time
complemented, and the octets themselves. -/
def stored (out : Bytes) (bs : Bits) : Progress :=
  match lengths? (bs.drop (bs.length % 8)) with
  | none => ⟨out, bs, false⟩
  | some (n, bs) => copy n out bs
where
  lengths? (bs : Bits) : Option (Nat × Bits) := do
    let (n, bs) ← number? 16 bs
    let (m, bs) ← number? 16 bs
    guard (n + m = 0xFFFF)
    return (n, bs)
  copy : Nat → Bytes → Bits → Progress
    | 0, out, bs => ⟨out, bs, true⟩
    | n + 1, out, bs =>
      match number? 8 bs with
      | none => ⟨out, bs, false⟩
      | some (b, bs) => copy n (UInt8.ofNat b :: out) bs

def fixedLiterals : List Nat :=
  List.replicate 144 8 ++ List.replicate 112 9 ++ List.replicate 24 7 ++ List.replicate 8 8

def fixedDistances : List Nat := List.replicate 32 5

/-- The order in which the lengths of the code for code lengths are written. -/
def lengthOrder : List Nat :=
  [16, 17, 18, 0, 8, 7, 9, 6, 10, 5, 11, 4, 12, 3, 13, 2, 14, 1, 15]

def numbers? (n width : Nat) (bs : Bits) : Option (List Nat × Bits) :=
  match n with
  | 0 => some ([], bs)
  | n + 1 => do
    let (x, bs) ← number? width bs
    let (xs, bs) ← numbers? n width bs
    return (x :: xs, bs)

/-- Code lengths, last one first, up to a count: literal lengths, repetitions of
the last one, and runs of zeros. -/
def codeLengths? (code : Code) (count : Nat) : Nat → List Nat → Bits → Option (List Nat × Bits)
  | 0, _, _ => none
  | fuel + 1, acc, bs =>
    if acc.length = count then some (acc, bs)
    else if count < acc.length then none
    else do
      let (s, bs) ← code.read? bs
      if s < 16 then codeLengths? code count fuel (s :: acc) bs
      else if s = 16 then
        let last ← acc.head?
        let (n, bs) ← number? 2 bs
        codeLengths? code count fuel (List.replicate (n + 3) last ++ acc) bs
      else if s = 17 then
        let (n, bs) ← number? 3 bs
        codeLengths? code count fuel (List.replicate (n + 3) 0 ++ acc) bs
      else
        let (n, bs) ← number? 7 bs
        codeLengths? code count fuel (List.replicate (n + 11) 0 ++ acc) bs

/-- The two codes written in front of a block. -/
def writtenCodes? (bs : Bits) : Option (Code × Code × Bits) := do
  let (literals, bs) ← number? 5 bs
  let (distances, bs) ← number? 5 bs
  let (n, bs) ← number? 4 bs
  guard (literals ≤ 29)
  guard (distances ≤ 29)
  let (written, bs) ← numbers? (n + 4) 3 bs
  let lengths := (List.range 19).map fun s => ((lengthOrder.zip written).lookup s).getD 0
  guard (spaceUsed lengths = Nat.pow 2 maxLength)
  let code ← Code.ofLengths? lengths
  let count := literals + 257 + (distances + 1)
  let (acc, bs) ← codeLengths? code count (count + 1) [] bs
  let all := acc.reverse
  guard (all.getD 256 0 ≠ 0)
  return (← Code.ofLengths? (all.take (literals + 257)),
    ← Code.ofLengths? (all.drop (literals + 257)), bs)

/-- One block, and whether it is the last one. -/
def block (out : Bytes) (bs : Bits) : Bool × Progress :=
  match number? 1 bs with
  | none => (true, ⟨out, bs, false⟩)
  | some (last, bs) =>
    match number? 2 bs with
    | some (0, bs) => (last = 1, stored out bs)
    | some (1, bs) =>
      match Code.ofLengths? fixedLiterals, Code.ofLengths? fixedDistances with
      | some l, some d => (last = 1, compressed l d (bs.length + 1) out bs)
      | _, _ => (true, ⟨out, bs, false⟩)
    | some (2, bs) =>
      match writtenCodes? bs with
      | some (l, d, bs) => (last = 1, compressed l d (bs.length + 1) out bs)
      | none => (true, ⟨out, bs, false⟩)
    | _ => (true, ⟨out, bs, false⟩)

/-- Blocks up to the last one. Each takes at least three bits, so the count
of bits left bounds their number. -/
def blocks : Nat → Bytes → Bits → Progress
  | 0, out, bs => ⟨out, bs, false⟩
  | fuel + 1, out, bs =>
    let (last, p) := block out bs
    if last || !p.sound then p else blocks fuel p.out p.rest

structure Inflated where
  bytes : Bytes
  /-- The whole octets behind the last one used. -/
  rest : Bytes
  sound : Bool

def inflate (bs : Bytes) : Inflated :=
  let p := blocks (8 * bs.length + 1) [] (bits bs)
  ⟨p.out.reverse, bs.drop (bs.length - p.rest.length / 8), p.sound⟩

end LlvmBootstrap.Deflate
