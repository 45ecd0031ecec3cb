import LlvmBootstrap.Tar.Header

/-!
Files with holes. The header, and blocks behind it if it says so, list where data lies in the
file; the member holds only that data, one piece after the other.
-/

namespace LlvmBootstrap.Tar.Sparse

/-- `gap` zeros, then `length` octets of data. -/
structure Piece where
  gap : Nat
  length : Nat
  deriving DecidableEq

/-- The entries of a map: an offset and a length field each. Unused
entries start with zeros. -/
def entries (count : Nat) (area : Bytes) : List (Bytes × Bytes) :=
  (List.range count).filterMap fun i =>
    let offset := field area (24 * i) 12
    let length := field area (24 * i + 12) 12
    if offset.head? = some 0 ∨ length.head? = some 0 then none else some (offset, length)

/-- Where a map has got to: the end of the last piece, and the data used up by the pieces. -/
structure Progress where
  reached : Nat
  used : Nat
  pieces : List Piece

/-- Adds a piece. Pieces come in order, and the data before one fills whole blocks. -/
def Progress.add? (size : Nat) (p : Progress) (e : Bytes × Bytes) : Option Progress := do
  let offset ← octal? e.1
  let length ← octal? e.2
  guard (length = 0 ∨ p.used % blockSize = 0)
  guard (p.reached ≤ offset)
  guard (p.used + length ≤ size)
  return ⟨offset + length, p.used + length, p.pieces ++ [⟨offset - p.reached, length⟩]⟩

def isContinued (block : Bytes) (at_ : Nat) : Bool := block.getD at_ 0 ≠ 0

/-- The pieces listed in the blocks behind a header, and what follows those blocks. `more` says
whether another block is announced. -/
def readMore? (size : Nat) (more : Bool) (p : Progress) (rest : Bytes) :
    Option (Progress × Bytes) :=
  if !more then some (p, rest)
  else if rest.length < blockSize then none
  else do
    let block := rest.take blockSize
    let p ← (entries 21 block).foldlM (Progress.add? size) p
    readMore? size (isContinued block 504) p (rest.drop blockSize)
termination_by rest.length
decreasing_by simp only [blockSize, List.length_drop] at *; omega

/-- The pieces of a member with holes and what follows its map. The pieces take up all the data
of the member and end where the file ends. -/
def read? (h : Header) (rest : Bytes) : Option (List Piece × Bytes) := do
  guard (h.format = .gnu)
  let p ← (entries 4 (h.block.drop 386)).foldlM (Progress.add? h.size) ⟨0, 0, []⟩
  let (p, rest) ← readMore? h.size (isContinued h.block 482) p rest
  guard (octal? (field h.block 483 12) = some p.reached)
  guard (p.used = h.size)
  return (p.pieces, rest)

/-- The content that some pieces make of `data`, and whether the data was enough. -/
def expand : List Piece → Bytes → Bytes × Bool
  | [], _ => ([], true)
  | p :: ps, data =>
    let here := List.replicate p.gap 0 ++ data.take p.length
    if data.length < p.length then (here, false)
    else
      let (rest, whole) := expand ps (data.drop p.length)
      (here ++ rest, whole)

end LlvmBootstrap.Tar.Sparse
