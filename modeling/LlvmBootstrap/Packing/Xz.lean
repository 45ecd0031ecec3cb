import LlvmBootstrap.Checksum.Crc
import LlvmBootstrap.Checksum.Sha256
import LlvmBootstrap.Packing.Lzma
import LlvmBootstrap.Tar.Members

/-!
Octets packed in the xz format: a header, blocks of packed data each with a check of what was
packed, an index of the blocks and a footer. A file is one such stream and nothing behind it.
All that stands behind the data is read along with its last octets, so an error there takes
those with it; that something is missing, or that something is left over, is noticed only by
who reads on.
-/

namespace LlvmBootstrap.Xz

open Lzma (Ending)

/-- Reading octets in order; the error says whether there are too few or wrong ones. -/
abbrev Reader := StateT Bytes (Except Ending)

def take (n : Nat) : Reader Bytes := fun bs =>
  if bs.length < n then .error .missing else .ok (bs.take n, bs.drop n)

def need (p : Prop) [Decidable p] : Reader Unit := if p then return () else throw .wrong

def number (bs : Bytes) : Nat := bs.foldr (fun b n => n * 256 + b.toNat) 0

/-- Reads the checksum of `bs`. -/
def checksum (bs : Bytes) : Reader Unit := do
  let sum ← take 4
  need (number sum = Crc.compute Crc.crc32 bs)

/-- The octets of a number written with seven bits to an octet, the lowest
first, in as few octets as it takes. -/
def variableFrom : Nat → Reader Bytes
  | 0 => throw .wrong
  | left + 1 => do
    let b := (← take 1).headD 0
    if b < 0x80 then return [b] else return b :: (← variableFrom left)

def variableValue (bs : Bytes) : Nat := bs.foldr (fun b n => n * 128 + b.toNat % 128) 0

def variable_ : Reader Nat := do
  let bs ← variableFrom 9
  need (bs.length = 1 ∨ bs.getLast? ≠ some 0)
  return variableValue bs

def mark : Bytes := [0xFD, 0x37, 0x7A, 0x58, 0x5A, 0]

def endMark : Bytes := Utf8.encode "YZ"

/-- The octets that a check takes, by its number. -/
def checkSize (id : Nat) : Nat :=
  [0, 4, 4, 4, 8, 8, 8, 16, 16, 16, 32, 32, 32, 64, 64, 64].getD id 0

/-- The check of some octets, where its kind is known. -/
def check? (id : Nat) (bs : Bytes) : Option Nat :=
  match id with
  | 1 => some (Crc.compute Crc.crc32 bs)
  | 4 => some (Crc.compute Crc.crc64 bs)
  | 10 => some (number (Sha256.digest bs))
  | _ => none

/-- The header of a stream, which gives the number of its check. -/
def streamHeader : Reader Nat := do
  need ((← take 6) = mark)
  let flags ← take 2
  checksum flags
  need (flags.headD 0 = 0 ∧ flags.getD 1 0 < 16)
  return (flags.getD 1 0).toNat

structure BlockHeader where
  size : Nat
  packed : Option Nat
  unpacked : Option Nat
  deriving DecidableEq

/-- The number of the packing that is understood. -/
def packing : Nat := 0x21

def sizeIf (present : Bool) : Reader (Option Nat) :=
  if present then some <$> variable_ else return none

/-- What stands between the first octet and the checksum of a block header. -/
def blockFields (size : Nat) : Reader BlockHeader := do
  let flags := (← take 1).headD 0
  need (flags &&& 0x3C = 0)
  let packed ← sizeIf (flags &&& 0x40 ≠ 0)
  let unpacked ← sizeIf (flags &&& 0x80 ≠ 0)
  need (flags &&& 3 = 0)
  need ((← variable_) = packing)
  need ((← variable_) = 1)
  need ((← take 1).headD 0 ≤ 40)
  need ((← get).all (· = 0))
  return ⟨size, packed, unpacked⟩

/-- A block header behind its first octet, which tells its size. Its
fields may not reach beyond it. -/
def blockHeader (first : UInt8) : Reader BlockHeader := do
  let size := (first.toNat + 1) * 4
  let fields ← take (size - 5)
  checksum (first :: fields)
  match (blockFields size).run fields with
  | .ok (h, _) => return h
  | .error _ => throw .wrong

/-- The sizes of a block as the index lists them: with header and
check, but without padding. -/
structure Record where
  size : Nat
  unpacked : Nat
  deriving DecidableEq

def padding (n : Nat) : Nat := (4 - n % 4) % 4

def zeros (n : Nat) : Reader Unit := do need ((← take n).all (· = 0))

/-- What stands behind the data of a block. -/
def blockEnd (id : Nat) (h : BlockHeader) (packed : Nat) (bytes : Bytes) : Reader Record := do
  need (h.packed = none ∨ h.packed = some packed)
  need (h.unpacked = none ∨ h.unpacked = some bytes.length)
  zeros (padding packed)
  let sum ← take (checkSize id)
  need ((check? id bytes).all (· = number sum))
  return ⟨h.size + packed + checkSize id, bytes.length⟩

def index (records : List Record) : Reader Unit := do
  let before ← get
  need ((← variable_) = records.length)
  for r in records do
    need ((← variable_) = r.size)
    need ((← variable_) = r.unpacked)
  zeros (padding (1 + before.length - (← get).length))
  checksum (0 :: before.take (before.length - (← get).length))

/-- What stands behind the last block: the index behind its first octet, and the footer, which
repeats the size of the index and the kind of the check. -/
def streamEnd (id : Nat) (records : List Record) : Reader Unit := do
  let before ← get
  index records
  let size := 1 + before.length - (← get).length
  let sum ← take 4
  let fields ← take 6
  need (number sum = Crc.compute Crc.crc32 fields)
  need (number (fields.take 4) = size / 4 - 1)
  need (fields.drop 4 = [0, UInt8.ofNat id])
  need ((← take 2) = endMark)

/-- What has been unpacked, and how it ends. -/
abbrev Unpacked := Array UInt8 × Ending

/-- Blocks, and all behind them. The count of octets bounds the blocks. -/
def blocks (id : Nat) : Nat → List Record → Array UInt8 → Bytes → Unpacked
  | 0, _, out, _ => (out, .missing)
  | _ + 1, _, out, [] => (out, .missing)
  | fuel + 1, records, out, first :: bs =>
    if first = 0 then
      match (streamEnd id records).run bs with
      | .ok (_, []) => (out, .complete)
      | .ok _ => (out, .missing)
      | .error e => (out, e)
    else
      match (blockHeader first).run bs with
      | .error e => (out, e)
      | .ok (h, bs) =>
        let before := out.size
        let r := Lzma.unpack out bs
        if r.ending ≠ .complete then (r.out, r.ending) else
        match (blockEnd id h (bs.length - r.rest.length) (r.out.toList.drop before)).run
          r.rest with
        | .error e => (r.out, e)
        | .ok (record, rest) => blocks id fuel (records ++ [record]) r.out rest

/-- What a packed file holds. -/
def unpack (bs : Bytes) : Stream :=
  match streamHeader.run bs with
  | .error _ => ⟨[], true⟩
  | .ok (id, rest) =>
    match blocks id bs.length [] #[] rest with
    | (out, .complete) => ⟨out.toList, false⟩
    | (out, .missing) => ⟨out.toList, true⟩
    | (out, .wrong) => ⟨out.toList.dropLast, true⟩

end LlvmBootstrap.Xz
