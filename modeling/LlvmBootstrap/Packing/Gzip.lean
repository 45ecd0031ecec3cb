import LlvmBootstrap.Checksum.Crc
import LlvmBootstrap.Packing.Deflate
import LlvmBootstrap.Tar.Members

/-!
Octets packed by gzip. Only the first member of a file is unpacked. Its trailer, the checksum
and the size of what was packed, comes behind the data, so a wrong trailer is noticed only by
who reads to the end.
-/

namespace LlvmBootstrap.Gzip

def number (bs : Bytes) : Nat := bs.foldr (fun b n => n * 256 + b.toNat) 0

/-- The longest text or extra field of a header. -/
def maxField : Nat := 0xFFFF

/-- What follows a field of `n` octets. -/
def skip? (n : Nat) (bs : Bytes) : Option Bytes :=
  if n ≤ bs.length then some (bs.drop n) else none

/-- What follows a text and the zero behind it. -/
def skipText? (bs : Bytes) : Option Bytes :=
  match bs.span (· ≠ 0) with
  | (text, _ :: rest) => if text.length ≤ maxField then some rest else none
  | (_, []) => none

/-- What follows the extra field, which starts with its length. -/
def skipExtra? (bs : Bytes) : Option Bytes := do
  let rest ← skip? 2 bs
  skip? (number (bs.take 2)) rest

/-- What follows the checksum of a header: the lower half of the checksum of all before it. -/
def skipChecksum? (all bs : Bytes) : Option Bytes := do
  let rest ← skip? 2 bs
  guard (number (bs.take 2) =
    Crc.compute Crc.crc32 (all.take (all.length - bs.length)) % Numeral.limit 16)
  return rest

/-- The data behind a header. The flags say which optional fields there are; those without a
meaning are not allowed. -/
def body? (all : Bytes) : Option Bytes := do
  let 0x1F :: 0x8B :: 8 :: flags :: bs := all | none
  guard (flags &&& 0xE0 = 0)
  let has := fun (f : UInt8) => flags &&& f ≠ 0
  let bs ← skip? 6 bs
  let bs ← if has 4 then skipExtra? bs else some bs
  let bs ← if has 8 then skipText? bs else some bs
  let bs ← if has 16 then skipText? bs else some bs
  if has 2 then skipChecksum? all bs else some bs

/-- The checksum and the size, cut to a word of 32 bits, as they
should stand behind the data. -/
def trailerFits (bytes trailer : Bytes) : Bool :=
  trailer.length ≥ 8 && number (trailer.take 4) = Crc.compute Crc.crc32 bytes &&
    number ((trailer.drop 4).take 4) = bytes.length % Numeral.limit 32

/-- What a packed file holds. -/
def unpack (bs : Bytes) : Stream :=
  match body? bs with
  | none => ⟨[], true⟩
  | some packed =>
    let r := Deflate.inflate packed
    ⟨r.bytes, !(r.sound && trailerFits r.bytes r.rest)⟩

end LlvmBootstrap.Gzip
