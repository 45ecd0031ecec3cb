import LlvmBootstrap.Text.Utf8

/-!
Cyclic redundancy checks with the lowest bit first: CRC-32 and CRC-64. Both start from all ones
and give the complement of the remainder.
-/

namespace LlvmBootstrap.Crc

/-- A check whose polynomial, without its highest term, is given with
the lowest power at the top. -/
structure Kind where
  width : Nat
  polynomial : Nat

def crc32 : Kind := ⟨32, 0xEDB88320⟩

def crc64 : Kind := ⟨64, 0xC96C5795D7870F42⟩

def bitStep (poly r : Nat) : Nat := if r % 2 = 1 then r / 2 ^^^ poly else r / 2

def byteStep (poly r : Nat) (b : UInt8) : Nat := Nat.repeat (bitStep poly) 8 (r ^^^ b.toNat)

def ones (k : Kind) : Nat := Nat.pow 2 k.width - 1

def compute (k : Kind) (bs : Bytes) : Nat :=
  bs.foldl (byteStep k.polynomial) (ones k) ^^^ ones k

end LlvmBootstrap.Crc
