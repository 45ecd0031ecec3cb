import LlvmBootstrap.Text.Blank
import LlvmBootstrap.Text.Numeral
import LlvmBootstrap.Text.Utf8

/-!
The header block of a tar member: 512 octets of fixed fields. A header is taken only if its
checksum and its size can be read and the checksum is right; any other field may be unusable.
-/

namespace LlvmBootstrap.Tar

def blockSize : Nat := 512

/-- The octets of a text field, up to the first zero. -/
def untilZero (bs : Bytes) : Bytes := bs.takeWhile (· ≠ 0)

def field (block : Bytes) (start length : Nat) : Bytes := (block.drop start).take length

/-- A number written in octal digits, blanks around it allowed. -/
def octal? (bs : Bytes) : Option Nat := do
  let text ← Utf8.decode? (untilZero bs)
  Numeral.read? 8 (Blank.trim text.toList)

/-- An octal number, or the last eight octets as a binary number where the first bit is set. -/
def number? (bs : Bytes) : Option Nat :=
  match bs with
  | b :: _ =>
    if b < 0x80 then octal? bs
    else some ((bs.drop (bs.length - 8)).foldl (fun n b => n * 256 + b.toNat) 0)
  | [] => none

inductive Format where
  | ustar
  | gnu
  | old
  deriving DecidableEq

def formatOf (block : Bytes) : Format :=
  let mark := field block 257 8
  if mark = Utf8.encode "ustar\x0000" then .ustar
  else if mark = Utf8.encode "ustar  \x00" then .gnu
  else .old

structure Header where
  format : Format
  flag : Char
  name : Bytes
  linkName : Option Bytes
  mode : Option Nat
  size : Nat
  /-- The block itself, for the fields only some members have. -/
  block : Bytes
  deriving DecidableEq

/-- The sum of the octets of a block with the checksum field taken as blanks. -/
def checksum (block : Bytes) : Nat :=
  (block.take 148 ++ block.drop 156).foldl (fun n b => n + b.toNat) (8 * 32)

def nameOf (format : Format) (block : Bytes) : Bytes :=
  let name := untilZero (field block 0 100)
  let lead := untilZero (field block 345 155)
  if format = .ustar ∧ lead ≠ [] then lead ++ 0x2F :: name else name

def Header.read? (block : Bytes) : Option Header := do
  guard ((← octal? (field block 148 8)) = checksum block)
  let size ← number? (field block 124 12)
  let format := formatOf block
  let link := untilZero (field block 157 100)
  return {
    format, size, block
    flag := Char.ofNat (block.getD 156 0).toNat
    name := nameOf format block
    linkName := if link = [] then none else some link
    mode := octal? (field block 100 8) }

end LlvmBootstrap.Tar
