import LlvmBootstrap.Text.Utf8

/-!
The binary range coder: a sequence of bits packed by how likely each of them is. A reader
narrows a range of numbers bit by bit and takes in another octet whenever the range has become
small. The chances of a zero, in parts of 2048, are kept in an array and move with every bit
read.
-/

namespace LlvmBootstrap.RangeCoder

structure Coder where
  range : UInt32
  code : UInt32
  input : Bytes
  chances : Array UInt16

/-- Reading bits, until the input runs out. -/
abbrev Reader := StateT Coder Option

def evenChance : UInt16 := 1024

/-- Takes in an octet if the range has become small. -/
def refill : Reader Unit := fun ⟨range, code, input, chances⟩ =>
  if range < 0x1000000 then
    match input with
    | [] => none
    | b :: bs => some ((), ⟨range <<< 8, (code <<< 8) ||| b.toUInt32, bs, chances⟩)
  else some ((), ⟨range, code, input, chances⟩)

/-- A bit whose chance is number `i`. -/
def bit (i : Nat) : Reader Nat := do
  refill
  fun ⟨range, code, input, chances⟩ =>
    let p := chances.getD i evenChance
    let bound := (range >>> 11) * p.toUInt32
    if code < bound then
      some (0, ⟨bound, code, input, chances.setIfInBounds i (p + ((2048 - p) >>> 5))⟩)
    else
      some (1, ⟨range - bound, code - bound, input, chances.setIfInBounds i (p - (p >>> 5))⟩)

/-- A bit of which both values are as likely. -/
def evenBit : Reader Nat := do
  refill
  fun ⟨range, code, input, chances⟩ =>
    let half := range >>> 1
    if code < half then some (0, ⟨half, code, input, chances⟩)
    else some (1, ⟨half, code - half, input, chances⟩)

/-- A number of `n` even bits behind `x`, the highest first. -/
def evenBits : Nat → Nat → Reader Nat
  | 0, x => return x
  | n + 1, x => do evenBits n (2 * x + (← evenBit))

/-- A number of `n` bits behind `x`, the highest first; the chance of
each depends on those before. -/
def tree (base : Nat) : Nat → Nat → Reader Nat
  | 0, x => return x
  | n + 1, x => do tree base n (2 * x + (← bit (base + x)))

/-- A number of `n` bits, the highest first. -/
def number (base n : Nat) : Reader Nat := do return (← tree base n 1) - Nat.pow 2 n

/-- A number of `n` bits, the lowest first. -/
def numberUp (base n : Nat) : Reader Nat := go n 1 0
where
  go : Nat → Nat → Nat → Reader Nat
    | 0, _, value => return value
    | left + 1, x, value => do
      let b ← bit (base + x)
      go left (2 * x + b) (value + b * Nat.pow 2 (n - (left + 1)))

end LlvmBootstrap.RangeCoder
