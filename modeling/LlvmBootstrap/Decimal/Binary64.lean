/-!
Binary floating-point numbers of 64 bits, as whole numbers times powers of two. A ratio is
rounded to the nearest one, a tie to the one with an even mantissa; the decimal shown for a
number is the one with the fewest digits that is rounded to it.
-/

namespace LlvmBootstrap

/-- The number `mantissa * 2 ^ exponent`. The mantissa has 53 bits, or
the exponent is the least. -/
structure Binary64 where
  mantissa : Nat
  exponent : Int
  deriving DecidableEq

/-- The number `digits * 10 ^ exponent`. -/
structure Decimal where
  digits : Nat
  exponent : Int
  deriving DecidableEq

namespace Binary64

def least : Int := -1074

def zero : Binary64 := ⟨0, least⟩

/-- A power as a ratio. -/
def power (base : Nat) (e : Int) : Nat × Nat := (Nat.pow base e.toNat, Nat.pow base (-e).toNat)

/-- The whole number nearest to a ratio, the even one of two. -/
def roundDiv (num den : Nat) : Nat :=
  let n := num / den
  let r := num % den
  if 2 * r < den ∨ 2 * r = den ∧ n % 2 = 0 then n else n + 1

/-- The exponent of the highest power of two that a positive ratio reaches. -/
def log2 (num den : Nat) : Int :=
  let e : Int := num.log2 - den.log2
  let (a, b) := power 2 e
  if num * b < den * a then e - 1 else e

/-- A ratio rounded to a number, unless it is too large for any. -/
def ofRatio? (num den : Nat) : Option Binary64 :=
  if num = 0 then some zero
  else
    let e := max (log2 num den - 52) least
    let (a, b) := power 2 e
    let m := roundDiv (num * b) (den * a)
    let half := Nat.pow 2 52
    let (m, e) := if m = 2 * half then (half, e + 1) else (m, e)
    if 971 < e then none else some ⟨m, e⟩

/-- How many decimal digits a number has. -/
def width (n : Nat) : Nat := (Nat.toDigits 10 n).length

/-- A decimal rounded to a number, unless it is too large for any. -/
def ofDecimal? (d : Decimal) : Option Binary64 :=
  let top : Int := width d.digits + d.exponent
  if d.digits = 0 ∨ top < -330 then some zero
  else if 310 < top then none
  else
    let (a, b) := power 10 d.exponent
    ofRatio? (d.digits * a) b

def ratio (x : Binary64) : Nat × Nat :=
  let (a, b) := power 2 x.exponent
  (x.mantissa * a, b)

/-- The multiple of a power of ten next to a number that is rounded to it, if there is one. -/
def onGrid? (x : Binary64) (k : Int) : Option Decimal :=
  let (num, den) := x.ratio
  let (a, b) := power 10 k
  let below := num * b / (den * a)
  let nearest := roundDiv (num * b) (den * a)
  [nearest, below, below + 1].findSome? fun n =>
    if ofDecimal? ⟨n, k⟩ = some x then some ⟨n, k⟩ else none

/-- The decimal with the fewest digits that is rounded to a number. Seventeen digits always do,
and the first of them lies on one of the three highest grids that are tried. -/
def shortest (x : Binary64) : Decimal :=
  let (num, den) := x.ratio
  let top : Int := width num - width den + 1
  let found := (List.range 20).findSome? fun (i : Nat) => x.onGrid? (top - i)
  if x.mantissa = 0 then ⟨0, 0⟩ else found.getD ⟨0, 0⟩

end Binary64

/-- A decimal written out in full, with a point and at least one digit at both sides of it. -/
def Decimal.text (d : Decimal) : String :=
  let digits := Nat.toDigits 10 d.digits
  if 0 ≤ d.exponent then
    String.ofList (digits ++ List.replicate d.exponent.toNat '0') ++ ".0"
  else
    let places := (-d.exponent).toNat
    let padded := List.replicate (places + 1 - digits.length) '0' ++ digits
    String.ofList (padded.take (padded.length - places)) ++ "." ++
      String.ofList (padded.drop (padded.length - places))

end LlvmBootstrap
