import LlvmBootstrap.Text.Hex
import LlvmBootstrap.Toml.Moment
import LlvmBootstrap.Toml.Value

/-!
Values without quotes or brackets: truth values, numbers, dates and times.
-/

namespace LlvmBootstrap.Toml.Scalar

/-- Digits without the underscores, which stand only between two digits. -/
def digits? (isDigit : Char → Bool) : List Char → Option (List Char)
  | [] => none
  | [c] => if isDigit c then some [c] else none
  | c :: '_' :: cs => if isDigit c then (digits? isDigit cs).map (c :: ·) else none
  | c :: cs => if isDigit c then (digits? isDigit cs).map (c :: ·) else none

def value (base : Nat) (cs : List Char) : Nat :=
  cs.foldl (fun n c => n * base + (Hex.value? c).getD 0) 0

/-- A number without sign, in one of the bases that are marked. -/
def marked? : List Char → Option Nat
  | '0' :: 'x' :: cs => (digits? (fun c => (Hex.value? c).isSome) cs).map (value 16)
  | '0' :: 'o' :: cs => (digits? (fun c => '0' ≤ c && c ≤ '7') cs).map (value 8)
  | '0' :: 'b' :: cs => (digits? (fun c => c = '0' || c = '1') cs).map (value 2)
  | _ => none

/-- The digits of a whole number, which has no zero in front. -/
def whole? (cs : List Char) : Option (List Char) := do
  let ds ← digits? Char.isDigit cs
  guard (ds.head? ≠ some '0' ∨ ds.length = 1)
  return ds

/-- A sign, if there is one, and what is behind it. -/
def sign : List Char → Bool × List Char
  | '-' :: cs => (true, cs)
  | '+' :: cs => (false, cs)
  | cs => (false, cs)

def exponent? : List Char → Option Int
  | [] => some 0
  | _ :: cs => do
    let (negative, cs) := sign cs
    let n := value 10 (← digits? Char.isDigit cs)
    return if negative then -n else n

def isExponentMark (c : Char) : Bool := c = 'e' || c = 'E'

/-- A number with a fraction or an exponent, without sign. -/
def decimal? (cs : List Char) : Option Decimal := do
  let mantissa := cs.takeWhile fun c => !(isExponentMark c)
  let rest := cs.drop mantissa.length
  let exponent ← exponent? rest
  let front := mantissa.takeWhile (· ≠ '.')
  let whole ← whole? front
  match mantissa.drop front.length with
  | [] =>
    guard (rest ≠ [])
    return ⟨value 10 whole, exponent⟩
  | _ :: places =>
    let fraction ← digits? Char.isDigit places
    return ⟨value 10 (whole ++ fraction), exponent - fraction.length⟩

def signed? (cs : List Char) : Option Value :=
  let (negative, cs) := sign cs
  if cs = "inf".toList then some (.float (.infinite negative))
  else if cs = "nan".toList then some (.float .notANumber)
  else
    match whole? cs with
    | some ds => some (.integer (if negative then -(value 10 ds) else value 10 ds))
    | none => (decimal? cs).map fun d => .float (.finite negative d)

/-- The value of a stretch of characters. -/
def ofChars? (cs : List Char) : Option Value :=
  if cs = "true".toList then some (.boolean true)
  else if cs = "false".toList then some (.boolean false)
  else
    match Moment.ofChars? cs with
    | some s => some (.moment s)
    | none =>
      match marked? cs with
      | some n => some (.integer n)
      | none => signed? cs

/-- Characters of such values. -/
def isPart (c : Char) : Bool := c.isAlphanum || "_+-.:".toList.contains c

/-- The stretch of characters at the front that make up a value. A date may be
parted from its time by a blank. -/
def stretch (cs : List Char) : List Char :=
  let first := cs.takeWhile isPart
  match cs.drop first.length with
  | ' ' :: c :: rest =>
    if c.isDigit ∧ (Moment.date? first).any (·.2 = []) then
      first ++ ' ' :: (c :: rest).takeWhile isPart
    else first
  | _ => first

end LlvmBootstrap.Toml.Scalar
