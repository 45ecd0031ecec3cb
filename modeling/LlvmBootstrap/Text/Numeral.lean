/-!
Reading natural numbers. A numeral is one or more digits of its base, with an optional `+` in
front.
-/

namespace LlvmBootstrap.Numeral

/-- The value of a digit below ten, if it is one of the base. -/
def digit? (base : Nat) (c : Char) : Option Nat :=
  if '0' ≤ c ∧ c.toNat < '0'.toNat + base then some (c.toNat - '0'.toNat) else none

def digits? (base : Nat) : Nat → List Char → Option Nat
  | n, [] => some n
  | n, c :: cs => do digits? base (n * base + (← digit? base c)) cs

/-- For a base of at most ten. -/
def read? (base : Nat) (cs : List Char) : Option Nat :=
  match cs with
  | '+' :: c :: cs => digits? base 0 (c :: cs)
  | '+' :: [] | [] => none
  | cs => digits? base 0 cs

/-- The numbers that a word of so many bits can hold are those below this one. -/
def limit (bits : Nat) : Nat := Nat.pow 2 bits

/-- A decimal numeral for a number that a word of 64 bits can hold. -/
def word64? (cs : List Char) : Option Nat := do
  let n ← read? 10 cs
  if n < limit 64 then some n else none

end LlvmBootstrap.Numeral
