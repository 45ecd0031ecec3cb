import LlvmBootstrap.Rehearsal.Script

/-!
Whole-number expressions of scripts. Operators bind in levels; those of one level are taken
from left to right.
-/

namespace LlvmBootstrap.Rehearsal.Arithmetic

abbrev Operator := String × (Int → Int → Option Int)

def ofBool (b : Bool) : Int := if b then 1 else 0

/-- The operators, those that bind least first. Of two that begin
alike the longer one comes first. -/
def levels : List (List Operator) :=
  [[("||", fun a b => ofBool (a ≠ 0 || b ≠ 0))],
    [("&&", fun a b => ofBool (a ≠ 0 && b ≠ 0))],
    [("==", fun a b => ofBool (a = b)), ("!=", fun a b => ofBool (a ≠ b))],
    [("<=", fun a b => ofBool (a ≤ b)), (">=", fun a b => ofBool (b ≤ a)),
      ("<", fun a b => ofBool (a < b)), (">", fun a b => ofBool (b < a))],
    [("+", fun a b => some (a + b)), ("-", fun a b => some (a - b))],
    [("*", fun a b => some (a * b)), ("/", fun a b => if b = 0 then none else some (a.tdiv b)),
      ("%", fun a b => if b = 0 then none else some (a.tmod b))]]

def skip (cs : Chars) : Chars := cs.dropWhile fun c => " \t\n".toList.contains c

def naturalOf (cs : Chars) : Nat := cs.foldl (fun n c => n * 10 + (c.toNat - '0'.toNat)) 0

/-- A number with an optional sign; anything else counts as zero. -/
def integerOf (cs : Chars) : Int :=
  match cs with
  | '-' :: cs => -(naturalOf (cs.takeWhile Char.isDigit))
  | cs => naturalOf (cs.takeWhile Char.isDigit)

def operatorAt? (ops : List Operator) (cs : Chars) : Option (Operator × Chars) :=
  (ops.find? fun o => o.1.toList.isPrefixOf cs).map fun o => (o, cs.drop o.1.length)

variable (valueOf : Chars → Int)

mutual

def level? : Nat → List (List Operator) → Chars → Option (Int × Chars)
  | 0, _, _ => none
  | fuel + 1, [], cs =>
    match skip cs with
    | '(' :: cs => do
      let (n, cs) ← level? fuel levels cs
      let ')' :: cs := skip cs | none
      return (n, cs)
    | '-' :: cs => (level? fuel [] cs).map fun r => (-r.1, r.2)
    | '!' :: cs => (level? fuel [] cs).map fun r => (ofBool (r.1 = 0), r.2)
    | '$' :: cs => level? fuel [] cs
    | c :: cs =>
      if c.isDigit then
        let digits := (c :: cs).takeWhile Char.isDigit
        some (naturalOf digits, (c :: cs).drop digits.length)
      else if isNameStart c then
        let name := (c :: cs).takeWhile isNamePart
        some (valueOf name, (c :: cs).drop name.length)
      else none
    | [] => none
  | fuel + 1, ops :: tighter, cs => do
    let (a, cs) ← level? fuel tighter cs
    more? fuel ops tighter a cs

def more? : Nat → List Operator → List (List Operator) → Int → Chars → Option (Int × Chars)
  | 0, _, _, _, _ => none
  | fuel + 1, ops, tighter, a, cs =>
    match operatorAt? ops (skip cs) with
    | none => some (a, cs)
    | some (o, cs) => do
      let (b, cs) ← level? fuel tighter cs
      more? fuel ops tighter (← o.2 a b) cs

end

/-- The value of an expression, given the values of its variables. -/
def value? (cs : Chars) : Option Int := do
  let (n, rest) ← level? valueOf (16 * cs.length + 64) levels cs
  if skip rest = [] then some n else none

end LlvmBootstrap.Rehearsal.Arithmetic
