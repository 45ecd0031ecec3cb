import LlvmBootstrap.Text.Numeral

/-!
Dates and times of day, each alone or both together, these also with the distance from
universal time. The normal form writes every part in full.
-/

namespace LlvmBootstrap.Toml.Moment

/-- A number of exactly `n` digits at the front. -/
def number? (n : Nat) (cs : List Char) : Option (Nat × List Char) := do
  guard (n ≤ cs.length)
  return (← Numeral.digits? 10 0 (cs.take n), cs.drop n)

def padded (n width : Nat) : String :=
  let cs := Nat.toDigits 10 n
  String.ofList (List.replicate (width - cs.length) '0' ++ cs)

def isLeap (year : Nat) : Bool := year % 4 = 0 && (year % 100 ≠ 0 || year % 400 = 0)

def daysOf (year month : Nat) : Nat :=
  if month = 2 then (if isLeap year then 29 else 28)
  else if [4, 6, 9, 11].contains month then 30 else 31

def dash? (cs : List Char) : Option (List Char) := do
  let '-' :: cs := cs | none
  return cs

def colon? (cs : List Char) : Option (List Char) := do
  let ':' :: cs := cs | none
  return cs

def date? (cs : List Char) : Option (String × List Char) := do
  let (year, cs) ← number? 4 cs
  let (month, cs) ← number? 2 (← dash? cs)
  let (day, cs) ← number? 2 (← dash? cs)
  guard (1 ≤ month ∧ month ≤ 12 ∧ 1 ≤ day ∧ day ≤ daysOf year month)
  return (padded year 4 ++ "-" ++ padded month 2 ++ "-" ++ padded day 2, cs)

/-- The digits behind the point of the seconds, nine of them at most,
without zeros at the end. -/
def fraction? : List Char → Option (String × List Char)
  | '.' :: cs => do
    let digits := cs.takeWhile Char.isDigit
    guard (digits ≠ [])
    let kept := ((digits.take 9).reverse.dropWhile (· = '0')).reverse
    return (if kept = [] then "" else "." ++ String.ofList kept, cs.drop digits.length)
  | cs => some ("", cs)

def seconds? (cs : List Char) : Option (String × List Char) :=
  match cs with
  | ':' :: cs => do
    let (second, cs) ← number? 2 cs
    guard (second ≤ 60)
    let (fraction, cs) ← fraction? cs
    return (":" ++ padded second 2 ++ fraction, cs)
  | cs => some (":00", cs)

def time? (cs : List Char) : Option (String × List Char) := do
  let (hour, cs) ← number? 2 cs
  let (minute, cs) ← number? 2 (← colon? cs)
  guard (hour ≤ 23 ∧ minute ≤ 59)
  let (seconds, cs) ← seconds? cs
  return (padded hour 2 ++ ":" ++ padded minute 2 ++ seconds, cs)

/-- The distance from universal time, if it is given. -/
def offset? : List Char → Option String
  | [] => some ""
  | [c] => if c = 'Z' ∨ c = 'z' then some "Z" else none
  | sign :: cs => do
    guard (sign = '+' ∨ sign = '-')
    let (hour, cs) ← number? 2 cs
    let (minute, cs) ← number? 2 (← colon? cs)
    guard (hour ≤ 23 ∧ minute ≤ 59 ∧ cs = [])
    let sign := if sign = '-' ∧ (hour ≠ 0 ∨ minute ≠ 0) then "-" else "+"
    return sign ++ padded hour 2 ++ ":" ++ padded minute 2

/-- Reads a moment and gives its normal form. -/
def ofChars? (cs : List Char) : Option String :=
  match date? cs with
  | some (date, []) => some date
  | some (date, c :: rest) => do
    guard (['T', 't', ' '].contains c)
    let (time, rest) ← time? rest
    return date ++ "T" ++ time ++ (← offset? rest)
  | none => do
    let (time, []) ← time? cs | none
    return time

end LlvmBootstrap.Toml.Moment
