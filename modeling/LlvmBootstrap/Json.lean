import LlvmBootstrap.Text.Hex

/-!
Data in JSON. Numbers are kept as written, since only who reads one knows which numbers will
do. A text in quotes is kept as code points, of which escapes can give some that are no
characters; those are found when the text is asked for.
-/

namespace LlvmBootstrap

/-- Code points as written, halves of surrogate pairs apart. -/
abbrev CodePoints := List Nat

inductive Json where
  | null
  | boolean (b : Bool)
  | number (text : List Char)
  | quoted (points : CodePoints)
  | array (elements : List Json)
  | object (members : List (CodePoints × Json))

namespace Json

def isHighHalf (n : Nat) : Bool := 0xD800 ≤ n && n < 0xDC00

def isLowHalf (n : Nat) : Bool := 0xDC00 ≤ n && n < 0xE000

/-- The characters of code points, where two halves of a pair make one. -/
def chars? : CodePoints → Option (List Char)
  | [] => some []
  | high :: low :: ns =>
    if isHighHalf high then
      if isLowHalf low then
        (chars? ns).map (Char.ofNat (0x10000 + (high - 0xD800) * 0x400 + (low - 0xDC00)) :: ·)
      else none
    else if isLowHalf high then none
    else (chars? (low :: ns)).map (Char.ofNat high :: ·)
  | [n] => if isHighHalf n || isLowHalf n then none else some [Char.ofNat n]

def text? (ns : CodePoints) : Option String := (chars? ns).map String.ofList

/-! ### Reading -/

def isSpace (c : Char) : Bool := c = ' ' || c = '\n' || c = '\t' || c = '\r'

def skip (cs : List Char) : List Char := cs.dropWhile isSpace

/-- The characters with an escape of one letter. -/
def escapes : List (Char × Char) :=
  [('"', '"'), ('\\', '\\'), ('/', '/'), ('b', '\x08'), ('f', '\x0c'),
    ('n', '\n'), ('r', '\r'),
    ('t', '\t')]

def hex4? : List Char → Option Nat
  | [a, b, c, d] => [a, b, c, d].foldlM (fun n c => (Hex.value? c).map (n * 16 + ·)) 0
  | _ => none

/-- The code points up to the closing quote, and what is behind it. -/
def quoted? : List Char → Option (CodePoints × List Char)
  | [] => none
  | '"' :: cs => some ([], cs)
  | '\\' :: 'u' :: a :: b :: c :: d :: cs => do
    let n ← hex4? [a, b, c, d]
    let (ns, rest) ← quoted? cs
    return (n :: ns, rest)
  | '\\' :: e :: cs => do
    let c ← escapes.lookup e
    let (ns, rest) ← quoted? cs
    return (c.toNat :: ns, rest)
  | c :: cs =>
    if c.toNat < 0x20 ∨ c = '\\' then none
    else do
      let (ns, rest) ← quoted? cs
      return (c.toNat :: ns, rest)

/-- One or more digits. -/
def digits? (cs : List Char) : Option (List Char × List Char) :=
  match cs.span Char.isDigit with
  | ([], _) => none
  | r => some r

def fraction? : List Char → Option (List Char × List Char)
  | '.' :: cs => (digits? cs).map fun r => ('.' :: r.1, r.2)
  | cs => some ([], cs)

def exponent? : List Char → Option (List Char × List Char)
  | e :: cs =>
    if e = 'e' ∨ e = 'E' then
      match cs with
      | s :: cs' =>
        if s = '+' ∨ s = '-' then (digits? cs').map fun r => (e :: s :: r.1, r.2)
        else (digits? cs).map fun r => (e :: r.1, r.2)
      | [] => none
    else some ([], e :: cs)
  | [] => some ([], [])

/-- A number, whose whole part has no zero in front. -/
def number? (cs : List Char) : Option (List Char × List Char) := do
  let (sign, cs) := match cs with
    | '-' :: cs => (['-'], cs)
    | cs => ([], cs)
  let (whole, cs) ← digits? cs
  guard (whole.head? ≠ some '0' ∨ whole.length = 1)
  let (fraction, cs) ← fraction? cs
  let (exponent, cs) ← exponent? cs
  return (sign ++ whole ++ fraction ++ exponent, cs)

def word? (word : String) (cs : List Char) : Option (List Char) :=
  if word.toList.isPrefixOf cs then some (cs.drop word.length) else none

mutual

/-- A value at the front, and what is behind it. Each value takes a character, so the count of
characters is enough for `fuel`. -/
def value? : Nat → List Char → Option (Json × List Char)
  | 0, _ => none
  | fuel + 1, cs =>
    match skip cs with
    | '"' :: cs => (quoted? cs).map fun r => (.quoted r.1, r.2)
    | '[' :: cs =>
      match skip cs with
      | ']' :: cs => some (.array [], cs)
      | cs => (elements? fuel cs).map fun r => (.array r.1, r.2)
    | '\x7b' :: cs =>
      match skip cs with
      | '\x7d' :: cs => some (.object [], cs)
      | cs => (members? fuel cs).map fun r => (.object r.1, r.2)
    | 'n' :: cs => (word? "ull" cs).map (.null, ·)
    | 't' :: cs => (word? "rue" cs).map (.boolean true, ·)
    | 'f' :: cs => (word? "alse" cs).map (.boolean false, ·)
    | cs => (number? cs).map fun r => (.number r.1, r.2)

/-- The elements of an array up to its end; there is at least one. -/
def elements? : Nat → List Char → Option (List Json × List Char)
  | 0, _ => none
  | fuel + 1, cs => do
    let (v, cs) ← value? fuel cs
    match skip cs with
    | ',' :: cs => (elements? fuel cs).map fun r => (v :: r.1, r.2)
    | ']' :: cs => some ([v], cs)
    | _ => none

/-- The members of an object up to its end; there is at least one. -/
def members? : Nat → List Char → Option (List (CodePoints × Json) × List Char)
  | 0, _ => none
  | fuel + 1, cs => do
    let '"' :: cs := skip cs | none
    let (key, cs) ← quoted? cs
    let ':' :: cs := skip cs | none
    let (v, cs) ← value? fuel cs
    match skip cs with
    | ',' :: cs => (members? fuel cs).map fun r => ((key, v) :: r.1, r.2)
    | '\x7d' :: cs => some ([(key, v)], cs)
    | _ => none

end

/-- Reads a text that holds one value and blanks. -/
def ofText? (s : String) : Option Json := do
  let (v, rest) ← value? (s.length + 1) s.toList
  if skip rest = [] then some v else none

/-! ### Writing -/

def escaped (c : Char) : List Char :=
  match (escapes.filter (·.1 ≠ '/')).find? (·.2 = c) with
  | some (e, _) => ['\\', e]
  | none => if c.toNat < 0x20 then "\\u00".toList ++ Hex.pair (UInt8.ofNat c.toNat) else [c]

/-- A text in quotes. -/
def quote (s : String) : String := String.ofList ('"' :: s.toList.flatMap escaped ++ ['"'])

end Json

end LlvmBootstrap
