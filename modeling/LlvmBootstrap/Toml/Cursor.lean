import LlvmBootstrap.Toml.Value

/-!
Reading characters in order, with an error that is a place in the text.
-/

namespace LlvmBootstrap.Toml

structure Cursor where
  place : Nat
  rest : List Char
  deriving DecidableEq

abbrev Reader := StateT Cursor (Except Nat)

namespace Reader

variable {α : Type}

def fail : Reader α := do throw (← get).place

def need (p : Bool) : Reader Unit := if p then return () else fail

/-- Whether a text stands at the front. -/
def sees (s : String) : Reader Bool := do return s.toList.isPrefixOf (← get).rest

def drop (n : Nat) : Reader Unit := modify fun c => ⟨c.place + n, c.rest.drop n⟩

def expect (s : String) : Reader Unit := do
  need (← sees s)
  drop s.length

/-- Takes a text if it stands at the front, and tells whether it did. -/
def takes (s : String) : Reader Bool := do
  if ← sees s then
    drop s.length
    return true
  else return false

def next? : Reader (Option Char) := do return (← get).rest.head?

/-- The longest stretch of characters that satisfy `p`. -/
def stretch (p : Char → Bool) : Reader (List Char) := do
  let cs := (← get).rest.takeWhile p
  drop cs.length
  return cs

def atEnd : Reader Bool := do return (← get).rest.isEmpty

def isSpace (c : Char) : Bool := c = ' ' || c = '\t'

def spaces : Reader Unit := do let _ ← stretch isSpace

/-- Characters that may stand as they are wherever text is free. -/
def isPlain (c : Char) : Bool := c = '\t' || 0x20 ≤ c.toNat && c.toNat ≠ 0x7F

def comment : Reader Unit := do
  if ← sees "#" then
    let _ ← stretch isPlain

/-- Takes the end of a line, if one stands at the front. -/
def newline : Reader Bool := do
  if ← takes "\n" then return true else takes "\r\n"

/-- The end of a line or of the text, blanks and a comment before it. -/
def lineEnd : Reader Unit := do
  spaces
  comment
  if !(← newline) then need (← atEnd)

/-- Passes over blanks, comments and ends of lines. Each takes a character, so the count of
characters bounds their number. -/
def gap : Reader Unit := do
  go ((← get).rest.length + 1)
where
  go : Nat → Reader Unit
    | 0 => return ()
    | fuel + 1 => do
      spaces
      comment
      if ← newline then go fuel

end Reader

end LlvmBootstrap.Toml
