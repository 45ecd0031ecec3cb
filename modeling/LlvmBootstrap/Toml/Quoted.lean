import LlvmBootstrap.Text.Hex
import LlvmBootstrap.Toml.Cursor

/-!
Texts in quotes. Double quotes allow escapes, single quotes take all as it is; three quotes of
either kind enclose a text of several lines, a line end right behind the opening ones left out.
-/

namespace LlvmBootstrap.Toml.Reader

def escapes : List (Char × Char) :=
  [('b', '\x08'), ('t', '\t'), ('n', '\n'), ('f', '\x0c'), ('r', '\r'),
    ('e', '\x1b'), ('"', '"'),
    ('\\', '\\')]

/-- The character with a number that is written in `n` hexadecimal digits. -/
def numbered (n : Nat) : Reader Char := do
  let cs := (← get).rest.take n
  match cs.foldlM (fun n c => (Hex.value? c).map (n * 16 + ·)) 0 with
  | some code =>
    need (cs.length = n && (code < 0xD800 || 0xDFFF < code && code < 0x110000))
    drop n
    return Char.ofNat code
  | none => fail

/-- An escape, behind its backslash. -/
def escape : Reader Char := do
  match ← next? with
  | some 'x' => drop 1; numbered 2
  | some 'u' => drop 1; numbered 4
  | some 'U' => drop 1; numbered 8
  | some c =>
    match escapes.lookup c with
    | some e => drop 1; return e
    | none => fail
  | none => fail

/-- The rest of a text on one line, up to the closing quote. -/
def lineText (quote : Char) : Nat → Reader (List Char)
  | 0 => fail
  | fuel + 1 => do
    match ← next? with
    | none => fail
    | some c =>
      if c = quote then
        drop 1
        return []
      else if c = '\\' ∧ quote = '"' then
        drop 1
        let e ← escape
        return e :: (← lineText quote fuel)
      else
        need (isPlain c)
        drop 1
        return c :: (← lineText quote fuel)

/-- Whether a line ends here but for blanks. -/
def restIsBlank : Reader Bool := do
  let rest := (← get).rest.dropWhile isSpace
  return "\n".toList.isPrefixOf rest || "\r\n".toList.isPrefixOf rest

def isBlankOrEnd (c : Char) : Bool := isSpace c || c = '\n' || c = '\r'

/-- The rest of a text of several lines. Up to two quotes may stand right before the closing
ones. A backslash at the end of a line takes all blanks and line ends behind it away. -/
def linesText (quote : Char) : Nat → Reader (List Char)
  | 0 => fail
  | fuel + 1 => do
    match ← next? with
    | none => fail
    | some c =>
      if c = quote then
        let quotes := ((← get).rest.take 5).takeWhile (· = quote)
        drop quotes.length
        if 3 ≤ quotes.length then return quotes.drop 3
        else return quotes ++ (← linesText quote fuel)
      else if c = '\\' ∧ quote = '"' then
        drop 1
        if ← restIsBlank then
          let _ ← stretch isBlankOrEnd
          linesText quote fuel
        else
          let e ← escape
          return e :: (← linesText quote fuel)
      else if ← newline then return '\n' :: (← linesText quote fuel)
      else
        need (isPlain c)
        drop 1
        return c :: (← linesText quote fuel)

/-- A text on one line, from its opening quote on. -/
def quotedLine (quote : Char) : Reader String := do
  drop 1
  return String.ofList (← lineText quote ((← get).rest.length + 1))

/-- A text in quotes, from its opening quotes on. -/
def quotedText (quote : Char) : Reader String := do
  if ← takes (String.ofList [quote, quote, quote]) then
    let _ ← newline
    return String.ofList (← linesText quote ((← get).rest.length + 1))
  else quotedLine quote

end LlvmBootstrap.Toml.Reader
