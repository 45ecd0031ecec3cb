import LlvmBootstrap.Text.Utf8

/-!
Scripts for a shell, as trees. A character stands for an octet, so that a script may hold any
octets. What stands inside an expansion is kept as text and read when it is needed.
-/

namespace LlvmBootstrap.Rehearsal

abbrev Chars := List Char

/-- Octets as characters of the same numbers. -/
def chars (bs : Bytes) : Chars := bs.map fun b => Char.ofNat b.toNat

def octets (cs : Chars) : Bytes := cs.map fun c => UInt8.ofNat c.toNat

/-- A part of a word. -/
inductive Part where
  | plain (cs : Chars)
  /-- In quotes, and so one piece even if it is empty. -/
  | exact (cs : Chars)
  /-- A parameter, with an operator and its word if there is one. -/
  | value (quoted : Bool) (name : Chars) (op : Option (Chars × Chars))
  | output (quoted : Bool) (script : Chars)
  | number (expression : Chars)
  deriving DecidableEq

abbrev Word := List Part

inductive Redirect where
  | toFile (fd : Nat) (append : Bool) (w : Word)
  | fromFile (w : Word)
  | toFd (fd : Nat) (other : Word)
  deriving DecidableEq

inductive Script where
  | idle
  | simple (settings : List (Chars × Word)) (words : List Word) (redirects : List Redirect)
  | next (a b : Script)
  | both (a b : Script)
  | either (a b : Script)
  | negated (a : Script)
  | pipe (a b : Script)
  | branch (condition yes no : Script)
  | loop (untilTrue : Bool) (condition body : Script)
  | each (name : Chars) (words : Option (List Word)) (body : Script)
  /-- Does what stands behind the pattern if the word fits it, and tries the rest if not. -/
  | choice (w : Word) (patterns : List Word) (yes no : Script)
  | group (apart : Bool) (body : Script) (redirects : List Redirect)
  deriving DecidableEq

/-! ### Words -/

def isNameStart (c : Char) : Bool := c.isAlpha || c = '_'

def isNamePart (c : Char) : Bool := c.isAlphanum || c = '_'

/-- Characters that end a word. -/
def isMeta (c : Char) : Bool := " \t\n;&|<>()".toList.contains c

/-- The text up to the closing text at depth zero, and what is behind it. Quotes and nested
brackets are passed over. -/
def upTo (opening closing : Char) : Nat → Nat → Chars → Option (Chars × Chars)
  | 0, _, _ => none
  | _, _, [] => none
  | fuel + 1, depth, c :: cs =>
    let keep := fun (front : Chars) (depth : Nat) (rest : Chars) =>
      (upTo opening closing fuel depth rest).map fun r => (front ++ r.1, r.2)
    if c = closing then
      if depth = 0 then some ([], cs) else keep [c] (depth - 1) cs
    else if c = opening then keep [c] (depth + 1) cs
    else if c = '\\' then keep (c :: cs.take 1) depth (cs.drop 1)
    else if c = '\'' then
      let inner := cs.takeWhile (· ≠ '\'')
      keep (c :: cs.take (inner.length + 1)) depth (cs.drop (inner.length + 1))
    else keep [c] depth cs

/-- The operator and the word behind the name of a parameter in braces. -/
def operator? : Chars → Option (Option (Chars × Chars))
  | [] => some none
  | ':' :: c :: cs => if "-+=?".toList.contains c then some (some ([':', c], cs)) else none
  | c :: cs => if "-+=?%#".toList.contains c then some (some ([c], cs)) else none

/-- What stands in the braces behind a dollar sign. -/
def braced? (quoted : Bool) (cs : Chars) : Option Part :=
  match cs with
  | '#' :: c :: cs => some (.value quoted (c :: cs) (some (['#', '#', '#'], [])))
  | c :: rest => do
    let name :=
      if isNameStart c then (c :: rest).takeWhile isNamePart
      else if c.isDigit then (c :: rest).takeWhile Char.isDigit else [c]
    let op ← operator? ((c :: rest).drop name.length)
    return .value quoted name op
  | [] => none

/-- What stands behind a dollar sign. -/
def dollar? (quoted : Bool) (fuel : Nat) (cs : Chars) : Option (Part × Chars) :=
  match cs with
  | '(' :: '(' :: cs => do
    let (inner, rest) ← upTo '(' ')' fuel 0 cs
    let ')' :: rest := rest | none
    return (.number inner, rest)
  | '(' :: cs => (upTo '(' ')' fuel 0 cs).map fun r => (.output quoted r.1, r.2)
  | '\x7b' :: cs => do
    let (inner, rest) ← upTo '\x7b' '\x7d' fuel 0 cs
    return (← braced? quoted inner, rest)
  | c :: cs =>
    if isNameStart c then
      let name := (c :: cs).takeWhile isNamePart
      some (.value quoted name none, (c :: cs).drop name.length)
    else if c.isDigit ∨ "?#*@$!-".toList.contains c then some (.value quoted [c] none, cs)
    else some (.exact ['$'], c :: cs)
  | [] => some (.exact ['$'], [])

/-- The parts up to the closing double quote. -/
def inQuotes? : Nat → Chars → Option (Word × Chars)
  | 0, _ => none
  | _, [] => none
  | fuel + 1, c :: cs =>
    let keep := fun (p : Part) (rest : Chars) => (inQuotes? fuel rest).map fun r =>
      (p :: r.1, r.2)
    if c = '"' then some ([], cs)
    else if c = '\\' then
      match cs with
      | '\n' :: cs => inQuotes? fuel cs
      | d :: cs =>
        if "$\x60\"\\".toList.contains d then keep (.exact [d]) cs
          else keep (.exact ['\\', d]) cs
      | [] => none
    else if c = '$' then do
      let (p, rest) ← dollar? true fuel cs
      keep p rest
    else if c = '\x60' then
      let inner := cs.takeWhile (· ≠ '\x60')
      keep (.output true inner) (cs.drop (inner.length + 1))
    else keep (.exact [c]) cs

/-- The word at the front, which has no parts if there is none. -/
def word? : Nat → Chars → Option (Word × Chars)
  | 0, _ => none
  | _, [] => some ([], [])
  | fuel + 1, c :: cs =>
    let keep := fun (ps : Word) (rest : Chars) => (word? fuel rest).map fun r =>
      (ps ++ r.1, r.2)
    if isMeta c then some ([], c :: cs)
    else if c = '\\' then
      match cs with
      | '\n' :: cs => word? fuel cs
      | d :: cs => keep [.exact [d]] cs
      | [] => keep [.exact ['\\']] []
    else if c = '\'' then
      let inner := cs.takeWhile (· ≠ '\'')
      if inner.length = cs.length then none
      else keep [.exact inner] (cs.drop (inner.length + 1))
    else if c = '"' then do
      let (ps, rest) ← inQuotes? fuel cs
      keep (.exact [] :: ps) rest
    else if c = '$' then do
      let (p, rest) ← dollar? false fuel cs
      keep [p] rest
    else if c = '\x60' then
      let inner := cs.takeWhile (· ≠ '\x60')
      keep [.output false inner] (cs.drop (inner.length + 1))
    else keep [.plain [c]] cs

/-! ### Commands -/

/-- Passes over blanks and comments. -/
def skipBlanks : Chars → Chars
  | '\\' :: '\n' :: cs => skipBlanks cs
  | '#' :: cs => cs.dropWhile (· ≠ '\n')
  | c :: cs => if c = ' ' ∨ c = '\t' then skipBlanks cs else c :: cs
  | [] => []

/-- Passes over line ends as well. -/
def skipLines : Nat → Chars → Chars
  | 0, cs => cs
  | fuel + 1, cs =>
    match skipBlanks cs with
    | '\n' :: cs => skipLines fuel cs
    | cs => cs

/-- The characters of the word at the front. -/
def peek (cs : Chars) : Chars := cs.takeWhile fun c => !(isMeta c)

def closers : List String := ["then", "else", "elif", "fi", "do", "done", "esac", "\x7d"]

/-- Whether nothing more of a list of commands stands here. -/
def isClosed (cs : Chars) : Bool :=
  match cs with
  | [] => true
  | ')' :: _ | ';' :: ';' :: _ => true
  | cs => closers.contains (String.ofList (peek cs))

/-- Takes a reserved word. -/
def reserved? (w : String) (fuel : Nat) (cs : Chars) : Option Chars :=
  let cs := skipLines fuel cs
  if String.ofList (peek cs) = w then some (cs.drop w.length) else none

/-- The redirection at the front, if there is one. -/
def redirect? (fuel : Nat) (cs : Chars) : Option (Redirect × Chars) := do
  let digits := cs.takeWhile Char.isDigit
  let fd := digits.foldl (fun n c => n * 10 + (c.toNat - '0'.toNat)) 0
  let known := digits ≠ []
  match cs.drop digits.length with
  | '>' :: '>' :: cs =>
    let (w, rest) ← word? fuel (skipBlanks cs)
    return (.toFile (if known then fd else 1) true w, rest)
  | '>' :: '&' :: cs =>
    let (w, rest) ← word? fuel (skipBlanks cs)
    return (.toFd (if known then fd else 1) w, rest)
  | '>' :: cs =>
    let (w, rest) ← word? fuel (skipBlanks cs)
    return (.toFile (if known then fd else 1) false w, rest)
  | '<' :: cs =>
    let (w, rest) ← word? fuel (skipBlanks cs)
    return (.fromFile w, rest)
  | _ => none

/-- The redirections at the front. -/
def redirects : Nat → Chars → List Redirect × Chars
  | 0, cs => ([], cs)
  | fuel + 1, cs =>
    match redirect? fuel (skipBlanks cs) with
    | some (r, rest) =>
      let (rs, rest) := redirects fuel rest
      (r :: rs, rest)
    | none => ([], cs)

/-- The name that a word sets, if it has the form of a setting, and
the word's characters behind it. -/
def setting? (cs : Chars) : Option (Chars × Chars) :=
  match cs with
  | c :: _ =>
    let name := cs.takeWhile isNamePart
    match cs.drop name.length with
    | '=' :: rest => if isNameStart c then some (name, rest) else none
    | _ => none
  | [] => none

/-- The words of a simple command, with its settings in front and its redirections anywhere. -/
def simple? : Nat → List (Chars × Word) → List Word → List Redirect → Chars →
    Option (Script × Chars)
  | 0, _, _, _, _ => none
  | fuel + 1, ss, ws, rs, cs =>
    let cs := skipBlanks cs
    match redirect? fuel cs with
    | some (r, rest) => simple? fuel ss ws (rs ++ [r]) rest
    | none =>
      match if ws = [] then setting? cs else none with
      | some (name, value) => do
        let (w, rest) ← word? fuel value
        simple? fuel (ss ++ [(name, w)]) ws rs rest
      | none => do
        let (w, rest) ← word? fuel cs
        if w = [] then
          if ss = [] ∧ ws = [] ∧ rs = [] then none else return (.simple ss ws rs, rest)
        else simple? fuel ss (ws ++ [w]) rs rest

/-- The words up to the end of a command. -/
def words? : Nat → Chars → Option (List Word × Chars)
  | 0, _ => none
  | fuel + 1, cs => do
    let (w, rest) ← word? fuel (skipBlanks cs)
    if w = [] then return ([], rest)
    let (ws, rest) ← words? fuel rest
    return (w :: ws, rest)

/-- The patterns up to a closing bracket. -/
def patterns? : Nat → Chars → Option (List Word × Chars)
  | 0, _ => none
  | fuel + 1, cs => do
    let (w, rest) ← word? fuel (skipBlanks cs)
    match skipBlanks rest with
    | '|' :: rest =>
      let (ws, rest) ← patterns? fuel rest
      return (w :: ws, rest)
    | ')' :: rest => return ([w], rest)
    | _ => none

/-- Passes over one end of a command. -/
def skipEnd (cs : Chars) : Chars :=
  match skipBlanks cs with
  | ';' :: cs => cs
  | '\n' :: cs => cs
  | cs => cs

mutual

/-- Commands up to the end of what they stand in. -/
def list? : Nat → Chars → Option (Script × Chars)
  | 0, _ => none
  | fuel + 1, cs =>
    let cs := skipLines fuel cs
    if isClosed cs then some (.idle, cs)
    else do
      let (a, rest) ← andOr? fuel cs
      match skipBlanks rest with
      | ';' :: ';' :: rest => return (a, ';' :: ';' :: rest)
      | ';' :: rest | '\n' :: rest =>
        let (b, rest) ← list? fuel rest
        return (if b = .idle then a else .next a b, rest)
      | rest => if isClosed rest then return (a, rest) else none

def andOr? : Nat → Chars → Option (Script × Chars)
  | 0, _ => none
  | fuel + 1, cs => do
    let (a, rest) ← pipeline? fuel cs
    moreAndOr? fuel a rest

def moreAndOr? : Nat → Script → Chars → Option (Script × Chars)
  | 0, _, _ => none
  | fuel + 1, a, cs =>
    match skipBlanks cs with
    | '&' :: '&' :: rest => do
      let (b, rest) ← pipeline? fuel (skipLines fuel rest)
      moreAndOr? fuel (.both a b) rest
    | '|' :: '|' :: rest => do
      let (b, rest) ← pipeline? fuel (skipLines fuel rest)
      moreAndOr? fuel (.either a b) rest
    | cs => some (a, cs)

def pipeline? : Nat → Chars → Option (Script × Chars)
  | 0, _ => none
  | fuel + 1, cs => do
    match reserved? "!" fuel cs with
    | some cs =>
      let (a, rest) ← pipeline? fuel cs
      return (.negated a, rest)
    | none =>
      let (a, rest) ← command? fuel (skipBlanks cs)
      match skipBlanks rest with
      | '|' :: '|' :: _ => return (a, rest)
      | '|' :: rest =>
        let (b, rest) ← pipeline? fuel (skipLines fuel rest)
        return (.pipe a b, rest)
      | _ => return (a, rest)

/-- What stands behind `if` or `elif`. -/
def branch? : Nat → Chars → Option (Script × Chars)
  | 0, _ => none
  | fuel + 1, cs => do
    let (condition, cs) ← list? fuel cs
    let (yes, cs) ← list? fuel (← reserved? "then" fuel cs)
    match reserved? "elif" fuel cs, reserved? "else" fuel cs with
    | some cs, _ =>
      let (no, cs) ← branch? fuel cs
      return (.branch condition yes no, cs)
    | none, some cs =>
      let (no, cs) ← list? fuel cs
      return (.branch condition yes no, ← reserved? "fi" fuel cs)
    | none, none => return (.branch condition yes .idle, ← reserved? "fi" fuel cs)

def body? : Nat → Chars → Option (Script × Chars)
  | 0, _ => none
  | fuel + 1, cs => do
    let (body, cs) ← list? fuel (← reserved? "do" fuel cs)
    return (body, ← reserved? "done" fuel cs)

/-- What stands behind `in`. -/
def choices? : Nat → Word → Chars → Option (Script × Chars)
  | 0, _, _ => none
  | fuel + 1, w, cs => do
    match reserved? "esac" fuel cs with
    | some cs => return (.idle, cs)
    | none =>
      let cs := skipLines fuel cs
      let (ps, cs) ← patterns? fuel (if cs.head? = some '(' then cs.tail else cs)
      let (yes, cs) ← list? fuel cs
      match skipLines fuel cs with
      | ';' :: ';' :: cs =>
        let (no, cs) ← choices? fuel w cs
        return (.choice w ps yes no, cs)
      | cs => return (.choice w ps yes .idle, ← reserved? "esac" fuel cs)

def command? : Nat → Chars → Option (Script × Chars)
  | 0, _ => none
  | fuel + 1, cs => do
    let (s, rest) ← compound? fuel cs
    match s with
    | .simple _ _ _ => return (s, rest)
    | .group apart body _ =>
      let (rs, rest) := redirects fuel rest
      return (.group apart body rs, rest)
    | s =>
      match redirects fuel rest with
      | ([], rest) => return (s, rest)
      | (rs, rest) => return (.group false s rs, rest)

def compound? : Nat → Chars → Option (Script × Chars)
  | 0, _ => none
  | fuel + 1, cs => do
    match String.ofList (peek cs), cs with
    | _, '(' :: cs =>
      let (body, cs) ← list? fuel cs
      let ')' :: cs := skipLines fuel cs | none
      return (.group true body [], cs)
    | "\x7b", cs =>
      let (body, cs) ← list? fuel (cs.drop 1)
      return (.group false body [], ← reserved? "\x7d" fuel cs)
    | "if", cs => branch? fuel (cs.drop 2)
    | "while", cs =>
      let (condition, cs) ← list? fuel (cs.drop 5)
      let (body, cs) ← body? fuel cs
      return (.loop false condition body, cs)
    | "until", cs =>
      let (condition, cs) ← list? fuel (cs.drop 5)
      let (body, cs) ← body? fuel cs
      return (.loop true condition body, cs)
    | "case", cs =>
      let (w, cs) ← word? fuel (skipBlanks (cs.drop 4))
      choices? fuel w (← reserved? "in" fuel cs)
    | "for", cs =>
      let cs := skipBlanks (cs.drop 3)
      let name := peek cs
      let cs := cs.drop name.length
      match reserved? "in" fuel cs with
      | some cs =>
        let (ws, cs) ← words? fuel cs
        let (body, cs) ← body? fuel (skipEnd cs)
        return (.each name (some ws) body, cs)
      | none =>
        let (body, cs) ← body? fuel (skipEnd cs)
        return (.each name none body, cs)
    | _, cs => simple? fuel [] [] [] cs

end

/-- Reads a whole script. -/
def Script.read? (cs : Chars) : Option Script := do
  let (s, rest) ← list? (16 * cs.length + 64) cs
  if rest = [] then some s else none

end LlvmBootstrap.Rehearsal
