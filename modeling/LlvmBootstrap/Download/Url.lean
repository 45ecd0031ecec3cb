import LlvmBootstrap.Text.Hex
import LlvmBootstrap.Text.Numeral
import LlvmBootstrap.Text.Utf8

/-!
Addresses of downloads. Reading an address brings it to its normal form: scheme and host in
lower case, the default port left out, `.` and `..` resolved in the path, and characters that
may not stand in an address written as percent triples. `resolve?` reads a reference as seen
from another address.
-/

namespace LlvmBootstrap

structure Url where
  scheme : String
  /-- None for addresses that name no server at all. -/
  host : Option String
  port : Option Nat
  path : String
  query : Option String
  fragment : Option String
  deriving DecidableEq

/-- An answer of a server. -/
structure Response where
  status : Nat
  location : Option String
  body : Bytes
  deriving DecidableEq

namespace Url

/-- The default ports of the schemes whose paths are always read as hierarchies. -/
def specials : List (String × Option Nat) :=
  [("http", some 80), ("https", some 443), ("ftp", some 21), ("ws", some 80),
    ("wss", some 443),
    ("file", none)]

def isSpecial (scheme : String) : Bool := specials.any (·.1 = scheme)

def isControl (c : Char) : Bool := c.toNat < 0x20 || 0x7E < c.toNat

def isFragmentEscaped (c : Char) : Bool := isControl c || " \"<>`".toList.contains c

def isPathEscaped (c : Char) : Bool := isFragmentEscaped c || "#?\x7b\x7d".toList.contains c

def isQueryEscaped (special : Bool) (c : Char) : Bool :=
  isControl c || " \"#<>".toList.contains c || (special && c = '\'')

def triple (b : UInt8) : List Char := '%' :: (Hex.pair b).map Char.toUpper

def escape (p : Char → Bool) (cs : List Char) : List Char :=
  cs.flatMap fun c => if p c then (Utf8.encode c.toString).flatMap triple else [c]

/-- Octets with percent triples replaced by what they stand for. -/
def unescape : List Char → Bytes
  | '%' :: a :: b :: cs =>
    match Hex.value? a, Hex.value? b with
    | some high, some low => UInt8.ofNat (high * 16 + low) :: unescape cs
    | _, _ => 0x25 :: unescape (a :: b :: cs)
  | c :: cs => Utf8.encode c.toString ++ unescape cs
  | [] => []

def lower (cs : List Char) : List Char := cs.map Char.toLower

/-! ### Parts of an address -/

/-- The scheme in front of the first colon, if it is one. -/
def scheme? (cs : List Char) : Option (String × List Char) :=
  let name := cs.takeWhile fun c => c.isAlphanum || "+-.".toList.contains c
  match name, cs.drop name.length with
  | c :: _, ':' :: rest => if c.isAlpha then some (String.ofList (lower name), rest) else none
  | _, _ => none

/-- The text in front of the first character that satisfies `p`, and the rest. -/
def cut (p : Char → Bool) (cs : List Char) : List Char × List Char :=
  (cs.takeWhile fun c => !p c, cs.dropWhile fun c => !p c)

/-- The fragment and the query split off: what is in front of them, the query, the fragment. -/
def splitTail (cs : List Char) : List Char × Option (List Char) × Option (List Char) :=
  let (front, fragment) := cut (· = '#') cs
  let (path, query) := cut (· = '?') front
  (path, query.tail?, fragment.tail?)

def isDot (seg : List Char) : Bool := [".", "%2e"].contains (String.ofList (lower seg))

def isDotDot (seg : List Char) : Bool :=
  ["..", ".%2e", "%2e.", "%2e%2e"].contains (String.ofList (lower seg))

/-- The pieces between separators. -/
def segments (isSep : Char → Bool) : List Char → List (List Char)
  | [] => [[]]
  | c :: cs =>
    match segments isSep cs with
    | [] => [[c]]
    | s :: ss => if isSep c then [] :: s :: ss else (c :: s) :: ss

/-- `stack` holds the segments so far, last one first. A dot segment at the end leaves an empty
segment, which keeps the separator in front of it. -/
def resolveSegments (stack : List (List Char)) : List (List Char) → List (List Char)
  | [] => stack.reverse
  | s :: ss =>
    let isLast := ss.isEmpty
    if isDotDot s then resolveSegments (if isLast then [] :: stack.tail else stack.tail) ss
    else if isDot s then resolveSegments (if isLast then [] :: stack else stack) ss
    else resolveSegments (escape isPathEscaped s :: stack) ss

/-- The normal form of a path below `above`, whose segments are normal. -/
def normalPath (special : Bool) (above : List (List Char)) (cs : List Char) : String :=
  let segs := segments (fun c => c = '/' || (special && c = '\\')) cs
  String.ofList ((resolveSegments above.reverse segs).flatMap ('/' :: ·))

/-- The four numbers of an address of a machine written in up to four parts, each decimal,
octal or hexadecimal; the last part stands for all that is left. -/
def machineNumber? (host : List Char) : Option Nat := do
  let parts := segments (· = '.') host
  let parts := if parts.getLast? = some [] then parts.dropLast else parts
  guard (1 ≤ parts.length ∧ parts.length ≤ 4)
  let numbers ← parts.mapM number?
  guard (numbers.dropLast.all (· < 256))
  let final := numbers.getLast?.getD 0
  guard (final < Nat.pow 256 (5 - numbers.length))
  let lead := numbers.dropLast.zipIdx.foldl (fun n p => n + p.1 * Nat.pow 256 (3 - p.2)) 0
  return lead + final
where
  number? (cs : List Char) : Option Nat :=
    match cs with
    | [] => none
    | '0' :: 'x' :: cs => cs.foldlM (fun n c => (Hex.value? c).map (n * 16 + ·)) 0
    | '0' :: cs => Numeral.digits? 8 0 cs
    | cs => Numeral.digits? 10 0 cs

def isNumericHost (host : List Char) : Bool :=
  let parts := segments (· = '.') host
  let parts := if parts.getLast? = some [] then parts.dropLast else parts
  match parts.getLast? with
  | some (c :: cs) => (c :: cs).all Char.isDigit || (machineNumber?.number? (c :: cs)).isSome
  | _ => false

def machineText (n : Nat) : String :=
  ".".intercalate ([3, 2, 1, 0].map fun i => toString (n / Nat.pow 256 i % 256))

/-- The normal form of the host of a special address. -/
def host? (cs : List Char) : Option String :=
  match cs with
  | '[' :: inner =>
    if inner.getLast? = some ']' ∧ inner.dropLast.all fun c =>
      (Hex.value? c).isSome || c = ':' || c = '.'
    then some (String.ofList (lower cs)) else none
  | cs => do
    let host := lower (← Utf8.decode? (unescape cs)).toList
    guard (host ≠ [])
    guard (host.all fun c => 0x20 < c.toNat && c.toNat < 0x7F &&
      !("#/:<>?@[\\]^|%".toList.contains c))
    if isNumericHost host then return machineText (← machineNumber? host)
    return String.ofList host

/-- Server and port of an authority; who asks (`user@`) is not kept. -/
def authority? (scheme : String) (cs : List Char) : Option (String × Option Nat) := do
  let server := (segments (· = '@') cs).getLast?.getD []
  let (name, rest) := match server with
    | '[' :: _ =>
      let (inner, rest) := cut (· = ']') server
      (inner ++ rest.take 1, rest.drop 1)
    | _ => cut (· = ':') server
  let host ← host? name
  match rest with
  | [] | [':'] => return (host, none)
  | ':' :: digits =>
    let port ← if digits.all Char.isDigit then Numeral.digits? 10 0 digits else none
    guard (port < 65536)
    return (host, if specials.contains (scheme, some port) then none else some port)
  | _ => none

/-- Blanks and controls at the ends, and line breaks and tabs anywhere, say nothing. -/
def tidy (cs : List Char) : List Char :=
  let isEdge := fun c : Char => c.toNat ≤ 0x20
  (((cs.dropWhile isEdge).reverse.dropWhile isEdge).reverse).filter
    fun c => !("\t\n\r".toList.contains c)

def withTail (u : Url) (query fragment : Option (List Char)) : Url :=
  { u with
    query := query.map fun q => String.ofList (escape (isQueryEscaped (isSpecial u.scheme)) q)
    fragment := fragment.map fun f => String.ofList (escape isFragmentEscaped f) }

/-- What stands behind the slashes of a special address. -/
def afterSlashes? (scheme : String) (cs : List Char) : Option Url := do
  let (front, query, fragment) := splitTail cs
  let (authority, path) := cut (fun c => c = '/' || c = '\\') front
  let (host, port) ← authority? scheme authority
  let url : Url := ⟨scheme, some host, port, normalPath true [] (path.drop 1), none, none⟩
  return url.withTail query fragment

/-- An address of the scheme `file`, or of one whose addresses need not be hierarchies. -/
def other (scheme : String) (cs : List Char) : Url :=
  let (front, query, fragment) := splitTail cs
  let url : Url :=
    match front with
    | '/' :: '/' :: rest =>
      let (host, path) := cut (· = '/') rest
      let host := if scheme = "file" ∧ host = "localhost".toList then [] else host
      ⟨scheme, some (String.ofList host), none,
        if path = [] ∧ scheme ≠ "file" then ""
          else normalPath (scheme = "file") [] (path.drop 1),
        none, none⟩
    | '/' :: rest =>
      ⟨scheme, if scheme = "file" then some "" else none, none,
        normalPath (scheme = "file") [] rest, none, none⟩
    | front => ⟨scheme, none, none, String.ofList (escape isControl front), none, none⟩
  url.withTail query fragment

def isSlash (c : Char) : Bool := c = '/' || c = '\\'

/-- Reads an absolute address. -/
def ofChars? (cs : List Char) : Option Url := do
  let (scheme, rest) ← scheme? (tidy cs)
  if isSpecial scheme ∧ scheme ≠ "file" then afterSlashes? scheme (rest.dropWhile isSlash)
  else return other scheme rest

def ofText? (s : String) : Option Url := ofChars? s.toList

/-- The segments of a path but for the last. -/
def folder (path : String) : List (List Char) :=
  ((segments (· = '/') path.toList).drop 1).dropLast

/-- Reads a reference as seen from `base`. -/
def resolve? (base : Url) (ref : String) : Option Url := do
  let cs := tidy ref.toList
  let cs := match scheme? cs with
    | some (s, rest) =>
      if s = base.scheme ∧ !(rest.take 2).all isSlash then rest else cs
    | none => cs
  if (scheme? cs).isSome then ofChars? cs
  else
    let (path, query, fragment) := splitTail cs
    match path with
    | [] =>
      match query with
      | some q => return ({ base with fragment := none }).withTail (some q) fragment
      | none => return { base with fragment := (base.withTail none fragment).fragment }
    | c :: rest =>
      if isSlash c ∧ (rest.head?.map isSlash).getD false then
        afterSlashes? base.scheme (cs.dropWhile isSlash)
      else
        let path :=
          if isSlash c then normalPath true [] rest
          else normalPath true (folder base.path) path
        return { base with path := path }.withTail query fragment

/-! ### Writing -/

def tail (u : Url) : String :=
  (u.query.map ("?" ++ ·)).getD "" ++ (u.fragment.map ("#" ++ ·)).getD ""

def text (u : Url) : String :=
  let server := match u.host with
    | some h => "//" ++ h ++ (u.port.map fun p => ":" ++ toString p).getD ""
    | none => ""
  u.scheme ++ ":" ++ server ++ u.path ++ u.tail

/-- Whether an address can be downloaded from. -/
def isFetchable (u : Url) : Bool := u.scheme = "http" || u.scheme = "https"

end Url

end LlvmBootstrap
