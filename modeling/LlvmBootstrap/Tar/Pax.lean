import LlvmBootstrap.Path
import LlvmBootstrap.Text.Numeral

/-!
Extension records: lines of the form `LENGTH KEY=VALUE`, where the length counts the whole line
with its line feed. A line of any other form is malformed; an empty line ends the records.
-/

namespace LlvmBootstrap.Tar.Pax

abbrev Record := Bytes × Bytes

def newline : UInt8 := 0x0A

/-- The octets before the first `sep` and those behind it, if there is one. -/
def cut? (sep : UInt8) : Bytes → Option (Bytes × Bytes)
  | [] => none
  | b :: bs => if b = sep then some ([], bs) else (cut? sep bs).map fun r => (b :: r.1, r.2)

/-- The pieces between line feeds. -/
def lines : Bytes → List Bytes
  | [] => [[]]
  | b :: bs =>
    match lines bs with
    | [] => [[b]]
    | l :: ls => if b = newline then [] :: l :: ls else (b :: l) :: ls

def record? (line : Bytes) : Option Record := do
  let (length, rest) ← cut? 0x20 line
  let reported ← Numeral.word64? (← Utf8.decode? length).toList
  guard (reported = line.length + 1)
  cut? 0x3D rest

/-- The records in order; `none` stands for a malformed line. -/
def records (data : Bytes) : List (Option Record) :=
  ((lines data).takeWhile (· ≠ [])).map record?

/-- The value of the first well-formed record with a key, malformed lines passed over. -/
def value? (key : String) (data : Bytes) : Option Bytes :=
  (((records data).filterMap id).find? (·.1 = Utf8.encode key)).map (·.2)

/-- The number in the first record with a key. A malformed line before it ends the search. -/
def number? (key : String) (data : Bytes) : Option Nat := do
  let (_, v) ← (((records data).takeWhile (·.isSome)).filterMap id).find?
    (·.1 = Utf8.encode key)
  Numeral.word64? (← Utf8.decode? v).toList

end LlvmBootstrap.Tar.Pax
