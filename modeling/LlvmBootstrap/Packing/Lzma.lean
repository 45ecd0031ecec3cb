import LlvmBootstrap.Packing.RangeCoder

/-!
Unpacking of the LZMA2 format: a sequence of chunks, each of which holds octets as they are or
as a range-coded sequence of symbols. A symbol is an octet or a stretch of what was unpacked
before. What a reader keeps from symbol to symbol (and from chunk to chunk, unless the chunk
says otherwise) is the chances, the last four distances, and of which kind the last symbols
were.
-/

namespace LlvmBootstrap.Lzma

open RangeCoder

/-- How packed data ends: as it should, because there is no more of
it, or with an error in it. -/
inductive Ending where
  | complete
  | missing
  | wrong
  deriving DecidableEq

/-- How many bits of the octet before (`lc`) and of the position
(`lp`, `pb`) tell chances apart. -/
structure Properties where
  lc : Nat
  lp : Nat
  pb : Nat
  deriving DecidableEq

def Properties.read? (b : UInt8) : Option Properties := do
  let n := b.toNat
  guard (n < 9 * 5 * 5)
  let p : Properties := ⟨n % 9, n / 9 % 5, n / 45⟩
  guard (p.lc + p.lp ≤ 4)
  return p

/-! ### Where each chance is kept -/

def isMatchAt : Nat := 0
def isRepAt : Nat := 192
def isRep0At : Nat := 204
def isRep1At : Nat := 216
def isRep2At : Nat := 228
def isLongRepAt : Nat := 240
def slotAt : Nat := 432
def alignAt : Nat := 688
def specialAt : Nat := 704
def lengthAt : Nat := 832
def repLengthAt : Nat := 1360
def literalAt : Nat := 1888

def freshChances (p : Properties) : Array UInt16 :=
  Array.replicate (literalAt + 0x300 * Nat.pow 2 (p.lc + p.lp)) evenChance

/-! ### Symbols -/

/-- What is kept of earlier symbols. The distances are counted from zero for the last octet. -/
structure History where
  /-- Which kinds of symbols the last ones were; below seven, the last one was an octet. -/
  kind : Nat
  rep0 : Nat
  rep1 : Nat
  rep2 : Nat
  rep3 : Nat
  deriving DecidableEq

def History.fresh : History := ⟨0, 0, 0, 0, 0⟩

def afterLiteral (kind : Nat) : Nat :=
  if kind < 4 then 0 else if kind < 10 then kind - 3 else kind - 6

def wasLiteral (kind : Nat) : Bool := kind < 7

inductive Symbol where
  | literal (b : UInt8)
  | back (distance length : Nat)

/-- An octet where the octet at the last distance is known to be another one: as long as the
bits read agree with it, they have chances of their own. -/
def unlike (base : Nat) (other : Nat) : Nat → Nat → Nat → Reader Nat
  | 0, _, x => return x
  | n + 1, agree, x => do
    let expected := other / Nat.pow 2 n % 2
    let b ← bit (base + agree * (1 + expected) * 0x100 + x)
    unlike base other n (if agree = 1 ∧ b = expected then 1 else 0) (2 * x + b)

def literal (p : Properties) (h : History) (position : Nat) (last other : UInt8) :
    Reader UInt8 := do
  let choice := position % Nat.pow 2 p.lp * Nat.pow 2 p.lc + last.toNat / Nat.pow 2 (8 - p.lc)
  let base := literalAt + 0x300 * choice
  let x ← if wasLiteral h.kind then tree base 8 1 else unlike base other.toNat 8 1 1
  return UInt8.ofNat (x - 0x100)

/-- The length of a stretch, counted from zero for the shortest one. -/
def length (base posState : Nat) : Reader Nat := do
  if (← bit base) = 0 then number (base + 2 + posState * 8) 3
  else if (← bit (base + 1)) = 0 then return 8 + (← number (base + 130 + posState * 8) 3)
  else return 16 + (← number (base + 258) 8)

/-- A distance that is written out: its two highest bits and its size first. -/
def distance (length : Nat) : Reader Nat := do
  let slot ← number (slotAt + 64 * min length 3) 6
  if slot < 4 then return slot
  let n := slot / 2 - 1
  let high := (2 + slot % 2) * Nat.pow 2 n
  if slot < 14 then return high + (← numberUp (specialAt + high - slot) n)
  let middle ← evenBits (n - 4) 0
  return high + middle * 16 + (← numberUp alignAt 4)

def shortest : Nat := 2

/-- The distance of a symbol that takes up one of the last four, and the new order of them. -/
def recent (h : History) : Reader History := do
  if (← bit (isRep1At + h.kind)) = 0 then return { h with rep0 := h.rep1, rep1 := h.rep0 }
  else if (← bit (isRep2At + h.kind)) = 0 then
    return { h with rep0 := h.rep2, rep1 := h.rep0, rep2 := h.rep1 }
  else return { h with rep0 := h.rep3, rep1 := h.rep0, rep2 := h.rep1, rep3 := h.rep2 }

/-- A stretch at the last distance, with its length behind. -/
def again (posState : Nat) (h : History) : Reader (Symbol × History) := do
  let n ← length repLengthAt posState
  return (.back h.rep0 (n + shortest), { h with kind := if wasLiteral h.kind then 8 else 11 })

def symbol (p : Properties) (h : History) (position : Nat) (last other : UInt8) :
    Reader (Symbol × History) := do
  let posState := position % Nat.pow 2 p.pb
  if (← bit (isMatchAt + h.kind * 16 + posState)) = 0 then
    return (.literal (← literal p h position last other),
      { h with kind := afterLiteral h.kind })
  else if (← bit (isRepAt + h.kind)) = 0 then
    let n ← length lengthAt posState
    let d ← distance n
    return (.back d (n + shortest),
      ⟨if wasLiteral h.kind then 7 else 10, d, h.rep0, h.rep1, h.rep2⟩)
  else if (← bit (isRep0At + h.kind)) = 0 then
    if (← bit (isLongRepAt + h.kind * 16 + posState)) = 0 then
      return (.back h.rep0 1, { h with kind := if wasLiteral h.kind then 9 else 11 })
    else again posState h
  else again posState (← recent h)

/-- Repeats `length` octets from `distance` back; a stretch may run into itself. -/
def repeatBack (distance : Nat) : Nat → Array UInt8 → Array UInt8
  | 0, out => out
  | n + 1, out => repeatBack distance n (out.push (out.getD (out.size - 1 - distance) 0))

/-! ### Chunks -/

/-- What a reader of chunks keeps. -/
structure Progress where
  out : Array UInt8
  /-- Where in `out` the stretch begins that distances may lead into. -/
  start : Nat
  properties : Option Properties
  history : History
  chances : Array UInt16

/-- What is read back at a distance; in front of the start all is zero. -/
def lookBack (out : Array UInt8) (start distance : Nat) : UInt8 :=
  if distance < out.size - start then out.getD (out.size - 1 - distance) 0 else 0

/-- Symbols that make up `size` octets, as far as they can be read. Each symbol makes at least
one octet, so `fuel` need not be more than the size. -/
def symbols (p : Properties) (start limit : Nat) :
    Nat → Coder → History → Array UInt8 → Array UInt8 × Option (Coder × History)
  | 0, c, h, out => (out, some (c, h))
  | fuel + 1, c, h, out =>
    if limit ≤ out.size then (out, some (c, h)) else
    match symbol p h (out.size - start) (lookBack out start 0)
      (lookBack out start h.rep0) c with
    | none => (out, none)
    | some ((.literal b, h), c) => symbols p start limit fuel c h (out.push b)
    | some ((.back d n, h), c) =>
      if out.size - start ≤ d then (out, none)
      else
        let room := limit - out.size
        if room < n then (repeatBack d room out, none)
        else symbols p start limit fuel c h (repeatBack d n out)

/-- A chunk of symbols. It has to be used up to its end, with nothing
left over in the coder. -/
def unpackChunk (p : Properties) (size : Nat) (packed : Bytes) (g : Progress) :
    Progress × Bool :=
  match packed with
  | 0 :: a :: b :: c :: d :: input =>
    let code : UInt32 := [a, b, c, d].foldl (fun n x => (n <<< 8) ||| x.toUInt32) 0
    let ⟨out, start, properties, history, chances⟩ := g
    match symbols p start (out.size + size) size
      ⟨0xFFFFFFFF, code, input, chances⟩ history out with
    | (out, none) => (⟨out, start, properties, history, #[]⟩, false)
    | (out, some (coder, history)) =>
      match refill coder with
      | none => (⟨out, start, properties, history, #[]⟩, false)
      | some (_, coder) =>
        (⟨out, start, properties, history, coder.chances⟩,
          coder.code = 0 && coder.input.isEmpty)
  | _ => (g, false)

/-- What a chunk of symbols asks to be forgotten before it is read, and the properties it
brings: nothing, the history, or (with properties) also the chances. -/
def prepare (control : UInt8) (bs : Bytes) (g : Progress) : Option (Progress × Bytes) :=
  if 0xC0 ≤ control then
    match bs with
    | [] => none
    | b :: bs => (Properties.read? b).map fun p =>
      ({ g with properties := some p, history := .fresh, chances := freshChances p }, bs)
  else
    match g.properties with
    | none => none
    | some p =>
      if 0xA0 ≤ control then some ({ g with history := .fresh, chances := freshChances p }, bs)
      else some (g, bs)

/-- Unpacked octets, how the data ends, and what is behind it. -/
structure Result where
  out : Array UInt8
  ending : Ending
  rest : Bytes

def size16 (a b : UInt8) : Nat := a.toNat * 256 + b.toNat + 1

/-- Chunks up to the mark of the end. `isFirst` says that none has begun a stretch yet; the
count of octets bounds the chunks. -/
def chunks (isFirst : Bool) (g : Progress) : Nat → Bytes → Result
  | 0, bs => ⟨g.out, .missing, bs⟩
  | _ + 1, [] => ⟨g.out, .missing, []⟩
  | fuel + 1, control :: bs =>
    if control = 0 then ⟨g.out, .complete, bs⟩
    else
      let begins := 0xE0 ≤ control ∨ control = 1
      if isFirst ∧ ¬begins ∨ 2 < control ∧ control < 0x80 then ⟨g.out, .wrong, bs⟩ else
      let g := if begins then { g with start := g.out.size, properties := none } else g
      if control < 0x80 then
        match bs with
        | a :: b :: bs =>
          let n := size16 a b
          let g := { g with out := g.out ++ (bs.take n).toArray }
          if bs.length < n then ⟨g.out, .missing, []⟩ else chunks false g fuel (bs.drop n)
        | _ => ⟨g.out, .missing, []⟩
      else
        match bs with
        | a :: b :: c :: d :: bs =>
          let size := (control.toNat % 32) * 65536 + size16 a b
          let n := size16 c d
          match bs, prepare control bs g with
          | [], _ => ⟨g.out, .missing, []⟩
          | _, none => ⟨g.out, .wrong, bs⟩
          | _, some (g, bs) =>
            match g.properties with
            | none => ⟨g.out, .wrong, bs⟩
            | some p =>
              match unpackChunk p size (bs.take n) g with
              | (g, false) => ⟨g.out, if bs.length < n then .missing else .wrong, bs⟩
              | (g, true) => chunks false g fuel (bs.drop n)
        | _ => ⟨g.out, .missing, []⟩

/-- Unpacks chunks behind what has been unpacked so far. -/
def unpack (out : Array UInt8) (bs : Bytes) : Result :=
  chunks true ⟨out, out.size, none, .fresh, #[]⟩ (bs.length + 1) bs

end LlvmBootstrap.Lzma
