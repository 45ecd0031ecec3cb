import LlvmBootstrap.Path
import LlvmBootstrap.Tar.Header
import LlvmBootstrap.Tar.Pax
import LlvmBootstrap.Tar.Sparse

/-!
The members of a tar stream in order. Members that only describe the next one (its long name,
its long link name, its extension records) are taken up into it. The stream ends at a block of
zeros or where the data ends in front of a header; anything else that stops the reading is
damage.
-/

namespace LlvmBootstrap

/-- Octets that arrive in order, and whether the source breaks down behind them. -/
structure Stream where
  bytes : Bytes
  broken : Bool
  deriving DecidableEq

namespace Tar

inductive Kind where
  | file
  | directory
  | symlink
  | hardLink
  /-- Data about the archive, for which nothing is made. -/
  | metadata
  deriving DecidableEq

structure Member where
  path : Path
  kind : Kind
  target : Option Path
  mode : Option Nat
  content : Bytes
  /-- Whether all of the content was there. -/
  isWhole : Bool
  deriving DecidableEq

/-- The members up to the end of the stream or to where it is damaged. -/
structure Members where
  list : List Member
  damaged : Bool
  deriving DecidableEq

/-- What the members read so far say about the next one. -/
structure Pending where
  name : Option Bytes
  linkName : Option Bytes
  records : Option Bytes
  deriving DecidableEq

def Pending.none : Pending := ⟨.none, .none, .none⟩

/-- Whether a member only describes the next one. Members with old headers never do. -/
def Header.isDescribing (h : Header) : Bool :=
  h.format ≠ .old && (h.flag = 'L' || h.flag = 'K' || h.flag = 'x')

/-- Puts the data of a describing member in its place. Each thing is described once. -/
def Pending.add? (p : Pending) (h : Header) (data : Bytes) : Option (Option Pending) :=
  if !h.isDescribing then some .none
  else match h.flag with
    | 'L' => if p.name.isSome then .none else some (some { p with name := some data })
    | 'K' => if p.linkName.isSome then .none else some (some { p with linkName := some data })
    | 'x' => if p.records.isSome then .none else some (some { p with records := some data })
    | _ => some .none

def withoutLastZero (bs : Bytes) : Bytes :=
  if bs.getLast? = some 0 then bs.dropLast else bs

def Pending.pathFor (p : Pending) (h : Header) : Path :=
  ⟨match p.name with
    | some n => withoutLastZero n
    | .none => (p.records.bind (Pax.value? "path")).getD h.name⟩

def Pending.targetFor (p : Pending) (h : Header) : Option Path :=
  (match p.linkName with
    | some n => some (withoutLastZero n)
    | .none => (p.records.bind (Pax.value? "linkpath")).or h.linkName).map Path.mk

/-- A name that ends in a separator is a directory's, except in ustar headers. -/
def kindOf (h : Header) (path : Path) : Kind :=
  match h.flag with
  | '5' => .directory
  | '2' => .symlink
  | '1' => .hardLink
  | 'x' | 'g' | 'L' | 'K' => .metadata
  | _ =>
    if h.format ≠ .ustar ∧ path.bytes.getLast? = some Path.slash then .directory else .file

def member (p : Pending) (h : Header) (content : Bytes × Bool) : Member :=
  let path := p.pathFor h
  { path
    kind := kindOf h path
    target := p.targetFor h
    mode := h.mode
    content := content.1
    isWhole := content.2 }

/-- The size of data with its padding to whole blocks. -/
def padded (size : Nat) : Nat := (size + (blockSize - 1)) / blockSize * blockSize

def Members.cons (m : Member) (ms : Members) : Members := { ms with list := m :: ms.list }

/-- The size of a member's data. The one in the extension records is
that of the described member. -/
def Pending.sizeFor (p : Pending) (h : Header) : Nat :=
  if h.isDescribing then h.size else (p.records.bind (Pax.number? "size")).getD h.size

/-- The header at the front, with the size that counts. -/
def nextHeader? (p : Pending) (block : Bytes) : Option Header := do
  let h ← Header.read? block
  let h := { h with size := p.sizeFor h }
  guard (padded h.size < Numeral.limit 64)
  return h

/-- The pieces of a member's content and what follows its header. -/
def pieces? (h : Header) (rest : Bytes) : Option (List Sparse.Piece × Bytes) :=
  if h.flag = 'S' then Sparse.read? h rest else some ([⟨0, h.size⟩], rest)

theorem Sparse.length_readMore? {size : Nat} {more : Bool} {p q : Progress}
    {rest rest' : Bytes} (h : readMore? size more p rest = some (q, rest')) :
    rest'.length ≤ rest.length := by
  fun_induction readMore? size more p rest with
  | case1 more p rest _ => simp at h; simp [h.2]
  | case2 => simp at h
  | case3 more p rest _ hlen block ih =>
    simp only [Option.bind_eq_bind, Option.bind_eq_some_iff] at h
    obtain ⟨p', _, hr⟩ := h
    exact Nat.le_trans (ih p' hr) (by simp)

theorem length_pieces? {h : Header} {rest rest' : Bytes} {ps : List Sparse.Piece}
    (hp : pieces? h rest = some (ps, rest')) : rest'.length ≤ rest.length := by
  unfold pieces? at hp
  split at hp
  · unfold Sparse.read? at hp
    obtain ⟨_, _, hp⟩ := Option.bind_eq_some_iff.1 hp
    obtain ⟨_, _, hp⟩ := Option.bind_eq_some_iff.1 hp
    obtain ⟨⟨p, r⟩, hm, hp⟩ := Option.bind_eq_some_iff.1 hp
    obtain ⟨_, _, hp⟩ := Option.bind_eq_some_iff.1 hp
    obtain ⟨_, _, hp⟩ := Option.bind_eq_some_iff.1 hp
    obtain ⟨_, rfl⟩ := Prod.mk.inj (Option.some.inj hp)
    exact Sparse.length_readMore? hm
  · simp at hp
    simp [hp.2]

def readFrom (broken : Bool) (p : Pending) (s : Bytes) : Members :=
  if s = [] then ⟨[], broken || decide (p ≠ .none)⟩
  else if hlen : s.length < blockSize then ⟨[], true⟩
  else
    let block := s.take blockSize
    if block.all (· = 0) then ⟨[], decide (p ≠ .none)⟩
    else
      match nextHeader? p block with
      | .none => ⟨[], true⟩
      | some h =>
        match hp : pieces? h (s.drop blockSize) with
        | .none => ⟨[], true⟩
        | some (ps, rest) =>
          have : rest.length < s.length := by
            have := length_pieces? hp
            simp only [List.length_drop, blockSize] at this hlen ⊢
            omega
          let isCut := rest.length < padded h.size
          match p.add? h (rest.take h.size) with
          | .none => ⟨[], true⟩
          | some (some p) =>
            if isCut then ⟨[], true⟩ else readFrom broken p (rest.drop (padded h.size))
          | some .none =>
            (if isCut then ⟨[], true⟩
              else readFrom broken .none (rest.drop (padded h.size))).cons
              (member p h (Sparse.expand ps (rest.take h.size)))
termination_by s.length
decreasing_by all_goals simp only [List.length_drop]; omega

/-- The members of a stream. -/
def read (s : Stream) : Members := readFrom s.broken .none s.bytes

end Tar

end LlvmBootstrap
