import LlvmBootstrap.Decimal.Binary64

/-!
Documents in TOML as trees. Keys and values are kept with the place where they stand, so that
what is wrong with one can be pointed at. A table also says how it came about, which decides
what may still be added to it.
-/

namespace LlvmBootstrap.Toml

/-- Something with the number of characters in front of it. -/
structure Placed (α : Type) where
  place : Nat
  it : α
  deriving DecidableEq

inductive Float where
  | finite (negative : Bool) (d : Decimal)
  | infinite (negative : Bool)
  | notANumber
  deriving DecidableEq

inductive TableKind where
  /-- Made since a header leads through it. -/
  | implied
  /-- Made since a key leads through it. -/
  | dotted
  | defined
  | inline
  deriving DecidableEq

inductive Value where
  | text (s : String)
  | integer (n : Int)
  | float (f : Float)
  | boolean (b : Bool)
  /-- A date, a time or both, in their normal form. -/
  | moment (s : String)
  | array (ofTables : Bool) (elements : List (Placed Value))
  | table (kind : TableKind) (entries : List (Placed String × Placed Value))

abbrev Entries := List (Placed String × Placed Value)

/-- A key with dots. -/
abbrev Keys := List (Placed String)

end LlvmBootstrap.Toml
