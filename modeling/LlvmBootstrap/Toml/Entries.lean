import LlvmBootstrap.Toml.Value

/-!
Adding to tables. A key with dots leads through tables, which are made where they are missing;
a table that is closed or that was made in another way may not be led through or made again.
What is refused is told by the place of the key.
-/

namespace LlvmBootstrap.Toml.Entries

/-- Changes the value of a key, or gives it one. -/
def update (k : Placed String) (f : Option (Placed Value) → Except Nat (Placed Value)) :
    Entries → Except Nat Entries
  | [] => do return [(k, ← f none)]
  | e :: es =>
    if e.1.it = k.it then do return (e.1, ← f (some e.2)) :: es
    else do return e :: (← update k f es)

/-- Whether a key may lead through a table of a kind. Keys in front of values lead only through
tables that such keys or the headers of other tables have made. -/
def isOpen (dotted : Bool) : TableKind → Bool
  | .inline => false
  | .defined => !dotted
  | .implied | .dotted => true

/-- Changes the last one of some tables. -/
def inLast (f : Entries → Except Nat Entries) :
    List (Placed Value) → Except Nat (List (Placed Value))
  | [] => .ok []
  | [⟨p, .table kind es⟩] => do return [⟨p, .table kind (← f es)⟩]
  | t :: ts => do return t :: (← inLast f ts)

/-- Changes the entries of the table at a key, which may be the last
one of an array of tables. -/
def enter (dotted : Bool) (k : Placed String) (f : Entries → Except Nat Entries) :
    Option (Placed Value) → Except Nat (Placed Value)
  | none => do return ⟨k.place, .table (if dotted then .dotted else .implied) (← f [])⟩
  | some ⟨p, .table kind es⟩ =>
    if isOpen dotted kind then do return ⟨p, .table kind (← f es)⟩ else .error k.place
  | some ⟨p, .array true ts⟩ => do return ⟨p, .array true (← inLast f ts)⟩
  | some _ => .error k.place

/-- Changes the entries of the table that some keys lead to. -/
def within (dotted : Bool) (f : Entries → Except Nat Entries) :
    Keys → Entries → Except Nat Entries
  | [], es => f es
  | k :: ks, es => update k (enter dotted k (within dotted f ks)) es

/-- Adds a value under a key that is new. -/
def add (k : Placed String) (v : Placed Value) : Entries → Except Nat Entries :=
  update k fun
    | none => .ok v
    | some _ => .error k.place

/-- Adds a value under keys with dots. -/
def addAt (path : Keys) (k : Placed String) (v : Placed Value) :
    Entries → Except Nat Entries :=
  within true (add k v) path

/-- Makes the table of a header. One that is only implied so far becomes it. -/
def define (place : Nat) (k : Placed String) : Entries → Except Nat Entries :=
  update k fun
    | none => .ok ⟨place, .table .defined []⟩
    | some ⟨_, .table .implied es⟩ => .ok ⟨place, .table .defined es⟩
    | some _ => .error k.place

/-- Adds a table to an array of tables. -/
def push (place : Nat) (k : Placed String) : Entries → Except Nat Entries :=
  update k fun
    | none => .ok ⟨place, .array true [⟨place, .table .defined []⟩]⟩
    | some ⟨p, .array true ts⟩ => .ok ⟨p, .array true (ts ++ [⟨place, .table .defined []⟩])⟩
    | some _ => .error k.place

end LlvmBootstrap.Toml.Entries
