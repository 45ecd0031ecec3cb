/-!
Finite maps kept as lists of entries in strictly rising key order. The order is part of the
type, so two maps with the same look-ups are equal, and walking a map visits its keys in order.
-/

namespace LlvmBootstrap

structure SortedMap (κ ν : Type) [Ord κ] where
  entries : List (κ × ν)
  rising : entries.Pairwise fun a b => compare a.1 b.1 = .lt
  deriving DecidableEq

namespace SortedMap

variable {κ ν : Type} [Ord κ]

def empty : SortedMap κ ν := ⟨[], .nil⟩

instance : Inhabited (SortedMap κ ν) := ⟨empty⟩

/-- The value of the first entry whose key compares equal. -/
def find (k : κ) : List (κ × ν) → Option ν
  | [] => none
  | e :: es => if compare k e.1 = .eq then some e.2 else find k es

def get? (m : SortedMap κ ν) (k : κ) : Option ν := find k m.entries

@[simp] theorem get?_empty (k : κ) : (empty : SortedMap κ ν).get? k = none := rfl

def contains (m : SortedMap κ ν) (k : κ) : Bool := (m.get? k).isSome

def keys (m : SortedMap κ ν) : List κ := m.entries.map (·.1)

def size (m : SortedMap κ ν) : Nat := m.entries.length

/-- Puts an entry at its place, over an entry with the same key. -/
def place (k : κ) (v : ν) : List (κ × ν) → List (κ × ν)
  | [] => [(k, v)]
  | e :: es =>
    match compare k e.1 with
    | .lt => (k, v) :: e :: es
    | .eq => (k, v) :: es
    | .gt => e :: place k v es

theorem mem_place {k : κ} {v : ν} {a : κ × ν} {es : List (κ × ν)} (h : a ∈ place k v es) :
    a = (k, v) ∨ a ∈ es := by
  induction es with
  | nil => simpa [place] using h
  | cons e es ih =>
    unfold place at h
    split at h
    · simpa using h
    · simp only [List.mem_cons] at h ⊢
      exact h.imp_right .inr
    · simp only [List.mem_cons] at h ⊢
      rcases h with h | h
      · exact .inr (.inl h)
      · exact (ih h).imp_right .inr

section Ordered

variable [Std.TransOrd κ] [Std.LawfulEqOrd κ]

theorem rising_place (k : κ) (v : ν) {es : List (κ × ν)}
    (h : es.Pairwise fun a b => compare a.1 b.1 = .lt) :
    (place k v es).Pairwise fun a b => compare a.1 b.1 = .lt := by
  induction es with
  | nil => simp [place]
  | cons e es ih =>
    have he : ∀ a ∈ es, compare e.1 a.1 = .lt := fun a ha => List.rel_of_pairwise_cons h ha
    unfold place
    split
    · next hk =>
      refine .cons (fun a ha => ?_) h
      rcases List.mem_cons.1 ha with rfl | ha
      · exact hk
      · exact Std.TransCmp.lt_trans hk (he a ha)
    · next hk =>
      have : k = e.1 := Std.LawfulEqOrd.eq_of_compare hk
      exact .cons (fun a ha => this ▸ he a ha) h.of_cons
    · next hk =>
      refine .cons (fun a ha => ?_) (ih h.of_cons)
      rcases mem_place ha with rfl | ha
      · exact Std.OrientedCmp.lt_of_gt hk
      · exact he a ha

def insert (m : SortedMap κ ν) (k : κ) (v : ν) : SortedMap κ ν :=
  ⟨place k v m.entries, rising_place k v m.rising⟩

/-- The entries in turn, a later one over an earlier one with the same key. -/
def insertAll (m : SortedMap κ ν) (es : List (κ × ν)) : SortedMap κ ν :=
  es.foldl (fun m e => m.insert e.1 e.2) m

def ofList (es : List (κ × ν)) : SortedMap κ ν := empty.insertAll es

omit [Std.TransOrd κ] in
theorem find_place_self (k : κ) (v : ν) (es : List (κ × ν)) :
    find k (place k v es) = some v := by
  induction es with
  | nil => simp [place, find]
  | cons e es ih =>
    unfold place
    split
    · simp [find]
    · simp [find]
    · next hk => simp [find, hk, ih]

omit [Std.TransOrd κ] in
theorem find_place_of_ne {k k' : κ} (v : ν) (es : List (κ × ν)) (h : k' ≠ k) :
    find k' (place k v es) = find k' es := by
  have hne : compare k' k ≠ .eq := fun e => h (Std.LawfulEqOrd.eq_of_compare e)
  induction es with
  | nil => simp [place, find, hne]
  | cons e es ih =>
    unfold place
    split
    · simp [find, hne]
    · next hk =>
      have : k = e.1 := Std.LawfulEqOrd.eq_of_compare hk
      simp [find, hne, ← this]
    · simp [find, ih]

@[simp] theorem get?_insert_self (m : SortedMap κ ν) (k : κ) (v : ν) :
    (m.insert k v).get? k = some v := find_place_self k v m.entries

theorem get?_insert_of_ne (m : SortedMap κ ν) {k k' : κ} (v : ν) (h : k' ≠ k) :
    (m.insert k v).get? k' = m.get? k' := find_place_of_ne v m.entries h

end Ordered

/-- The entries that pass a test. -/
def filter (m : SortedMap κ ν) (p : κ → ν → Bool) : SortedMap κ ν :=
  ⟨m.entries.filter fun e => p e.1 e.2, m.rising.filter _⟩

def erase (m : SortedMap κ ν) (k : κ) : SortedMap κ ν :=
  m.filter fun k' _ => compare k k' ≠ .eq

theorem find_filter_self (k : κ) (es : List (κ × ν)) :
    find k (es.filter fun e => decide (compare k e.1 ≠ .eq)) = none := by
  induction es with
  | nil => rfl
  | cons e es ih =>
    by_cases h : compare k e.1 = .eq <;> simp_all [find]

@[simp] theorem get?_erase_self (m : SortedMap κ ν) (k : κ) : (m.erase k).get? k = none :=
  find_filter_self k m.entries

theorem get?_erase_of_ne [Std.TransOrd κ] [Std.LawfulEqOrd κ] (m : SortedMap κ ν) {k k' : κ}
    (h : k' ≠ k) : (m.erase k).get? k' = m.get? k' := by
  simp only [get?, erase, filter]
  induction m.entries with
  | nil => rfl
  | cons e es ih =>
    by_cases hk : compare k e.1 = .eq
    · have hke : k = e.1 := Std.LawfulEqOrd.eq_of_compare hk
      have hne : compare k' e.1 ≠ .eq :=
        fun e' => h ((Std.LawfulEqOrd.eq_of_compare e').trans hke.symm)
      simp_all [find]
    · simp_all [find]

end SortedMap

end LlvmBootstrap
