import LlvmBootstrap.Toml.Document
import Mathlib.Data.List.Nodup

/-!
The tables of a document as maps. What can be read at all has each key of a table once, however
its tables have come about: a value is put only under a key that is new, and whatever changes
the value of a key leaves the keys as they are.
-/

namespace LlvmBootstrap

theorem bind_eq_ok_iff {ε α β : Type} {x : Except ε α} {f : α → Except ε β} {b : β} :
    x >>= f = .ok b ↔ ∃ a, x = .ok a ∧ f a = .ok b := by
  cases x with
  | error e => exact iff_of_false nofun (by rintro ⟨a, ⟨⟩, -⟩)
  | ok a => exact ⟨fun h => ⟨a, rfl, h⟩, by rintro ⟨a', ⟨⟩, h⟩; exact h⟩

namespace Toml

/-- Every table in it has each of its keys once. -/
inductive Value.Distinct : Value → Prop
  | text (s : String) : Distinct (.text s)
  | integer (n : Int) : Distinct (.integer n)
  | float (f : Float) : Distinct (.float f)
  | boolean (b : Bool) : Distinct (.boolean b)
  | moment (s : String) : Distinct (.moment s)
  | array {ofTables : Bool} {vs : List (Placed Value)} (hvalues : ∀ v ∈ vs, Distinct v.it) :
      Distinct (.array ofTables vs)
  | table {kind : TableKind} {es : List (Placed String × Placed Value)}
      (hkeys : (es.map fun e => e.1.it).Nodup) (hvalues : ∀ e ∈ es, Distinct e.2.it) :
      Distinct (.table kind es)

namespace Entries

structure Distinct (es : Entries) : Prop where
  keys : (es.map fun e => e.1.it).Nodup
  values : ∀ e ∈ es, e.2.it.Distinct

variable {k : Placed String} {f : Option (Placed Value) → Except Nat (Placed Value)}
  {g : Entries → Except Nat Entries} {es es' : Entries} {v : Placed Value}
  {dotted : Bool} {place : Nat}

theorem Distinct.nil : Distinct [] := ⟨List.nodup_nil, by simp⟩

theorem Distinct.table (h : Distinct es) (kind : TableKind) : (Value.table kind es).Distinct :=
  .table h.keys h.values

theorem Distinct.of_table {kind : TableKind} (h : (Value.table kind es).Distinct) :
    Distinct es := by
  cases h with
  | table hkeys hvalues => exact ⟨hkeys, hvalues⟩

/-- What is done to entries leaves each key once. -/
def Keeps (g : Entries → Except Nat Entries) : Prop :=
  ∀ es es', Distinct es → g es = .ok es' → Distinct es'

def Puts (f : Option (Placed Value) → Except Nat (Placed Value)) : Prop :=
  ∀ v? v, (∀ u ∈ v?, u.it.Distinct) → f v? = .ok v → v.it.Distinct

inductive Updated (k : Placed String) (f : Option (Placed Value) → Except Nat (Placed Value)) :
    Entries → Entries → Prop
  | new {es : Entries} {v : Placed Value} (hnew : ∀ e ∈ es, e.1.it ≠ k.it)
      (hf : f none = .ok v) :
      Updated k f es (es ++ [(k, v)])
  | changed {before after : Entries} {key : Placed String} {u v : Placed Value}
      (hf : f (some u) = .ok v) :
      Updated k f (before ++ (key, u) :: after) (before ++ (key, v) :: after)

theorem updated_of_update (h : update k f es = .ok es') : Updated k f es es' := by
  induction es generalizing es' with
  | nil =>
      obtain ⟨v, hf, ⟨⟩⟩ := bind_eq_ok_iff.mp h
      exact .new (by simp) hf
  | cons e es ih =>
      rw [update] at h
      split at h
      · obtain ⟨v, hf, ⟨⟩⟩ := bind_eq_ok_iff.mp h
        exact @Updated.changed _ _ [] _ _ _ _ hf
      · next hne =>
        obtain ⟨es', hrest, ⟨⟩⟩ := bind_eq_ok_iff.mp h
        cases ih hrest with
        | new hnew hf => exact .new (List.forall_mem_cons.mpr ⟨hne, hnew⟩) hf
        | @changed before _ _ _ _ hf => exact @Updated.changed _ _ (e :: before) _ _ _ _ hf

theorem keeps_update (hf : Puts f) : Keeps (update k f) := by
  intro es es' hes h
  cases updated_of_update h with
  | @new _ v hnew hv =>
      refine ⟨?_, List.forall_mem_append.mpr ⟨hes.values, ?_⟩⟩
      · rw [List.map_append]
        refine hes.keys.append (List.nodup_singleton _) ?_
        simpa using hnew
      · simpa using hf none v nofun hv
  | @changed before after key u v hv =>
      obtain ⟨hbefore, hafter⟩ := List.forall_mem_append.mp hes.values
      obtain ⟨hu, hafter⟩ := List.forall_mem_cons.mp hafter
      have hput := hf (some u) v (by rintro _ ⟨⟩; exact hu) hv
      refine ⟨?_,
        List.forall_mem_append.mpr ⟨hbefore, List.forall_mem_cons.mpr ⟨hput, hafter⟩⟩⟩
      simpa using hes.keys

/-- What is done to the last one of some tables keeps them all. -/
theorem keeps_inLast (hg : Keeps g) {ts ts' : List (Placed Value)}
    (hts : ∀ t ∈ ts, t.it.Distinct) (h : inLast g ts = .ok ts') :
    ∀ t ∈ ts', t.it.Distinct := by
  fun_induction inLast g ts generalizing ts' with
  | case1 =>
      obtain rfl := Except.ok.inj h
      simp
  | case2 p kind es =>
      obtain ⟨es', hes', ⟨⟩⟩ := bind_eq_ok_iff.mp h
      have hes : Distinct es := .of_table (hts _ List.mem_cons_self)
      simpa using (hg es es' hes hes').table kind
  | case3 t ts _ ih =>
      obtain ⟨ts'', hrest, ⟨⟩⟩ := bind_eq_ok_iff.mp h
      obtain ⟨ht, hts⟩ := List.forall_mem_cons.mp hts
      exact List.forall_mem_cons.mpr ⟨ht, ih hts hrest⟩

theorem puts_enter (hg : Keeps g) : Puts (enter dotted k g) := by
  intro v? v hv? h
  rw [enter.eq_def] at h
  split at h
  · obtain ⟨es, hes, ⟨⟩⟩ := bind_eq_ok_iff.mp h
    exact (hg [] es .nil hes).table _
  · next p kind es =>
    split at h
    · obtain ⟨es', hes', ⟨⟩⟩ := bind_eq_ok_iff.mp h
      exact (hg es es' (.of_table (hv? _ rfl)) hes').table kind
    · contradiction
  · next p ts =>
    obtain ⟨ts', hts', ⟨⟩⟩ := bind_eq_ok_iff.mp h
    have hts : ∀ t ∈ ts, t.it.Distinct := by
      cases hv? _ rfl with
      | array hvalues => exact hvalues
    exact .array (keeps_inLast hg hts hts')
  · contradiction

theorem keeps_within (hg : Keeps g) (ks : Keys) : Keeps (within dotted g ks) := by
  induction ks with
  | nil => exact hg
  | cons k ks ih => exact keeps_update (puts_enter ih)

theorem keeps_add (hv : v.it.Distinct) : Keeps (add k v) := by
  refine keeps_update fun v? v' _ h => ?_
  cases v? with
  | none => exact Except.ok.inj h ▸ hv
  | some => contradiction

theorem keeps_addAt (hv : v.it.Distinct) (path : Keys) : Keeps (addAt path k v) :=
  keeps_within (keeps_add hv) path

theorem keeps_define : Keeps (define place k) := by
  refine keeps_update fun v? v' hv? h => ?_
  split at h
  · exact Except.ok.inj h ▸ Distinct.nil.table .defined
  · exact Except.ok.inj h ▸ (Distinct.of_table (hv? _ rfl)).table .defined
  · contradiction

theorem keeps_push : Keeps (push place k) := by
  refine keeps_update fun v? v' hv? h => ?_
  have hempty := Distinct.nil.table .defined
  split at h
  · exact Except.ok.inj h ▸ .array (by simpa using hempty)
  · next p ts =>
    have hts : ∀ t ∈ ts, t.it.Distinct := by
      cases hv? _ rfl with
      | array hvalues => exact hvalues
    refine Except.ok.inj h ▸ .array (List.forall_mem_append.mpr ⟨hts, ?_⟩)
    simpa using hempty
  · contradiction

end Entries

/-! ### Reading -/

namespace Scalar

theorem distinct_of_signed? {cs : List Char} {v : Value} (h : signed? cs = some v) :
    v.Distinct := by
  rw [signed?] at h
  split at h
  split at h
  · exact Option.some.inj h ▸ .float _
  split at h
  · exact Option.some.inj h ▸ .float _
  split at h
  · exact Option.some.inj h ▸ .integer _
  · obtain ⟨d, -, rfl⟩ := Option.map_eq_some_iff.mp h
    exact .float _

theorem distinct_of_ofChars? {cs : List Char} {v : Value} (h : ofChars? cs = some v) :
    v.Distinct := by
  rw [ofChars?] at h
  split at h
  · exact Option.some.inj h ▸ .boolean _
  split at h
  · exact Option.some.inj h ▸ .boolean _
  split at h
  · exact Option.some.inj h ▸ .moment _
  split at h
  · exact Option.some.inj h ▸ .integer _
  · exact distinct_of_signed? h

end Scalar

namespace Reader

variable {α β : Type} {P : α → Prop} {Q : β → Prop}

def Yields (r : Reader α) (P : α → Prop) : Prop := ∀ c a c', r.run c = .ok (a, c') → P a

theorem Yields.bind {r : Reader α} {f : α → Reader β} (hr : r.Yields P)
    (hf : ∀ a, P a → (f a).Yields Q) :
    (r >>= f).Yields Q := by
  intro c b c' h
  rw [StateT.run_bind] at h
  obtain ⟨⟨a, c₁⟩, ha, hb⟩ := bind_eq_ok_iff.mp h
  exact hf a (hr c a c₁ ha) c₁ b c' hb

theorem yields_true (r : Reader α) : r.Yields fun _ => True := fun _ _ _ _ => trivial

theorem yields_bind {r : Reader α} {f : α → Reader β} (hf : ∀ a, (f a).Yields Q) :
    (r >>= f).Yields Q :=
  r.yields_true.bind fun a _ => hf a

theorem yields_pure {a : α} (h : P a) : (pure a : Reader α).Yields P := by
  rintro c _ _ ⟨⟩
  exact h

theorem yields_fail : (fail : Reader α).Yields P := nofun

theorem yields_lift {x : Except Nat α} (h : ∀ a, x = .ok a → P a) :
    (monadLift x : Reader α).Yields P := by
  intro c a c' hrun
  obtain ⟨b, hb, ⟨⟩⟩ := bind_eq_ok_iff.mp hrun
  exact h a hb

theorem yields_leaf : leaf.Yields Value.Distinct := by
  refine yields_bind fun next => ?_
  split
  · exact yields_bind fun s => yields_pure (.text s)
  · exact yields_bind fun s => yields_pure (.text s)
  · refine yields_bind fun c => ?_
    dsimp only
    split
    · next v hv => exact yields_bind fun _ => yields_pure (Scalar.distinct_of_ofChars? hv)
    · exact yields_fail

variable {value : Reader (Placed Value)} {es : Entries}

theorem yields_elements (hvalue : value.Yields fun v => v.it.Distinct) (fuel : Nat) :
    (elements value fuel).Yields fun vs => ∀ v ∈ vs, v.it.Distinct := by
  induction fuel with
  | zero => exact yields_fail
  | succ fuel ih =>
      refine yields_bind fun _ => yields_bind fun closed => ?_
      split
      · exact yields_pure (by simp)
      refine hvalue.bind fun v hv => yields_bind fun _ => yields_bind fun more => ?_
      split
      · exact ih.bind fun vs hvs => yields_pure (List.forall_mem_cons.mpr ⟨hv, hvs⟩)
      · exact yields_bind fun _ => yields_pure (by simpa using hv)

theorem yields_members (hvalue : value.Yields fun v => v.it.Distinct)
    (hes : Entries.Distinct es) (fuel : Nat) :
    (members value es fuel).Yields Entries.Distinct := by
  induction fuel generalizing es with
  | zero => exact yields_fail
  | succ fuel ih =>
      refine yields_bind fun _ => yields_bind fun closed => ?_
      split
      · exact yields_pure hes
      refine yields_bind fun ⟨path, k⟩ => yields_bind fun _ => yields_bind fun _ => ?_
      refine hvalue.bind fun v hv => ?_
      refine (yields_lift fun es' hes' => Entries.keeps_addAt hv path es es' hes hes').bind
        fun es' hes' => ?_
      refine yields_bind fun _ => yields_bind fun more => ?_
      split
      · exact ih hes'
      · exact yields_bind fun _ => yields_pure hes'

theorem yields_value (depth : Nat) : (Reader.value depth).Yields fun v => v.it.Distinct := by
  induction depth with
  | zero => exact yields_bind fun c => yields_leaf.bind fun v hv => yields_pure hv
  | succ depth ih =>
      refine yields_bind fun ⟨place, rest⟩ => yields_bind fun opened => ?_
      split
      · exact (yields_elements ih _).bind fun vs hvs => yields_pure (.array hvs)
      refine yields_bind fun braced => ?_
      split
      · exact (yields_members ih .nil _).bind fun es hes => yields_pure (hes.table .inline)
      · exact yields_leaf.bind fun v hv => yields_pure hv

end Reader

inductive Statement.Distinct : Statement → Prop
  | header (place : Nat) (path : Keys) (key : Placed String) :
      Distinct (.header place path key)
  | arrayHeader (place : Nat) (path : Keys) (key : Placed String) :
      Distinct (.arrayHeader place path key)
  | value (path : Keys) (key : Placed String) {v : Placed Value} (hv : v.it.Distinct) :
      Distinct (.value path key v)

theorem Reader.yields_statement : Reader.statement.Yields Statement.Distinct := by
  refine yields_bind fun c => yields_bind fun double => ?_
  split
  · exact yields_bind fun _ => yields_bind fun _ => yields_bind fun _ =>
      yields_pure (.arrayHeader ..)
  refine yields_bind fun single => ?_
  split
  · exact yields_bind fun _ => yields_bind fun _ => yields_bind fun _ =>
      yields_pure (.header ..)
  · refine yields_bind fun _ => yields_bind fun _ => yields_bind fun _ => ?_
    exact (yields_value maxDepth).bind fun v hv => yields_bind fun _ =>
      yields_pure (.value _ _ hv)

theorem distinct_of_mem_statements (fuel : Nat) (c : Cursor) :
    ∀ s ∈ (statements fuel c).1, s.Distinct := by
  induction fuel generalizing c with
  | zero => simp [statements]
  | succ fuel ih =>
      rw [statements]
      split
      · simp
      split
      · simp
      split
      · simp
      · next s c' hs =>
          exact List.forall_mem_cons.mpr ⟨Reader.yields_statement _ _ _ hs, ih c'⟩

theorem Draft.distinct_add {d d' : Draft} {s : Statement} (hd : Entries.Distinct d.root)
    (hs : s.Distinct) (h : d.add s = .ok d') : Entries.Distinct d'.root := by
  cases hs with
  | header place path k =>
      obtain ⟨es, hes, ⟨⟩⟩ := bind_eq_ok_iff.mp h
      exact Entries.keeps_within Entries.keeps_define path _ _ hd hes
  | arrayHeader place path k =>
      obtain ⟨es, hes, ⟨⟩⟩ := bind_eq_ok_iff.mp h
      exact Entries.keeps_within Entries.keeps_push path _ _ hd hes
  | value path k hv =>
      obtain ⟨es, hes, ⟨⟩⟩ := bind_eq_ok_iff.mp h
      exact Entries.keeps_within (Entries.keeps_addAt hv path) _ _ _ hd hes

theorem Draft.distinct_foldlM {d d' : Draft} {ss : List Statement}
    (hd : Entries.Distinct d.root) (hss : ∀ s ∈ ss, s.Distinct)
    (h : ss.foldlM Draft.add d = .ok d') : Entries.Distinct d'.root := by
  induction ss generalizing d with
  | nil => exact Except.ok.inj h ▸ hd
  | cons s ss ih =>
      obtain ⟨hs, hss⟩ := List.forall_mem_cons.mp hss
      obtain ⟨d₁, hfirst, hrest⟩ := bind_eq_ok_iff.mp h
      exact ih (distinct_add hd hs hfirst) hss hrest

/-- A document is a map of maps: no key of a table stands twice. -/
theorem distinct_of_document {s : String} {es : Entries} (h : document s = .ok es) :
    Entries.Distinct es := by
  have hss := distinct_of_mem_statements (s.length + 1) (start s.toList)
  rw [document] at h
  generalize statements (s.length + 1) (start s.toList) = made at h hss
  obtain ⟨d, hd, h⟩ := bind_eq_ok_iff.mp h
  split at h
  · contradiction
  · exact Except.ok.inj h ▸ Draft.distinct_foldlM .nil hss hd

end Toml

end LlvmBootstrap
