import Mathlib.Data.List.Nodup
import LlvmBootstrap.Proofs.Environment.Dump
import LlvmBootstrap.Proofs.Toml.Keys
import LlvmBootstrap.Settings.Load

/-!
What settings a document stands for. A table of named fields gives each field the value of its
key, or leaves it at its default; an array gives the values in the order of the fields. Which
documents are settings at all is a matter of each entry by itself, and what a field is given is
a matter of its own key alone, whatever the order of the keys.
-/

namespace LlvmBootstrap.Settings

open Toml

/-! ### What is said of named fields -/

abbrev Pairs := List (String × Value)

def pairs (es : Entries) : Pairs := es.map fun e => (e.1.it, e.2.it)

/-- What a field is given by pairs: what the value of its key stands
for, or `d` if the key is missing. -/
inductive Says {β : Type} (ps : Pairs) (name : String) (R : Value → β → Prop) (d x : β) : Prop
  | written {v : Value} (hv : (name, v) ∈ ps) (hx : R v x) : Says ps name R d x
  | unwritten (hnone : ∀ v, (name, v) ∉ ps) (hx : x = d) : Says ps name R d x

section

variable {α β : Type} {fields : Fields α} {name : String} {get : α → β}
  {R : Value → β → Prop} {a b : α} {d x : β} {es es' : Entries} {ps ps' : Pairs}
  {v : Placed Value}

theorem Says.congr (h : ∀ p, p ∈ ps ↔ p ∈ ps') (hs : Says ps name R d x) :
    Says ps' name R d x := by
  cases hs with
  | written hv hx => exact .written ((h _).mp hv) hx
  | unwritten hnone hx => exact .unwritten (fun v hv => hnone v ((h _).mpr hv)) hx

theorem field_eq_ok_iff {read : Placed Value → Decoded β} {put : β → α → α} :
    (field name read put).2 v a = .ok b ↔ ∃ x, read v = .ok x ∧ put x a = b := by
  refine bind_eq_ok_iff.trans (exists_congr fun x => and_congr_right fun _ => ?_)
  exact ⟨Except.ok.inj, congrArg _⟩

/-- A field gives `get` what `R` says of its value if it is the one of that name, and leaves it
as it is if it is another one. -/
def Governs (fields : Fields α) (name : String) (get : α → β) (R : Value → β → Prop) : Prop :=
  ∀ f ∈ fields, ∀ v a b, f.2 v a = .ok b →
    (f.1 = name → v.it.Distinct → R v.it (get b)) ∧ (f.1 ≠ name → get b = get a)

theorem mem_of_lookup {k : String} {put : Placed Value → α → Decoded α}
    (h : fields.lookup k = some put) :
    (k, put) ∈ fields := by
  obtain ⟨before, after, rfl, -⟩ := List.lookup_eq_some_iff.mp h
  exact List.mem_append_right _ List.mem_cons_self

/-- One entry after the other is put in its place. -/
theorem fill_cons_eq_ok_iff {e : Placed String × Placed Value} :
    fill fields a (e :: es) = .ok b ↔
      ∃ put a', fields.lookup e.1.it = some put ∧ put e.2 a = .ok a' ∧
        fill fields a' es = .ok b := by
  rw [fill, List.foldlM_cons, bind_eq_ok_iff]
  cases fields.lookup e.1.it with
  | none => simp
  | some put => simp [fill]

/-- What a field is given is what is said of it. -/
theorem says_of_fill (hgoverns : Governs fields name get R) (hes : Entries.Distinct es)
    (h : fill fields a es = .ok b) : Says (pairs es) name R (get a) (get b) := by
  induction es generalizing a with
  | nil =>
      obtain rfl := Except.ok.inj h
      exact .unwritten (by simp [pairs]) rfl
  | cons e es ih =>
      obtain ⟨hnew, hkeys⟩ := List.nodup_cons.mp hes.keys
      obtain ⟨hvalue, hvalues⟩ := List.forall_mem_cons.mp hes.values
      have hes : Entries.Distinct es := ⟨hkeys, hvalues⟩
      obtain ⟨put, a', hlookup, hput, hrest⟩ := fill_cons_eq_ok_iff.mp h
      obtain ⟨hown, hother⟩ := hgoverns _ (mem_of_lookup hlookup) _ _ _ hput
      by_cases hname : e.1.it = name
      · -- The key does not stand again, so that what it has given stays.
        have hread : R e.2.it (get a') := hown hname hvalue
        cases ih hes hrest with
        | written hv hx =>
            obtain ⟨e', he', heq⟩ := List.mem_map.mp hv
            exact absurd
              (List.mem_map.mpr ⟨e', he', (congrArg Prod.fst heq).trans hname.symm⟩) hnew
        | unwritten _ hx =>
            exact .written (List.mem_cons.mpr (.inl (Prod.ext hname.symm rfl))) (hx ▸ hread)
      · rw [← hother hname]
        cases ih hes hrest with
        | written hv hx => exact .written (List.mem_cons_of_mem _ hv) hx
        | unwritten hnone hx =>
            refine .unwritten (fun v hv => ?_) hx
            rcases List.mem_cons.mp hv with heq | hv
            · exact hname (congrArg Prod.fst heq).symm
            · exact hnone v hv

/-- A field takes the values of which `A` says so under its name. -/
def Takes (fields : Fields α) (A : String → Value → Prop) : Prop :=
  ∀ f ∈ fields, ∀ v a, (∃ b, f.2 v a = .ok b) ↔ A f.1 v.it

/-- All entries are taken just if each by itself is. -/
theorem exists_fill_iff {A : String → Value → Prop} (htakes : Takes fields A) :
    (∃ b, fill fields a es = .ok b) ↔ ∀ p ∈ pairs es, p.1 ∈ fields.map (·.1) ∧ A p.1 p.2 := by
  induction es generalizing a with
  | nil => exact iff_of_true ⟨a, rfl⟩ (by simp [pairs])
  | cons e es ih =>
      -- An entry can be filled in if there is a field of its name that takes its value,
      -- whatever has been filled in before.
      have hhead : (∃ put a', fields.lookup e.1.it = some put ∧ put e.2 a = .ok a') ↔
          e.1.it ∈ fields.map (·.1) ∧ A e.1.it e.2.it := by
        constructor
        · rintro ⟨put, a', hlookup, hput⟩
          have hmem := mem_of_lookup hlookup
          exact ⟨List.mem_map.mpr ⟨_, hmem, rfl⟩, (htakes _ hmem _ _).mp ⟨a', hput⟩⟩
        · rintro ⟨hname, hv⟩
          cases hlookup : fields.lookup e.1.it with
          | none =>
              obtain ⟨f, hf, hfname⟩ := List.mem_map.mp hname
              have hne := List.lookup_eq_none_iff.mp hlookup f hf
              simp [hfname] at hne
          | some put =>
              obtain ⟨a', hput⟩ := (htakes _ (mem_of_lookup hlookup) e.2 a).mpr hv
              exact ⟨put, a', rfl, hput⟩
      rw [pairs, List.map_cons, List.forall_mem_cons, ← hhead]
      simp only [fill_cons_eq_ok_iff]
      constructor
      · rintro ⟨b, put, a', hlookup, hput, hrest⟩
        exact ⟨⟨put, a', hlookup, hput⟩, ih.mp ⟨b, hrest⟩⟩
      · rintro ⟨⟨put, a', hlookup, hput⟩, hrest⟩
        obtain ⟨b, hb⟩ := ih.mpr hrest
        exact ⟨b, put, a', hlookup, hput, hb⟩

/-! ### Tables and arrays -/

/-- What a value says of the fields `names`: a table by its keys, an array by their order. -/
def saying (names : List String) : Value → Option Pairs
  | .table _ es => some (pairs es)
  | .array _ vs => some (names.zip (vs.map (·.it)))
  | _ => none

theorem wrong_ne_ok (expected : String) : wrong expected v ≠ .ok x := by
  rw [wrong]
  split <;> nofun

theorem lookup_of_mem (hnames : (fields.map (·.1)).Nodup)
    {f : String × (Placed Value → α → Decoded α)} (h : f ∈ fields) :
    fields.lookup f.1 = some f.2 := by
  obtain ⟨before, after, rfl⟩ := List.append_of_mem h
  refine List.lookup_eq_some_iff.mpr
    ⟨before, after, rfl, fun p hp => bne_iff_ne.mpr fun heq => ?_⟩
  rw [List.map_append, List.nodup_append] at hnames
  exact hnames.2.2 p.1 (List.mem_map_of_mem hp) f.1 (by simp) heq.symm

/-- An array is put in the places of the fields as a table with their
names for its keys would be. -/
theorem fill_zip (hnames : (fields.map (·.1)).Nodup) (place : Nat) (vs : List (Placed Value)) :
    fill fields a ((fields.zip vs).map fun p => (⟨place, p.1.1⟩, p.2)) =
      (fields.zip vs).foldlM (fun a p => p.1.2 p.2 a) a := by
  have hlookup : ∀ p ∈ fields.zip vs, fields.lookup p.1.1 = some p.1.2 := fun p hp =>
    lookup_of_mem hnames (List.of_mem_zip hp).1
  rw [fill, List.foldlM_map]
  generalize fields.zip vs = ps at hlookup
  induction ps generalizing a with
  | nil => rfl
  | cons p ps ih =>
      obtain ⟨hp, hps⟩ := List.forall_mem_cons.mp hlookup
      simp only [List.foldlM_cons, hp, ih hps]

def spread (fields : Fields α) (v : Placed Value) : Option Entries :=
  (entries? v).or <|
    match v.it with
    | .array _ vs => some ((fields.zip vs).map fun p => (⟨v.place, p.1.1⟩, p.2))
    | _ => none

theorem record_eq_ok_iff (hnames : (fields.map (·.1)).Nodup) : record name fields a v = .ok b ↔
    ∃ es, spread fields v = some es ∧ fill fields a es = .ok b := by
  obtain ⟨place, it⟩ := v
  cases it with
  | table | moment => simp [record, spread, entries?]
  | array ofTables vs => simp [record, spread, entries?, fill_zip hnames]
  | _ => simp [record, spread, entries?, wrong_ne_ok]

theorem mem_mergeSort_pairs
    {le : Placed String × Placed Value → Placed String × Placed Value → Bool}
    (p : String × Value) : p ∈ pairs (es.mergeSort le) ↔ p ∈ pairs es :=
  ((es.mergeSort_perm le).map _).mem_iff

theorem sublist_zip {γ δ : Type} (xs : List γ) (ys : List δ) :
    ((xs.zip ys).map Prod.fst).Sublist xs := by
  induction xs generalizing ys with
  | nil => exact .slnil
  | cons x xs ih =>
      cases ys with
      | nil => exact List.nil_sublist _
      | cons y ys => exact (ih ys).cons_cons x

/-- The entries of a value have their keys once if its own are. -/
theorem distinct_spread (hnames : (fields.map (·.1)).Nodup) (hv : v.it.Distinct)
    (h : spread fields v = some es) : Entries.Distinct es := by
  obtain ⟨place, it⟩ := v
  cases hv with
  | @table kind es' hkeys hvalues =>
      obtain rfl := Option.some.inj h
      have hperm := es'.mergeSort_perm fun a b => (compare a.1.it b.1.it).isLE
      exact ⟨(hperm.map _).nodup_iff.mpr hkeys, fun e he => hvalues e (hperm.mem_iff.mp he)⟩
  | moment s =>
      obtain rfl := Option.some.inj h
      exact ⟨List.nodup_singleton _, by simpa using .text s⟩
  | @array ofTables vs hvalues =>
      obtain rfl := Option.some.inj h
      have hsub := (sublist_zip fields vs).map (·.1)
      rw [List.map_map] at hsub
      refine ⟨by rw [List.map_map]; exact hnames.sublist hsub, fun e he => ?_⟩
      obtain ⟨p, hp, rfl⟩ := List.mem_map.mp he
      exact hvalues p.2 (List.of_mem_zip hp).2
  | _ => contradiction

/-- The entries of a value say what the value says. Of a date or a time, which says nothing,
they say something of a field that there is not. -/
theorem saying_of_spread (hmoment : momentKey ∉ fields.map (·.1))
    (h : spread fields v = some es) :
    (∃ ps, saying (fields.map (·.1)) v.it = some ps ∧ ∀ p, p ∈ pairs es ↔ p ∈ ps) ∨
      saying (fields.map (·.1)) v.it = none ∧ ∃ p ∈ pairs es, p.1 ∉ fields.map (·.1) := by
  obtain ⟨place, it⟩ := v
  cases it with
  | table kind es' =>
      obtain rfl := Option.some.inj h
      exact .inl ⟨_, rfl, mem_mergeSort_pairs⟩
  | moment s =>
      obtain rfl := Option.some.inj h
      exact .inr ⟨rfl, _, List.mem_singleton.mpr rfl, hmoment⟩
  | array ofTables vs =>
      obtain rfl := Option.some.inj h
      have hpairs : pairs ((fields.zip vs).map fun p => (⟨place, p.1.1⟩, p.2)) =
          (fields.map (·.1)).zip (vs.map (·.it)) := by
        rw [pairs, List.map_map, List.zip_map]
        rfl
      exact .inl ⟨_, rfl, fun p => hpairs ▸ Iff.rfl⟩
  | _ => contradiction

theorem saying_of_spread_eq_none (h : spread fields v = none) (names : List String) :
    saying names v.it = none := by
  obtain ⟨place, it⟩ := v
  cases it with
  | table | array | moment => contradiction
  | _ => rfl

/-- Which values are taken for a record. -/
theorem exists_record_iff {A : String → Value → Prop} (hnames : (fields.map (·.1)).Nodup)
    (hmoment : momentKey ∉ fields.map (·.1)) (htakes : Takes fields A) :
    (∃ b, record name fields a v = .ok b) ↔ ∃ ps, saying (fields.map (·.1)) v.it = some ps ∧
      ∀ p ∈ ps, p.1 ∈ fields.map (·.1) ∧ A p.1 p.2 := by
  simp only [record_eq_ok_iff hnames]
  cases hspread : spread fields v with
  | none => simp [saying_of_spread_eq_none hspread]
  | some es =>
      have hfill : (∃ b, fill fields a es = .ok b) ↔ _ := exists_fill_iff htakes
      rcases saying_of_spread hmoment hspread with ⟨ps, hps, hsame⟩ | ⟨hnone, p, hp, hunknown⟩
      · simp only [hsame] at hfill
        simpa [hps] using hfill
      · have hrefused : ¬∃ b, fill fields a es = .ok b :=
          fun hok => hunknown (hfill.mp hok p hp).1
        simpa [hnone] using hrefused

/-- What the fields of a record are given. -/
theorem says_of_record {A : String → Value → Prop} (hnames : (fields.map (·.1)).Nodup)
    (hmoment : momentKey ∉ fields.map (·.1)) (htakes : Takes fields A) (hv : v.it.Distinct)
    (h : record name fields a v = .ok b) : ∃ ps, saying (fields.map (·.1)) v.it = some ps ∧
      ∀ {β : Type} (key : String) (get : α → β) (R : Value → β → Prop),
        Governs fields key get R →
        Says ps key R (get a) (get b) := by
  obtain ⟨es, hspread, hfill⟩ := (record_eq_ok_iff hnames).mp h
  have hes := distinct_spread hnames hv hspread
  rcases saying_of_spread hmoment hspread with ⟨ps, hps, hsame⟩ | ⟨-, p, hp, hunknown⟩
  · exact ⟨ps, hps, fun key get R hgoverns => (says_of_fill hgoverns hes hfill).congr hsame⟩
  · exact absurd ((exists_fill_iff htakes).mp ⟨b, hfill⟩ p hp).1 hunknown

end

/-! ### Texts -/

section

variable {α β γ : Type} {name key : String} {get : α → β} {R : Value → β → Prop} {a : α}
  {fields : Fields α} {read : Placed Value → Decoded γ} {put : γ → α → α} {v : Placed Value}
  {s : String} {p : Path} {es : Entries} {vars vars' : Variables}

def IsText (f : String → β) (v : Value) (x : β) : Prop := ∃ s, v = .text s ∧ x = f s

theorem text_eq_ok_iff : text v = .ok s ↔ v.it = .text s := by
  rw [text]
  split
  · next t ht => simp [ht]
  · next ht => exact iff_of_false (wrong_ne_ok _) (ht s)

theorem path_eq_ok_iff : path v = .ok p ↔ ∃ s, v.it = .text s ∧ p = Path.ofString s := by
  rw [path]
  split
  · next t ht => simp [ht, eq_comm]
  · next ht => exact iff_of_false (wrong_ne_ok _) fun ⟨s, hs, _⟩ => ht s hs

def listed : Value → Option Pairs
  | .table _ es => some (pairs es)
  | .moment s => some [(momentKey, .text s)]
  | _ => none

def Lists (v : Value) (vars : Variables) : Prop :=
  ∃ ps, listed v = some ps ∧ ∀ name value, vars.get? name = some value ↔
    (name, .text value) ∈ ps

def insertTexts (vars : Variables) (es : Entries) : Decoded Variables :=
  es.foldlM (fun vars e => do return vars.insert e.1.it (← text e.2)) vars

theorem insertTexts_cons_eq_ok_iff {e : Placed String × Placed Value} :
    insertTexts vars (e :: es) = .ok vars' ↔
      ∃ s, e.2.it = .text s ∧ insertTexts (vars.insert e.1.it s) es = .ok vars' := by
  simp only [insertTexts, List.foldlM_cons, bind_eq_ok_iff, text_eq_ok_iff]
  constructor
  · rintro ⟨_, ⟨s, hs, ⟨⟩⟩, hrest⟩
    exact ⟨s, hs, hrest⟩
  · rintro ⟨s, hs, hrest⟩
    exact ⟨_, ⟨s, hs, rfl⟩, hrest⟩

theorem exists_insertTexts_iff : (∃ vars', insertTexts vars es = .ok vars') ↔
    ∀ p ∈ pairs es, ∃ s, p.2 = .text s := by
  induction es generalizing vars with
  | nil => exact iff_of_true ⟨vars, rfl⟩ (by simp [pairs])
  | cons e es ih =>
      rw [pairs, List.map_cons, List.forall_mem_cons]
      simp only [insertTexts_cons_eq_ok_iff]
      constructor
      · rintro ⟨vars', s, hs, hrest⟩
        exact ⟨⟨s, hs⟩, ih.mp ⟨vars', hrest⟩⟩
      · rintro ⟨⟨s, hs⟩, hrest⟩
        obtain ⟨vars', hvars'⟩ := ih.mpr hrest
        exact ⟨vars', s, hs, hvars'⟩

theorem get?_of_insertTexts (hkeys : (es.map (·.1.it)).Nodup)
    (h : insertTexts vars es = .ok vars') (name value : String) :
    vars'.get? name = some value ↔
      (name, .text value) ∈ pairs es ∨
        name ∉ es.map (·.1.it) ∧ vars.get? name = some value := by
  induction es generalizing vars with
  | nil =>
      obtain rfl := Except.ok.inj h
      simp [pairs]
  | cons e es ih =>
      obtain ⟨hnew, hkeys⟩ := List.nodup_cons.mp hkeys
      obtain ⟨s, hs, hrest⟩ := insertTexts_cons_eq_ok_iff.mp h
      rw [ih hkeys hrest]
      by_cases hname : name = e.1.it
      · subst hname
        simp [pairs, hnew, hs, eq_comm, or_comm]
      · rw [SortedMap.get?_insert_of_ne _ _ hname]
        simp [pairs, hname]

theorem texts_eq_ok_iff : texts v = .ok vars ↔
    ∃ es, entries? v = some es ∧ insertTexts .empty es = .ok vars := by
  rw [texts]
  split
  · next es hes => simp [hes, insertTexts]
  · next hnone => simp [hnone, wrong_ne_ok]

/-- The entries of a value that can be taken for a table are those that it lists. -/
theorem listed_of_entries? (h : entries? v = some es) :
    ∃ ps, listed v.it = some ps ∧ (∀ p, p ∈ pairs es ↔ p ∈ ps) ∧
      (v.it.Distinct → (es.map (·.1.it)).Nodup) := by
  obtain ⟨place, it⟩ := v
  cases it with
  | table kind es' =>
      obtain rfl := Option.some.inj h
      refine ⟨_, rfl, mem_mergeSort_pairs, fun hv => ?_⟩
      exact ((es'.mergeSort_perm _).map _).nodup_iff.mpr (Entries.Distinct.of_table hv).keys
  | moment s =>
      obtain rfl := Option.some.inj h
      exact ⟨_, rfl, fun p => Iff.rfl, fun _ => List.nodup_singleton _⟩
  | _ => contradiction

theorem listed_of_entries?_eq_none (h : entries? v = none) : listed v.it = none := by
  obtain ⟨place, it⟩ := v
  cases it with
  | table | moment => contradiction
  | _ => rfl

theorem exists_texts_iff : (∃ vars, texts v = .ok vars) ↔
    ∃ ps, listed v.it = some ps ∧ ∀ p ∈ ps, ∃ s, p.2 = .text s := by
  simp only [texts_eq_ok_iff]
  cases hentries : entries? v with
  | none => simp [listed_of_entries?_eq_none hentries]
  | some es =>
      obtain ⟨ps, hps, hsame, -⟩ := listed_of_entries? hentries
      have htexts : (∃ vars, insertTexts .empty es = .ok vars) ↔ _ := exists_insertTexts_iff
      simp only [hsame] at htexts
      simpa [hps] using htexts

theorem lists_of_texts (hv : v.it.Distinct) (h : texts v = .ok vars) : Lists v.it vars := by
  obtain ⟨es, hentries, hvars⟩ := texts_eq_ok_iff.mp h
  obtain ⟨ps, hps, hsame, hkeys⟩ := listed_of_entries? hentries
  refine ⟨ps, hps, fun name value => ?_⟩
  rw [get?_of_insertTexts (hkeys hv) hvars, hsame]
  simp

/-! ### The fields of each table -/

theorem governs_nil : Governs ([] : Fields α) name get R := by simp [Governs]

theorem governs_cons_iff : Governs (field key read put :: fields) name get R ↔
    (∀ v a x, read v = .ok x → (key = name → v.it.Distinct → R v.it (get (put x a))) ∧
      (key ≠ name → get (put x a) = get a)) ∧ Governs fields name get R := by
  rw [Governs, List.forall_mem_cons]
  refine and_congr_left fun _ => ?_
  simp only [field_eq_ok_iff]
  constructor
  · exact fun h v a x hx => h v a _ ⟨x, hx, rfl⟩
  · rintro h v a b ⟨x, hx, rfl⟩
    exact h v a x hx

theorem takes_nil {A : String → Value → Prop} : Takes ([] : Fields α) A := by simp [Takes]

theorem takes_cons {A : String → Value → Prop}
    (hread : ∀ v, (∃ x, read v = .ok x) ↔ A key v.it) (h : Takes fields A) :
    Takes (field key read put :: fields) A := by
  refine List.forall_mem_cons.mpr ⟨fun v a => ?_, h⟩
  simp only [field_eq_ok_iff]
  exact (by simp : _ ↔ ∃ x, read v = .ok x).trans (hread v)

end

structure Llvm.IsSaid (ps : Pairs) (l : Llvm) : Prop where
  version : Says ps "version" (IsText id) Llvm.default.version l.version
  url : Says ps "url" (IsText some) none l.url
  archiveTop : Says ps "archive_root" (IsText some) none l.archiveTop
  sha256 : Says ps "sha256" (IsText some) none l.sha256

structure Cmake.IsSaid (ps : Pairs) (c : Cmake) : Prop where
  program : Says ps "program" (IsText id) Cmake.default.program c.program
  generator : Says ps "generator" (IsText some) none c.generator

structure Cargo.IsSaid (ps : Pairs) (c : Cargo) : Prop where
  program : Says ps "program" (IsText id) Cargo.default.program c.program
  prefixVariable :
    Says ps "prefix_env_var" (IsText id) Cargo.default.prefixVariable c.prefixVariable

structure Msvc.IsSaid (ps : Pairs) (m : Msvc) : Prop where
  baseDir : Says ps "base_dir" (IsText fun s => some (Path.ofString s)) none m.baseDir
  install : Says ps "install" (IsText fun s => some (Path.ofString s)) none m.install

def structs : List (String × List String) :=
  [("llvm", ["version", "url", "archive_root", "sha256"]), ("cmake", ["program", "generator"]),
    ("cargo", ["program", "prefix_env_var"]), ("msvc", ["base_dir", "install"])]

theorem exists_text_iff (v : Placed Value) : (∃ s, text v = .ok s) ↔ ∃ s, v.it = .text s := by
  simp only [text_eq_ok_iff]

theorem exists_path_iff (v : Placed Value) : (∃ p, path v = .ok p) ↔ ∃ s, v.it = .text s := by
  simp [path_eq_ok_iff]

theorem Llvm.takes_fields : Takes Llvm.fields fun _ v => ∃ s, v = .text s :=
  takes_cons exists_text_iff <| takes_cons exists_text_iff <| takes_cons exists_text_iff <|
    takes_cons exists_text_iff takes_nil

theorem Cmake.takes_fields : Takes Cmake.fields fun _ v => ∃ s, v = .text s :=
  takes_cons exists_text_iff <| takes_cons exists_text_iff takes_nil

theorem Cargo.takes_fields : Takes Cargo.fields fun _ v => ∃ s, v = .text s :=
  takes_cons exists_text_iff <| takes_cons exists_text_iff takes_nil

theorem Msvc.takes_fields : Takes Msvc.fields fun _ v => ∃ s, v = .text s :=
  takes_cons exists_path_iff <| takes_cons exists_path_iff takes_nil

section

variable {v : Placed Value} {name : String}

theorem Llvm.isSaid_of_record {l : Llvm} (hv : v.it.Distinct)
    (h : record name Llvm.fields .default v = .ok l) :
    ∃ ps, saying ["version", "url", "archive_root", "sha256"] v.it = some ps ∧
      Llvm.IsSaid ps l := by
  obtain ⟨ps, hps, hgiven⟩ := says_of_record (by decide) (by decide) Llvm.takes_fields hv h
  refine ⟨ps, hps, hgiven _ Llvm.version _ ?_, hgiven _ Llvm.url _ ?_,
    hgiven _ Llvm.archiveTop _ ?_,
    hgiven _ Llvm.sha256 _ ?_⟩ <;>
    simp +contextual [Llvm.fields, governs_cons_iff, governs_nil, text_eq_ok_iff, IsText]

theorem Cmake.isSaid_of_record {c : Cmake} (hv : v.it.Distinct)
    (h : record name Cmake.fields .default v = .ok c) :
    ∃ ps, saying ["program", "generator"] v.it = some ps ∧ Cmake.IsSaid ps c := by
  obtain ⟨ps, hps, hgiven⟩ := says_of_record (by decide) (by decide) Cmake.takes_fields hv h
  refine ⟨ps, hps, hgiven _ Cmake.program _ ?_, hgiven _ Cmake.generator _ ?_⟩ <;>
    simp +contextual [Cmake.fields, governs_cons_iff, governs_nil, text_eq_ok_iff, IsText]

theorem Cargo.isSaid_of_record {c : Cargo} (hv : v.it.Distinct)
    (h : record name Cargo.fields .default v = .ok c) :
    ∃ ps, saying ["program", "prefix_env_var"] v.it = some ps ∧ Cargo.IsSaid ps c := by
  obtain ⟨ps, hps, hgiven⟩ := says_of_record (by decide) (by decide) Cargo.takes_fields hv h
  refine ⟨ps, hps, hgiven _ Cargo.program _ ?_, hgiven _ Cargo.prefixVariable _ ?_⟩ <;>
    simp +contextual [Cargo.fields, governs_cons_iff, governs_nil, text_eq_ok_iff, IsText]

theorem Msvc.isSaid_of_record {m : Msvc} (hv : v.it.Distinct)
    (h : record name Msvc.fields .default v = .ok m) :
    ∃ ps, saying ["base_dir", "install"] v.it = some ps ∧ Msvc.IsSaid ps m := by
  obtain ⟨ps, hps, hgiven⟩ := says_of_record (by decide) (by decide) Msvc.takes_fields hv h
  refine ⟨ps, hps, hgiven _ Msvc.baseDir _ ?_, hgiven _ Msvc.install _ ?_⟩ <;>
    simp +contextual [Msvc.fields, governs_cons_iff, governs_nil, path_eq_ok_iff, IsText]

end

/-! ### Whole documents -/

inductive Fits (name : String) (v : Value) : Prop
  | root {s : String} (hname : name = "root") (hv : v = .text s) : Fits name v
  /-- A table or an array that gives texts to named fields and to no others. -/
  | struct {names : List String} {ps : Pairs} (hname : structs.lookup name = some names)
      (hv : saying names v = some ps)
      (hps : ∀ p ∈ ps, p.1 ∈ names ∧ ∃ s, p.2 = .text s) : Fits name v
  /-- A table of texts, or what is taken for one. -/
  | compilers {ps : Pairs} (hname : name = "compilers") (hv : listed v = some ps)
      (hps : ∀ p ∈ ps, ∃ s, p.2 = .text s) : Fits name v

/-- The settings are what the pairs say, and what they are by default
where the pairs say nothing. -/
structure IsSaid (ps : Pairs) (s : Settings) : Prop where
  root : Says ps "root" (IsText fun s => some (Path.ofString s)) none s.root
  llvm : Says ps "llvm" (fun v l => ∃ ps',
    saying ["version", "url", "archive_root", "sha256"] v = some ps' ∧ Llvm.IsSaid ps' l)
    .default s.llvm
  cmake : Says ps "cmake" (fun v c => ∃ ps',
    saying ["program", "generator"] v = some ps' ∧ Cmake.IsSaid ps' c) .default s.cmake
  cargo : Says ps "cargo" (fun v c => ∃ ps',
    saying ["program", "prefix_env_var"] v = some ps' ∧ Cargo.IsSaid ps' c) .default s.cargo
  msvc : Says ps "msvc" (fun v m => ∃ ps',
    saying ["base_dir", "install"] v = some ps' ∧ Msvc.IsSaid ps' m) .default s.msvc
  compilers : Says ps "compilers" (fun v vars? => ∃ vars, vars? = some vars ∧ Lists v vars)
    none s.compilers

variable {v : Value} {name : String} {names : List String} {es : Entries} {s : Settings}

theorem fits_root_iff : Fits "root" v ↔ ∃ s, v = .text s := by
  constructor
  · intro h
    cases h with
    | root _ hv => exact ⟨_, hv⟩
    | struct hname => contradiction
    | compilers hname => exact absurd hname (by decide)
  · rintro ⟨s, hv⟩
    exact .root rfl hv

theorem fits_struct_iff (hname : structs.lookup name = some names) :
    Fits name v ↔ ∃ ps, saying names v = some ps ∧
      ∀ p ∈ ps, p.1 ∈ names ∧ ∃ s, p.2 = .text s := by
  constructor
  · intro h
    cases h with
    | struct hname' hv hps =>
        obtain rfl := Option.some.inj (hname.symm.trans hname')
        exact ⟨_, hv, hps⟩
    | root hroot | compilers hroot =>
        subst hroot
        contradiction
  · rintro ⟨ps, hv, hps⟩
    exact .struct hname hv hps

theorem fits_compilers_iff : Fits "compilers" v ↔
    ∃ ps, listed v = some ps ∧ ∀ p ∈ ps, ∃ s, p.2 = .text s := by
  constructor
  · intro h
    cases h with
    | root hname => exact absurd hname (by decide)
    | struct hname => contradiction
    | compilers _ hv hps => exact ⟨_, hv, hps⟩
  · rintro ⟨ps, hv, hps⟩
    exact .compilers rfl hv hps

theorem mem_names_of_fits (h : Fits name v) : name ∈ fields.map (·.1) := by
  cases h with
  | root hname | compilers hname =>
      subst hname
      decide
  | struct hname =>
      obtain ⟨before, after, hstructs, -⟩ := List.lookup_eq_some_iff.mp hname
      have hmem : (name, _) ∈ structs := hstructs ▸ List.mem_append_right _ List.mem_cons_self
      have hsub : structs.map (·.1) ⊆ fields.map (·.1) := by decide
      exact hsub (List.mem_map.mpr ⟨_, hmem, rfl⟩)

theorem takes_fields : Takes fields Fits := by
  refine takes_cons (fun v => ?_) <| takes_cons (fun v => ?_) <| takes_cons (fun v => ?_) <|
    takes_cons (fun v => ?_) <| takes_cons (fun v => ?_) <| takes_cons (fun v => ?_) takes_nil
  · exact (exists_path_iff v).trans fits_root_iff.symm
  · rw [fits_struct_iff rfl]
    exact exists_record_iff (by decide) (by decide) Llvm.takes_fields
  · rw [fits_struct_iff rfl]
    exact exists_record_iff (by decide) (by decide) Cmake.takes_fields
  · rw [fits_struct_iff rfl]
    exact exists_record_iff (by decide) (by decide) Cargo.takes_fields
  · rw [fits_struct_iff rfl]
    exact exists_record_iff (by decide) (by decide) Msvc.takes_fields
  · exact exists_texts_iff.trans fits_compilers_iff.symm

/-- A document is one of settings just if each entry by itself may stand there. -/
theorem exists_ofEntries_iff : (∃ s, ofEntries es = .ok s) ↔ ∀ p ∈ pairs es, Fits p.1 p.2 := by
  have hrecord : (∃ s, record "Settings" fields default ⟨0, .table .defined es⟩ = .ok s) ↔ _ :=
    exists_record_iff (by decide) (by decide) takes_fields
  refine hrecord.trans
    ⟨?_, fun hps => ⟨_, rfl, fun p hp => ⟨mem_names_of_fits (hps p hp), hps p hp⟩⟩⟩
  rintro ⟨_, ⟨⟩, hps⟩ p hp
  exact (hps p hp).2

theorem isSaid_of_ofEntries (hes : Entries.Distinct es) (h : ofEntries es = .ok s) :
    IsSaid (pairs es) s := by
  obtain ⟨_, ⟨⟩, hgiven⟩ :=
    says_of_record (by decide) (by decide) takes_fields (hes.table .defined) h
  refine ⟨hgiven _ Settings.root _ ?_, hgiven _ Settings.llvm _ ?_,
    hgiven _ Settings.cmake _ ?_,
    hgiven _ Settings.cargo _ ?_, hgiven _ Settings.msvc _ ?_,
      hgiven _ Settings.compilers _ ?_⟩ <;>
    simp +contextual [fields, governs_cons_iff, governs_nil, path_eq_ok_iff, IsText]
  · exact fun v _ l h hv => Llvm.isSaid_of_record hv h
  · exact fun v _ l h hv => Cmake.isSaid_of_record hv h
  · exact fun v _ l h hv => Cargo.isSaid_of_record hv h
  · exact fun v _ l h hv => Msvc.isSaid_of_record hv h
  · exact fun v _ l h hv => lists_of_texts hv h

end LlvmBootstrap.Settings
