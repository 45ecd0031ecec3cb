import LlvmBootstrap.Command
import LlvmBootstrap.Proofs.Text.Utf8
import LlvmBootstrap.Proofs.Tree.Places

/-!
The layers of an environment. Which value a variable has is read off the uppermost layer that
sets it: what a command sets itself, over the variables it is given or else those of its
caller.
-/

namespace LlvmBootstrap

namespace SortedMap

variable {κ κ' ν ν' : Type} [Ord κ] [Std.LawfulEqOrd κ] [Ord κ'] [Std.LawfulEqOrd κ']

/-- Entries whose keys and values are written in another way, each key in a way of its own. -/
theorem find_map {f : κ → κ'} (hf : Function.Injective f) (g : ν → ν') (k : κ)
    (es : List (κ × ν)) :
    find (f k) (es.map fun e => (f e.1, g e.2)) = (find k es).map g := by
  induction es with
  | nil => rfl
  | cons e es ih =>
      rw [List.map_cons, find, find, ih]
      by_cases hk : k = e.1
      · rw [if_pos (compare_eq_iff.mpr (congrArg f hk)), if_pos (compare_eq_iff.mpr hk)]
        rfl
      · rw [if_neg fun h => hk (hf (compare_eq_iff.mp h)),
          if_neg fun h => hk (compare_eq_iff.mp h)]

theorem find_eq_some_iff {es : List (κ × ν)} (hes : es.Pairwise fun a b => a.1 ≠ b.1)
    {k : κ} {v : ν} :
    find k es = some v ↔ (k, v) ∈ es :=
  ⟨mem_of_find, find_of_mem hes⟩

variable [Std.TransOrd κ']

theorem get?_ofList {es : List (κ' × ν)} (hes : es.Pairwise fun a b => a.1 ≠ b.1) (k : κ') :
    (ofList es).get? k = find k es := by
  rw [ofList, get?_insertAll _ hes, get?_empty, Option.or_none]

end SortedMap

open SortedMap

/-! ### Variables of the tool and of processes -/

theorem Utf8.pairwise_encode {ν ν' : Type} (m : SortedMap String ν) (g : ν → ν') :
    (m.entries.map fun e => (encode e.1, g e.2)).Pairwise fun a b => a.1 ≠ b.1 :=
  List.pairwise_map.mpr (m.keys_distinct.imp fun hne heq => hne (encode_injective heq))

namespace Variables

theorem get?_withOverrides (vars overrides : Variables) (n : String) :
    (vars.withOverrides overrides).get? n = (overrides.get? n).or (vars.get? n) :=
  get?_insertAll vars overrides.keys_distinct n

/-- A process is given the variables of the tool as they are, and no others. -/
theorem get?_toEnviron (vars : Variables) (name : Bytes) : vars.toEnviron.get? name =
    (Utf8.decode? name).bind fun n => (vars.get? n).map Utf8.encode := by
  rw [toEnviron, get?_ofList (Utf8.pairwise_encode vars _)]
  cases hname : Utf8.decode? name with
  | some n =>
      obtain rfl := Utf8.encode_of_decode? hname
      exact find_map Utf8.encode_injective _ n vars.entries
  | none =>
      rw [Option.bind_none, Option.eq_none_iff_forall_ne_some]
      intro value hvalue
      obtain ⟨e, -, he⟩ := List.mem_map.mp (mem_of_find hvalue)
      obtain ⟨rfl, -⟩ := Prod.mk.inj he
      rw [Utf8.decode?_encode] at hname
      contradiction

def read? (v : Bytes × Bytes) : Option (String × String) := do
  return (← Utf8.decode? v.1, ← Utf8.decode? v.2)

theorem read?_eq_some_iff {v : Bytes × Bytes} {u : String × String} :
    read? v = some u ↔ v = (Utf8.encode u.1, Utf8.encode u.2) := by
  obtain ⟨name, value⟩ := v
  obtain ⟨n, x⟩ := u
  simp only [read?, Option.bind_eq_bind, Option.bind_eq_some_iff, Utf8.decode?_eq_some_iff,
    Option.pure_def, Option.some.injEq, Prod.mk.injEq]
  constructor
  · rintro ⟨n, rfl, x, rfl, rfl, rfl⟩
    exact ⟨rfl, rfl⟩
  · rintro ⟨rfl, rfl⟩
    exact ⟨n, rfl, x, rfl, rfl, rfl⟩

/-- Of the variables of a process the tool has those whose name and value are texts. -/
theorem get?_ofEnviron (e : Environ) (n : String) : (ofEnviron e).get? n = e.text? n := by
  have hdistinct : (e.entries.filterMap read?).Pairwise fun a b => a.1 ≠ b.1 := by
    refine List.pairwise_filterMap.mpr (e.keys_distinct.imp ?_)
    intro v v' hne u hu u' hu' heq
    rw [read?_eq_some_iff.mp hu, read?_eq_some_iff.mp hu', heq] at hne
    exact hne rfl
  apply Option.ext
  intro x
  rw [show ofEnviron e = .ofList (e.entries.filterMap read?) from rfl, get?_ofList hdistinct,
    find_eq_some_iff hdistinct, Environ.text?, Option.bind_eq_bind, Option.bind_eq_some_iff]
  simp only [List.mem_filterMap, read?_eq_some_iff, Utf8.decode?_eq_some_iff, get?_eq_some_iff]
  constructor
  · rintro ⟨v, hv, rfl⟩
    exact ⟨_, hv, rfl⟩
  · rintro ⟨value, hv, rfl⟩
    exact ⟨_, hv, rfl⟩

end Variables

/-! ### Commands -/

namespace Command

variable {c : Command} {n : String} {value : Bytes}

/-- What a command sets itself stands over all else. -/
theorem get?_environ (c : Command) (inherited : Environ) (name : Bytes) :
    (c.environ inherited).get? name =
      (find name (c.extra.entries.map fun v => (Utf8.encode v.1, v.2))).or
        ((c.vars.elim inherited Variables.toEnviron).get? name) := by
  have hdistinct := Utf8.pairwise_encode c.extra fun v => v
  rw [environ, get?_insertAll _ hdistinct]
  cases c.vars <;> rfl

/-- A command that sets one variable gets that one over the others. -/
theorem get?_environ_of_one (h : c.extra.entries = [(n, value)]) (inherited : Environ)
    (name : Bytes) :
    (c.environ inherited).get? name = if name = Utf8.encode n then some value
      else (c.vars.elim inherited Variables.toEnviron).get? name := by
  rw [get?_environ, h, List.map_singleton, find]
  by_cases hname : name = Utf8.encode n
  · rw [if_pos (compare_eq_iff.mpr hname), if_pos hname, Option.some_or]
  · rw [if_neg fun h => hname (compare_eq_iff.mp h), if_neg hname]
    rfl

theorem get?_environ_of_none (h : c.extra = .empty) (inherited : Environ) (name : Bytes) :
    (c.environ inherited).get? name =
      (c.vars.elim inherited Variables.toEnviron).get? name := by
  rw [get?_environ, h]
  rfl

end Command

end LlvmBootstrap
