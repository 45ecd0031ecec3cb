import Mathlib
import LlvmBootstrap.Environment.Dump
import LlvmBootstrap.Proofs.Environment.Layers

/-!
Dumps of variables, read back. A dump is printed line by line, each line with an end of either
kind; what is read from it are the variables that its lines set, the last line for a name
before all others. So the variables of two dumps in a row are those of the second one over
those of the first one.
-/

namespace LlvmBootstrap

/-! ### Maps by their look-ups -/

namespace SortedMap

variable {κ ν : Type} [Ord κ] [Std.TransOrd κ] [Std.LawfulEqOrd κ]

omit [Std.TransOrd κ] in
theorem nodup_entries (m : SortedMap κ ν) : m.entries.Nodup :=
  m.keys_distinct.imp fun hne heq => hne (congrArg Prod.fst heq)

/-- Maps with the same look-ups are equal. -/
theorem ext_get? {m m' : SortedMap κ ν} (h : ∀ k, m.get? k = m'.get? k) : m = m' := by
  have hmem : ∀ e : κ × ν, e ∈ m.entries ↔ e ∈ m'.entries := fun e => by
    rw [← get?_eq_some_iff, ← get?_eq_some_iff, h]
  have hperm : m.entries.Perm m'.entries :=
    (List.perm_ext_iff_of_nodup m.nodup_entries m'.nodup_entries).mpr hmem
  have hentries : m.entries = m'.entries := by
    refine hperm.eq_of_pairwise (fun a b _ _ hab hba => ?_) m.rising m'.rising
    rw [@Std.OrientedCmp.eq_swap _ compare _, hba] at hab
    contradiction
  cases m
  cases m'
  cases hentries
  rfl

/-- Of entries in two parts, those of the second part stand over those of the first one. -/
theorem get?_ofList_append (es es' : List (κ × ν)) (k : κ) :
    (ofList (es ++ es')).get? k = ((ofList es').get? k).or ((ofList es).get? k) := by
  have hsnoc (es : List (κ × ν)) (e : κ × ν) : ofList (es ++ [e]) =
      (ofList es).insert e.1 e.2 :=
    List.foldl_concat ..
  induction es' using List.reverseRecOn with
  | nil =>
      rw [List.append_nil]
      exact Option.none_or.symm
  | append_singleton es' e ih =>
      rw [← List.append_assoc, hsnoc, hsnoc]
      by_cases hk : k = e.1
      · rw [hk, get?_insert_self, get?_insert_self, Option.some_or]
      · rw [get?_insert_of_ne _ _ hk, get?_insert_of_ne _ _ hk, ih]

/-- The first entry is the one that counts if no later one has its key. -/
theorem get?_ofList_cons (e : κ × ν) (es : List (κ × ν)) (k : κ) :
    (ofList (e :: es)).get? k = ((ofList es).get? k).or (find k [e]) := by
  rw [← List.singleton_append, get?_ofList_append, get?_ofList (List.pairwise_singleton ..)]

theorem get?_ofList_eq_none_iff {es : List (κ × ν)} {k : κ} :
    (ofList es).get? k = none ↔ ∀ e ∈ es, e.1 ≠ k := by
  induction es with
  | nil => exact ⟨fun _ _ => nofun, fun _ => rfl⟩
  | cons e es ih =>
      rw [get?_ofList_cons, Option.or_eq_none_iff, ih, List.forall_mem_cons, find, and_comm]
      refine and_congr_left fun _ => ?_
      by_cases hk : k = e.1
      · simp [hk]
      · simp [find, hk, Ne.symm hk]

/-- The last entry with a key is the one that counts. -/
theorem get?_ofList_eq_some_iff {es : List (κ × ν)} {k : κ} {v : ν} :
    (ofList es).get? k = some v ↔
      ∃ before after, es = before ++ (k, v) :: after ∧ ∀ e ∈ after, e.1 ≠ k := by
  constructor
  · intro h
    induction es with
    | nil => contradiction
    | cons e es ih =>
        rw [get?_ofList_cons] at h
        rcases Option.or_eq_some_iff.mp h with hlater | ⟨hnone, hfirst⟩
        · obtain ⟨before, after, rfl, hafter⟩ := ih hlater
          exact ⟨e :: before, after, rfl, hafter⟩
        · obtain rfl := List.mem_singleton.mp (mem_of_find hfirst)
          exact ⟨[], es, rfl, get?_ofList_eq_none_iff.mp hnone⟩
  · rintro ⟨before, after, rfl, hafter⟩
    rw [get?_ofList_append, get?_ofList_cons, get?_ofList_eq_none_iff.mpr hafter]
    simp [find]

/-- The last one counts of all that give an entry with a key. -/
theorem get?_ofList_filterMap_eq_some_iff {α : Type} {f : α → Option (κ × ν)}
    {as : List α} {k : κ} {v : ν} : (ofList (as.filterMap f)).get? k = some v ↔
      ∃ before a after, as = before ++ a :: after ∧ f a = some (k, v) ∧
        ∀ b ∈ after, ∀ v', f b ≠ some (k, v') := by
  rw [get?_ofList_eq_some_iff]
  constructor
  · rintro ⟨before, after, heq, hafter⟩
    obtain ⟨as₁, as₂, rfl, -, hrest⟩ := List.filterMap_eq_append_iff.mp heq
    obtain ⟨skipped, a, as₃, rfl, -, ha, rfl⟩ := List.filterMap_eq_cons_iff.mp hrest
    refine ⟨as₁ ++ skipped, a, as₃, by rw [List.append_assoc], ha, fun b hb v' hset => ?_⟩
    exact hafter _ (List.mem_filterMap.mpr ⟨b, hb, hset⟩) rfl
  · rintro ⟨before, a, after, rfl, ha, hafter⟩
    refine ⟨before.filterMap f, after.filterMap f, ?_, ?_⟩
    · rw [List.filterMap_append, List.filterMap_cons_some ha]
    · rintro ⟨k', v'⟩ he rfl
      obtain ⟨b, hb, hset⟩ := List.mem_filterMap.mp he
      exact hafter b hb v' hset

theorem entries_ofList_eq_nil_iff {es : List (κ × ν)} :
    (ofList es).entries = [] ↔ es = [] := by
  constructor
  · intro h
    refine List.eq_nil_iff_forall_not_mem.mpr fun e he => ?_
    have hnone : (ofList es).get? e.1 = none := by
      rw [get?, h]
      rfl
    exact get?_ofList_eq_none_iff.mp hnone e he rfl
  · rintro rfl
    rfl

/-- Putting all of one map over another is to take the entries of both in turn. -/
theorem insertAll_ofList (es es' : List (κ × ν)) :
    (ofList es).insertAll (ofList es').entries = ofList (es ++ es') :=
  ext_get? fun k => by
    rw [get?_insertAll _ (ofList es').keys_distinct, get?_ofList_append]; rfl

end SortedMap

/-- The keys of a map stand in the order of their octets. -/
theorem SortedMap.keys_pairwise_encode {ν : Type} (m : SortedMap String ν) :
    m.keys.Pairwise fun n n' => Utf8.encode n < Utf8.encode n' :=
  List.pairwise_map.mpr
    (m.rising.imp fun h => Utf8.encode_lt_encode (compareOfLessAndEq_eq_lt.mp h))

/-! ### Lines of a text -/

namespace Lines

variable {cs rest : List Char}

theorem chomp_of_ne (h : cs.getLast? ≠ some '\r') : chomp cs = cs := if_neg h

theorem chomp_concat (cs : List Char) : chomp (cs ++ ['\r']) = cs := by
  rw [chomp, if_pos List.getLast?_concat, List.dropLast_concat]

theorem exists_chomp_append (cs : List Char) : ∃ end_, cs = chomp cs ++ end_ := by
  rw [chomp]
  split
  · exact ⟨_, (List.dropLast_append_getLast? _ ‹_›).symm⟩
  · exact ⟨[], (List.append_nil cs).symm⟩

theorem go_append_newline (line : List Char) (h : '\n' ∉ cs) (rest : List Char) :
    go line (cs ++ '\n' :: rest) = chomp (line.reverse ++ cs) :: split rest := by
  induction cs generalizing line with
  | nil => rw [List.nil_append, go, List.append_nil, split]
  | cons c cs ih =>
      have hc : c ≠ '\n' := fun heq => h (heq ▸ List.mem_cons_self)
      rw [List.cons_append, go, ih _ fun hmem => h (List.mem_cons_of_mem _ hmem),
        List.reverse_cons, List.append_assoc, List.singleton_append]
      exact hc

/-- The first line of a text. -/
theorem split_append_newline (h : '\n' ∉ cs) (rest : List Char) :
    split (cs ++ '\n' :: rest) = chomp cs :: split rest := go_append_newline [] h rest

theorem go_of_not_mem (line : List Char) (h : '\n' ∉ cs) :
    go line cs = if (line.reverse ++ cs).isEmpty then [] else [line.reverse ++ cs] := by
  induction cs generalizing line with
  | nil => simp [go]
  | cons c cs ih =>
      have hc : c ≠ '\n' := fun heq => h (heq ▸ List.mem_cons_self)
      rw [go, ih _ fun hmem => h (List.mem_cons_of_mem _ hmem), List.reverse_cons,
        List.append_assoc, List.singleton_append]
      exact hc

/-- A text in which no line ends is a line, unless it is empty. -/
theorem split_of_not_mem (h : '\n' ∉ cs) : split cs = if cs.isEmpty then [] else [cs] :=
  go_of_not_mem [] h

theorem go_append (line : List Char) (cs rest : List Char) :
    go line (cs ++ '\n' :: rest) = go line (cs ++ ['\n']) ++ split rest := by
  induction cs generalizing line with
  | nil => rfl
  | cons c cs ih =>
      by_cases hc : c = '\n'
      · rw [hc, List.cons_append, List.cons_append, go, go, ih, List.cons_append]
      · rw [List.cons_append, List.cons_append, go, go, ih]
        · exact hc
        · exact hc

/-- The lines of two texts of which the first one ends with a line. -/
theorem split_append (cs rest : List Char) :
    split (cs ++ '\n' :: rest) = split (cs ++ ['\n']) ++ split rest := go_append [] cs rest

end Lines

/-! ### The grammar -/

namespace Variables

def IsLetter (c : Char) : Prop := 'A' ≤ c ∧ c ≤ 'Z' ∨ 'a' ≤ c ∧ c ≤ 'z'

def IsDigit (c : Char) : Prop := '0' ≤ c ∧ c ≤ '9'

/-- The marks that a name can have behind its first character. -/
def marks : List Char := ['_', '(', ')', '.', '-', '\x7b', '\x7d']

def InGrammar (name : String) : Prop :=
  ∃ c cs, name.toList = c :: cs ∧ (IsLetter c ∨ c = '_') ∧ ∀ d ∈ cs, IsLetter d ∨
    IsDigit d ∨ d ∈ marks

theorem isAlpha_iff (c : Char) : c.isAlpha = true ↔ IsLetter c := by
  simp [Char.isAlpha, Char.isUpper, Char.isLower, IsLetter, Char.le_def]

theorem isDigit_iff (c : Char) : c.isDigit = true ↔ IsDigit c := by
  simp [Char.isDigit, IsDigit, Char.le_def]

theorem isNameRest_iff (c : Char) :
    isNameRest c = true ↔ IsLetter c ∨ IsDigit c ∨ c ∈ marks := by
  rw [isNameRest, Bool.or_eq_true, Char.isAlphanum, Bool.or_eq_true, isAlpha_iff,
    isDigit_iff, or_assoc, List.contains_iff_mem]
  rfl

theorem isName_iff (cs : List Char) : isName cs = true ↔ InGrammar (String.ofList cs) := by
  rw [InGrammar, String.toList_ofList]
  cases cs with
  | nil => exact ⟨nofun, fun ⟨_, _, hnil, _⟩ => absurd hnil nofun⟩
  | cons c cs =>
      simp only [isName, isNameStart, Bool.and_eq_true, Bool.or_eq_true,
        decide_eq_true_eq, isAlpha_iff, List.all_eq_true, isNameRest_iff]
      constructor
      · rintro ⟨hfirst, hrest⟩
        exact ⟨c, cs, rfl, hfirst, hrest⟩
      · rintro ⟨_, _, heq, hfirst, hrest⟩
        obtain ⟨rfl, rfl⟩ := List.cons.inj heq
        exact ⟨hfirst, hrest⟩

theorem InGrammar.of_mem {name : String} (h : InGrammar name) {c : Char}
    (hc : c ∈ name.toList) :
    IsLetter c ∨ IsDigit c ∨ c ∈ marks := by
  obtain ⟨first, cs, hname, hfirst, hrest⟩ := h
  rw [hname] at hc
  rcases List.mem_cons.mp hc with rfl | hc
  · rcases hfirst with hletter | rfl
    · exact .inl hletter
    · exact .inr (.inr (by decide))
  · exact hrest c hc

theorem InGrammar.not_mem {name : String} (h : InGrammar name) :
    '=' ∉ name.toList ∧ '\n' ∉ name.toList := by
  constructor <;>
    · intro hmem
      have hallowed := h.of_mem hmem
      simp [IsLetter, IsDigit, marks] at hallowed

theorem cut?_eq_some_iff {cs name value : List Char} :
    cut? cs = some (name, value) ↔ cs = name ++ '=' :: value ∧ '=' ∉ name := by
  induction cs generalizing name with
  | nil => simp [cut?]
  | cons c cs ih =>
      rw [cut?]
      by_cases hc : c = '='
      · cases name with
        | nil => simp [hc, eq_comm]
        | cons d name =>
            rw [if_pos hc]
            refine ⟨fun h => absurd h (by simp), fun ⟨heq, hnot⟩ => absurd ?_ hnot⟩
            rw [← hc, (List.cons.inj heq).1]
            exact List.mem_cons_self
      · rw [if_neg hc, Option.map_eq_some_iff]
        cases name with
        | nil => simp [hc]
        | cons d name =>
            constructor
            · rintro ⟨⟨name', value'⟩, hcut, heq⟩
              cases heq
              obtain ⟨rfl, hnot⟩ := ih.mp hcut
              exact ⟨rfl, by simp [hnot, Ne.symm hc]⟩
            · rintro ⟨heq, hnot⟩
              obtain ⟨rfl, rfl⟩ := List.cons.inj heq
              exact ⟨(name, value),
                ih.mpr ⟨rfl, fun hmem => hnot (List.mem_cons_of_mem _ hmem)⟩, rfl⟩

/-- The line sets a variable, a carriage return at its end aside. -/
def Sets (line : List Char) (name value : String) : Prop :=
  InGrammar name ∧ Lines.chomp line = name.toList ++ '=' :: value.toList

def LastSets {α : Type} (sets : α → String → String → Prop) (as : List α)
    (name value : String) : Prop :=
  ∃ before a after, as = before ++ a :: after ∧ sets a name value ∧
    ∀ b ∈ after, ∀ value', ¬sets b name value'

theorem ofLine?_eq_some_iff {line : List Char} {name value : String} :
    ofLine? line = some (name, value) ↔
      Sets line name value := by
  rw [Sets, ofLine?, Option.bind_eq_bind, Option.bind_eq_some_iff]
  constructor
  · rintro ⟨⟨n, v⟩, hcut, hset⟩
    obtain ⟨hline, -⟩ := cut?_eq_some_iff.mp hcut
    dsimp only at hset
    split at hset
    · next hname =>
        cases hset
        exact ⟨(isName_iff n).mp hname, by
          rw [hline, String.toList_ofList, String.toList_ofList]⟩
    · contradiction
  · rintro ⟨hname, hline⟩
    refine ⟨(name.toList, value.toList), cut?_eq_some_iff.mpr ⟨hline, hname.not_mem.1⟩, ?_⟩
    dsimp only
    rw [if_pos ((isName_iff _).mpr (by rwa [String.ofList_toList])), String.ofList_toList,
      String.ofList_toList]

/-- What is read from any text. -/
theorem get?_ofDump_eq_some_iff {dump name value : String} :
    (ofDump dump).get? name = some value ↔
      LastSets Sets (Lines.split dump.toList) name value := by
  simp only [ofDump, SortedMap.get?_ofList_filterMap_eq_some_iff, ofLine?_eq_some_iff,
    LastSets, ne_eq]

theorem entries_ofDump_eq_nil_iff {dump : String} : (ofDump dump).entries = [] ↔
    ∀ line ∈ Lines.split dump.toList, ∀ name value, ¬Sets line name value := by
  simp only [ofDump, SortedMap.entries_ofList_eq_nil_iff, List.filterMap_eq_nil_iff,
    Option.eq_none_iff_forall_ne_some, ne_eq, Prod.forall, ofLine?_eq_some_iff]

end Variables

/-! ### Printed dumps -/

namespace Dump

open Variables

/-- A line as it is printed, without its end: a variable with its value, or anything else. -/
inductive Line where
  | sets (name value : String) (hname : InGrammar name) (hline : '\n' ∉ value.toList)
      (hend : value.toList.getLast? ≠ some '\r')
  | noise (text : String) (hline : '\n' ∉ text.toList)
      (hother : ∀ name value, text = name ++ "=" ++ value → '=' ∉ name.toList →
        ¬InGrammar name)

inductive LineEnd where
  | lf
  | crlf

def LineEnd.text : LineEnd → String
  | .lf => "\n"
  | .crlf => "\r\n"

namespace Line

def text : Line → String
  | .sets name value _ _ _ => name ++ "=" ++ value
  | .noise text _ _ => text

def assigned? : Line → Option (String × String)
  | .sets name value _ _ _ => some (name, value)
  | .noise _ _ _ => none

def Sets (l : Line) (name value : String) : Prop := l.assigned? = some (name, value)

end Line

/-- Lines with their ends, and a last one that has none. -/
def text (ls : List (Line × LineEnd)) (last : Option Line) : String :=
  String.join (ls.map fun l => l.1.text ++ l.2.text) ++ (last.map Line.text).getD ""

namespace Line

theorem not_mem_text (l : Line) : '\n' ∉ l.text.toList := by
  cases l with
  | sets name value hname hline hend =>
      simp only [text, String.toList_append, List.mem_append, not_or]
      exact ⟨⟨hname.not_mem.2, by decide⟩, hline⟩
  | noise text hline hother => exact hline

theorem chomp_text {name value : String} (hend : value.toList.getLast? ≠ some '\r') :
    Lines.chomp (name.toList ++ '=' :: value.toList) = name.toList ++ '=' :: value.toList := by
  refine Lines.chomp_of_ne ?_
  rw [List.getLast?_append, List.getLast?_cons]
  cases hlast : value.toList.getLast? with
  | none => simp
  | some c => simpa [hlast] using hend

/-- What is read from a line, whether a return at its end has been taken away or not. -/
theorem ofLine?_text (l : Line) {line : List Char}
    (h : line = l.text.toList ∨ line = Lines.chomp l.text.toList) :
    ofLine? line = l.assigned? := by
  cases l with
  | sets name value hname hline hend =>
      have htext : (Line.sets name value hname hline hend).text.toList =
          name.toList ++ '=' :: value.toList := by
        simp [text]
      rw [htext, chomp_text hend, or_self] at h
      rw [h, assigned?, ofLine?_eq_some_iff]
      exact ⟨hname, chomp_text hend⟩
  | noise text hline hother =>
      rw [assigned?, Option.eq_none_iff_forall_ne_some]
      rintro ⟨name, value⟩ hset
      obtain ⟨hname, hchomp⟩ := ofLine?_eq_some_iff.mp hset
      obtain ⟨end_, htext⟩ : ∃ end_, text.toList = Lines.chomp line ++ end_ := by
        rcases h with rfl | rfl
        · exact Lines.exists_chomp_append _
        · obtain ⟨cs, hcs⟩ := Lines.exists_chomp_append text.toList
          obtain ⟨cs', hcs'⟩ := Lines.exists_chomp_append (Lines.chomp text.toList)
          exact ⟨cs' ++ cs,
            hcs.trans (by rw [← List.append_assoc]; exact congrArg (· ++ cs) hcs')⟩
      refine hother name (value ++ String.ofList end_) ?_ hname.not_mem.1 hname
      rw [← String.toList_inj, htext, hchomp]
      simp

end Line

/-- What is read from the lines of a dump. -/
theorem filterMap_split_text (ls : List (Line × LineEnd)) (last : Option Line) :
    (Lines.split (text ls last).toList).filterMap ofLine? =
      (ls.map Prod.fst ++ last.toList).filterMap Line.assigned? := by
  induction ls with
  | nil =>
      cases last with
      | none => rfl
      | some l =>
          have htext : (text [] (some l)).toList = l.text.toList := by simp [text]
          have hset := l.ofLine?_text (.inl rfl)
          rw [htext, Lines.split_of_not_mem l.not_mem_text]
          split
          · next hempty =>
              rw [List.isEmpty_iff.mp hempty] at hset
              simp only [List.map_nil, List.nil_append, Option.toList_some,
                List.filterMap_cons, ← hset]
              rfl
          · simp only [List.map_nil, List.nil_append, Option.toList_some,
              List.filterMap_cons, hset, List.filterMap_nil]
  | cons x ls ih =>
      obtain ⟨l, end_⟩ := x
      have hrest : (text ((l, end_) :: ls) last).toList =
          l.text.toList ++ end_.text.toList ++ (text ls last).toList := by
        simp [text, String.toList_join]
      -- A line feed takes a carriage return in front of it along, so the first line is its
      -- text or its text without one.
      have hfirst : ∃ line, (line = l.text.toList ∨ line = Lines.chomp l.text.toList) ∧
          Lines.split (text ((l, end_) :: ls) last).toList =
            line :: Lines.split (text ls last).toList := by
        rw [hrest]
        cases end_ with
        | lf =>
            refine ⟨_, .inr rfl, ?_⟩
            rw [List.append_assoc]
            exact Lines.split_append_newline l.not_mem_text _
        | crlf =>
            refine ⟨_, .inl rfl, ?_⟩
            have hnot : '\n' ∉ l.text.toList ++ ['\r'] := by simpa using l.not_mem_text
            have hsplit := Lines.split_append_newline hnot (text ls last).toList
            rw [Lines.chomp_concat] at hsplit
            rw [← hsplit, List.append_assoc, List.append_assoc]
            rfl
      obtain ⟨line, hline, hsplit⟩ := hfirst
      rw [hsplit, List.map_cons, List.cons_append, List.filterMap_cons,
        List.filterMap_cons, ih, l.ofLine?_text hline]

/-- A dump is read back as the variables that its lines set, each with the value that is set
last, in the order of the octets of their names, whatever else is printed and however its lines
end. Of two dumps in a row the second one counts before the first one. -/
theorem ofDump_text :
    (∀ ls last, (∀ name value, (ofDump (text ls last)).get? name = some value ↔
        LastSets Line.Sets (ls.map Prod.fst ++ last.toList) name value) ∧
      (ofDump (text ls last)).keys.Pairwise fun n n' => Utf8.encode n < Utf8.encode n') ∧
    ∀ a b : String, ofDump (a ++ "\n" ++ b) =
      (ofDump (a ++ "\n")).withOverrides (ofDump b) := by
  refine ⟨fun ls last => ⟨fun name value => ?_, SortedMap.keys_pairwise_encode _⟩,
    fun a b => ?_⟩
  · rw [ofDump, filterMap_split_text]
    exact SortedMap.get?_ofList_filterMap_eq_some_iff
  · have hsplit : Lines.split (a ++ "\n" ++ b).toList =
        Lines.split (a ++ "\n").toList ++ Lines.split b.toList := by
      simp only [String.toList_append]
      rw [List.append_assoc]
      exact Lines.split_append ..
    rw [ofDump, hsplit, List.filterMap_append]
    exact (SortedMap.insertAll_ofList ..).symm

end Dump

end LlvmBootstrap
