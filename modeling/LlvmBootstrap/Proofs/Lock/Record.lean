import LlvmBootstrap.Proofs.Json.Reading
import LlvmBootstrap.Proofs.Text.Utf8

/-!
The record of a run, read back. A reader that comes too early can find a record that is written
in part only: then it finds nothing, or else the whole record, but never a record that nobody
has written.
-/

namespace LlvmBootstrap

namespace Utf8

/-- What begins a text in octets, and is a text, begins the text. -/
theorem exists_append_of_encode {s s' : String} {bs : Bytes} (h : encode s = encode s' ++ bs) :
    ∃ s'', s = s' ++ s'' := by
  have hbytes : s.toByteArray = s'.toByteArray ++ ⟨bs.toArray⟩ :=
    ByteArray.ext (Array.toList_inj.mp (by simpa [encode] using h))
  have hextract : s.toByteArray.extract 0 s'.rawEndPos.byteIdx = s'.toByteArray := by
    rw [hbytes]
    exact ByteArray.extract_append_eq_left rfl
  have hvalid : s'.rawEndPos.IsValid s := by
    refine String.Pos.Raw.isValid_iff_isValidUTF8_extract_zero.mpr ⟨?_, ?_⟩
    · have hsize := congrArg ByteArray.size hbytes
      simp only [ByteArray.size_append, String.size_toByteArray] at hsize
      exact String.Pos.Raw.le_iff.mpr (Nat.le_of_add_right_le hsize.ge)
    · rw [hextract]
      exact s'.isValidUTF8
  obtain ⟨s₁, s₂, rfl, hend⟩ := String.Pos.Raw.isValid_iff_exists_append.mp hvalid
  refine ⟨s₂, congrArg (· ++ s₂) (String.toByteArray_inj.mp ?_)⟩
  rw [← hextract, hend, String.toByteArray_append]
  exact (ByteArray.extract_append_eq_left rfl).symm

theorem exists_append_of_decode?_take {s s' : String} {n : Nat}
    (h : decode? ((encode s).take n) = some s') : ∃ s'', s = s' ++ s'' := by
  have hsplit : encode s = encode s' ++ (encode s).drop n := by
    rw [encode_of_decode? h, List.take_append_drop]
  exact exists_append_of_encode hsplit

end Utf8

namespace Json

/-- The members give one value for a key. -/
def Gives (ms : List (CodePoints × Json)) (key : String) (v : Json) : Prop :=
  ∃ before name after, ms = before ++ (name, v) :: after ∧ text? name = some key ∧
    ∀ m ∈ before ++ after, text? m.1 ≠ some key

/-- A whole number below a bound, written with digits alone. -/
def IsNatural (bound : Nat) (v : Json) (n : Nat) : Prop :=
  ∃ cs, v = .number cs ∧ (∀ c ∈ cs, c.isDigit = true) ∧
    Nat.ofDigitChars 10 cs 0 = n ∧ n < bound

def IsText (v : Json) (s : String) : Prop := ∃ ns, v = .quoted ns ∧ text? ns = some s

/-- The name of an architecture, alone or as the only key of an object
without a value for it. -/
def IsArch (v : Json) (a : Arch) : Prop :=
  v.IsText a.text ∨ ∃ key, v = .object [(key, .null)] ∧ text? key = some a.text

structure AreParts (pid command arch started : Json) (h : Holder) : Prop where
  pid : pid.IsNatural (2 ^ 32) h.pid
  command : command.IsText h.command
  arch : arch.IsArch h.arch
  started : started.IsNatural (2 ^ 64) h.started

/-- What is read as a record: an object with one member for each part of it, other members
aside, or an array of just the parts. -/
inductive Describes : Json → Holder → Prop
  | object {ms : List (CodePoints × Json)} {pid command arch started : Json} {h : Holder}
      (hkeys : ∀ m ∈ ms, (text? m.1).isSome = true) (hpid : Gives ms "pid" pid)
      (hcommand : Gives ms "command" command) (harch : Gives ms "arch" arch)
      (hstarted : Gives ms "started_at_unix" started)
      (hparts : AreParts pid command arch started h) : Describes (.object ms) h
  | array {pid command arch started : Json} {h : Holder}
      (hparts : AreParts pid command arch started h) :
      Describes (.array [pid, command, arch, started]) h

theorem natural?_eq_some_iff {bound n : Nat} {v : Json} :
    natural? bound v = some n ↔ v.IsNatural bound n := by
  cases v with
  | number cs =>
      simp only [natural?, Option.bind_eq_bind, Option.bind_eq_some_iff,
        digits?_eq_some_iff, IsNatural, Json.number.injEq, exists_eq_left',
        Option.ite_none_right_eq_some, Option.some.injEq]
      constructor
      · rintro ⟨k, ⟨hdigits, hk⟩, hlt, rfl⟩
        exact ⟨hdigits, hk, hlt⟩
      · rintro ⟨hdigits, hk, hlt⟩
        exact ⟨n, ⟨hdigits, hk⟩, hlt, rfl⟩
  | _ => simp [natural?, IsNatural]

theorem asText?_eq_some_iff {v : Json} {s : String} : asText? v = some s ↔ v.IsText s := by
  cases v <;> simp [asText?, IsText]

theorem arch?_eq_some_iff {v : Json} {a : Arch} : arch? v = some a ↔ v.IsArch a := by
  have hname : ∀ ns, (text? ns).bind Arch.ofText? = some a ↔
      text? ns = some a.text := fun ns => by
    simp only [Option.bind_eq_some_iff, Arch.ofText?_eq_some_iff, exists_eq_right']
  rw [arch?.eq_def]
  split
  · next ns => simp [hname, IsArch, IsText]
  · next key => simp [hname, IsArch, IsText]
  · next hquoted hobject =>
    refine iff_of_false nofun ?_
    rintro (⟨ns, rfl, -⟩ | ⟨key, rfl, -⟩)
    · exact hquoted ns rfl
    · exact hobject key rfl

theorem member?_eq_some_iff {ms : List (CodePoints × Json)} {key : String} {v : Json} :
    member? key ms = some v ↔ Gives ms key v := by
  constructor
  · intro h
    rw [member?] at h
    split at h
    · next m hfilter =>
      obtain rfl := Option.some.inj h
      obtain ⟨before, after, rfl, hbefore, hm, hafter⟩ := List.filter_eq_cons_iff.mp hfilter
      refine ⟨before, m.1, after, rfl, of_decide_eq_true hm, fun m' hm' => ?_⟩
      rcases List.mem_append.mp hm' with hm' | hm'
      · exact fun heq => hbefore m' hm' (decide_eq_true heq)
      · exact fun heq => List.filter_eq_nil_iff.mp hafter m' hm' (decide_eq_true heq)
    · contradiction
  · rintro ⟨before, name, after, rfl, hname, hothers⟩
    have hnone : ∀ ms' : List (CodePoints × Json), (∀ m ∈ ms', text? m.1 ≠ some key) →
        ms'.filter (fun m => decide (text? m.1 = some key)) = [] := fun ms' h =>
      List.filter_eq_nil_iff.mpr fun m hm => by simpa using h m hm
    have hbefore := hnone before fun m hm => hothers m (List.mem_append_left _ hm)
    have hafter := hnone after fun m hm => hothers m (List.mem_append_right _ hm)
    rw [member?, List.filter_append, hbefore, List.filter_cons, hafter,
      if_pos (decide_eq_true hname)]
    rfl

end Json

namespace Holder

open Json

variable {record h : Holder} {n : Nat}

theorem ofParts?_eq_some_iff {pid command arch started : Json} :
    ofParts? pid command arch started = some h ↔ AreParts pid command arch started h := by
  simp only [ofParts?, Option.bind_eq_bind, Option.bind_eq_some_iff, natural?_eq_some_iff,
    asText?_eq_some_iff, arch?_eq_some_iff]
  constructor
  · rintro ⟨_, hpid, _, hcommand, _, harch, _, hstarted, heq⟩
    obtain rfl := Option.some.inj heq
    exact ⟨hpid, hcommand, harch, hstarted⟩
  · rintro ⟨hpid, hcommand, harch, hstarted⟩
    exact ⟨_, hpid, _, hcommand, _, harch, _, hstarted, rfl⟩

theorem ofJson?_eq_some_iff {v : Json} : ofJson? v = some h ↔ v.Describes h := by
  constructor
  · intro hread
    rw [ofJson?.eq_def] at hread
    split at hread
    · next ms =>
      simp only [Option.bind_eq_bind, Option.bind_eq_some_iff, Option.guard_eq_some'] at hread
      obtain ⟨_, hkeys, pid, hpid, command, hcommand, arch, harch, started, hstarted,
          hparts⟩ := hread
      exact .object (List.all_eq_true.mp hkeys) (member?_eq_some_iff.mp hpid)
        (member?_eq_some_iff.mp hcommand) (member?_eq_some_iff.mp harch)
        (member?_eq_some_iff.mp hstarted) (ofParts?_eq_some_iff.mp hparts)
    · exact .array (ofParts?_eq_some_iff.mp hread)
    · contradiction
  · intro hv
    cases hv with
    | object hkeys hpid hcommand harch hstarted hparts =>
        have hguard := (Option.guard_eq_some' ()).mpr (List.all_eq_true.mpr hkeys)
        simp only [ofJson?, hguard, member?_eq_some_iff.mpr hpid,
          member?_eq_some_iff.mpr hcommand, member?_eq_some_iff.mpr harch,
          member?_eq_some_iff.mpr hstarted, Option.bind_eq_bind,
          Option.bind_some]
        exact ofParts?_eq_some_iff.mpr hparts
    | array hparts => exact ofParts?_eq_some_iff.mpr hparts

/-- What stands in a file is a record just if it is a text that is read as one. -/
theorem ofBytes?_eq_some_iff {bs : Bytes} : ofBytes? bs = some h ↔
    ∃ text v, Utf8.encode text = bs ∧ Json.ofText? text = some v ∧ v.Describes h := by
  simp only [ofBytes?, Option.bind_eq_bind, Option.bind_eq_some_iff, ofJson?_eq_some_iff]
  constructor
  · rintro ⟨text, htext, v, hv, hdescribes⟩
    exact ⟨text, v, Utf8.encode_of_decode? htext, hv, hdescribes⟩
  · rintro ⟨text, v, rfl, hv, hdescribes⟩
    exact ⟨text, Utf8.decode?_encode text, v, hv, hdescribes⟩

def json (record : Holder) : Json :=
  .object [("pid".toList.map Char.toNat, .number (Nat.toDigits 10 record.pid)),
    ("command".toList.map Char.toNat, .quoted (record.command.toList.map Char.toNat)),
    ("arch".toList.map Char.toNat, .quoted (record.arch.text.toList.map Char.toNat)),
    ("started_at_unix".toList.map Char.toNat, .number (Nat.toDigits 10 record.started))]

theorem toList_text (record : Holder) :
    record.text.toList = '\x7b' ::
    ((quote "pid").toList ++ ':' :: (Nat.toDigits 10 record.pid ++ ',' ::
      ((quote "command").toList ++ ':' :: ((quote record.command).toList ++ ',' ::
      ((quote "arch").toList ++ ':' :: ((quote record.arch.text).toList ++ ',' ::
      ((quote "started_at_unix").toList ++ ':' ::
        (Nat.toDigits 10 record.started ++ ['\x7d'])))))))) := by
  simp [text, toList_quote, escaped, escapes]

theorem value?_text (record : Holder) (fuel : Nat) :
    value? (fuel + 6) record.text.toList = some (record.json, []) := by
  have hstarted := @value?_toDigits [] fuel record.started _ (.inr rfl)
  have hmembers := members?_next "pid" (value?_toDigits record.pid (.inl rfl))
    (members?_next "command" (value?_quote record.command)
      (members?_next "arch" (value?_quote record.arch.text)
        (members?_last "started_at_unix" hstarted)))
  rw [toList_text, value?_object hmembers]
  rfl

theorem ofText?_text (record : Holder) : Json.ofText? record.text = some record.json := by
  have hlength : 5 ≤ record.text.length := by
    rw [← String.length_toList, toList_text]
    simp only [List.length_cons, List.length_append]
    omega
  obtain ⟨fuel, hfuel⟩ := Nat.exists_eq_add_of_le hlength
  rw [Json.ofText?, hfuel, show 5 + fuel + 1 = fuel + 6 by omega, value?_text]
  rfl

theorem ofJson?_json : ofJson? record.json =
    ofParts? (.number (Nat.toDigits 10 record.pid))
      (.quoted (record.command.toList.map Char.toNat))
      (.quoted (record.arch.text.toList.map Char.toNat))
      (.number (Nat.toDigits 10 record.started)) := by
  simp only [ofJson?, json, member?, List.all_cons, List.all_nil, List.filter_cons,
    List.filter_nil, text?_map_toNat, Option.isSome_some, Bool.and_self, Option.some.injEq,
    String.reduceEq, decide_true,
    decide_false, if_true, Bool.false_eq_true, if_false]
  rfl

theorem natural?_toDigits (bound k : Nat) :
    natural? bound (.number (Nat.toDigits 10 k)) = if k < bound then some k else none := by
  rw [natural?, digits?_toDigits_eq]
  rfl

theorem arch?_text (a : Arch) : arch? (.quoted (a.text.toList.map Char.toNat)) = some a := by
  rw [arch?, text?_map_toNat]
  cases a <;> rfl

/-- The numbers of a record have to be such as a reader takes. -/
theorem ofJson?_json_eq : ofJson? record.json =
      if record.pid < Numeral.limit 32 ∧ record.started < Numeral.limit 64 then some record
      else none := by
  rw [ofJson?_json]
  simp only [ofParts?, natural?_toDigits, asText?, text?_map_toNat, arch?_text]
  by_cases hpid : record.pid < Numeral.limit 32
  · by_cases hstarted : record.started < Numeral.limit 64
    · simp [hpid, hstarted]
    · simp [hstarted]
  · simp [hpid]

theorem eq_of_ofJson?_json (hread : ofJson? record.json = some h) : h = record := by
  rw [ofJson?_json_eq] at hread
  split at hread
  · exact (Option.some.inj hread).symm
  · contradiction

/-- A record that has been written is read back. -/
theorem ofBytes?_toBytes (hpid : record.pid < Numeral.limit 32)
    (hstarted : record.started < Numeral.limit 64) :
    ofBytes? record.toBytes = some record := by
  rw [ofBytes?, toBytes, Utf8.decode?_encode, Option.bind_eq_bind,
    Option.bind_some, ofText?_text, Option.bind_eq_bind, Option.bind_some, ofJson?_json_eq,
    if_pos ⟨hpid, hstarted⟩]

theorem closed_of_ofJson? {v : Json} (hread : ofJson? v = some h) : v.Closed := by
  cases v with
  | number => contradiction
  | _ => trivial

theorem ofBytes?_nil : ofBytes? [] = none := rfl

/-- A record that has been written in part only is not taken for another one. -/
theorem eq_of_ofBytes?_take (hread : ofBytes? (record.toBytes.take n) = some h) :
    h = record := by
  obtain ⟨s, hs, hread⟩ := Option.bind_eq_some_iff.mp hread
  obtain ⟨v, hv, hread⟩ := Option.bind_eq_some_iff.mp hread
  obtain ⟨s', hrecord⟩ := Utf8.exists_append_of_decode?_take hs
  obtain ⟨⟨v', rest⟩, hvalue, hskip⟩ := Option.bind_eq_some_iff.mp hv
  dsimp only at hskip
  split at hskip
  · obtain rfl : v' = v := Option.some.inj hskip
    have hwhole := @value?_append _ _ s'.toList _ _ _ hvalue (closed_of_ofJson? hread)
      (Nat.le_max_left _ 6)
    obtain ⟨fuel, hfuel⟩ := Nat.exists_eq_add_of_le (Nat.le_max_right (s.length + 1) 6)
    rw [hfuel, Nat.add_comm, ← String.toList_append, ← hrecord, value?_text] at hwhole
    obtain ⟨rfl, -⟩ := Prod.mk.inj (Option.some.inj hwhole)
    exact eq_of_ofJson?_json hread
  · contradiction

end Holder

end LlvmBootstrap
