import LlvmBootstrap.Archive.Format
import LlvmBootstrap.Settings
import LlvmBootstrap.Sources.Digest
import Mathlib.Data.List.TakeWhile

/-!
What is expected of the file that is downloaded, as it is configured: how it is packed, by the
ending of its address, and what its digest is.
-/

namespace LlvmBootstrap

/-! ### Endings -/

namespace Archive

variable {url ending : String} {f : Format}

/-- The address has this ending in front of its query and fragment, if it has them. -/
def EndsIn (url ending : String) : Prop :=
  ∃ stem tail : List Char, url.toList = stem ++ ending.toList ++ tail ∧
    (∀ c ∈ stem ++ ending.toList, c ≠ '?' ∧ c ≠ '#') ∧ ∀ c ∈ tail.head?, c = '?' ∨ c = '#'

inductive Names (url : String) : Format → Prop
  | tarXz (h : EndsIn url ".tar.xz") : Names url .xz
  | txz (h : EndsIn url ".txz") : Names url .xz
  | tarGz (h : EndsIn url ".tar.gz") : Names url .gzip
  | tgz (h : EndsIn url ".tgz") : Names url .gzip
  | tar (h : EndsIn url ".tar") : Names url .plain

theorem endsWith_addressPath_iff :
    endsWith (addressPath url.toList) ending = true ↔ EndsIn url ending := by
  rw [endsWith, List.isSuffixOf_iff_suffix]
  constructor
  · rintro ⟨stem, hstem⟩
    refine ⟨stem, url.toList.dropWhile fun c => c ≠ '?' && c ≠ '#', ?_, ?_, ?_⟩
    · rw [hstem, addressPath, List.takeWhile_append_dropWhile]
    · intro c hc
      rw [hstem] at hc
      simpa using List.all_eq_true.mp List.all_takeWhile c hc
    · intro c hc
      have hhead := List.head?_dropWhile_not (fun c => c ≠ '?' && c ≠ '#') url.toList
      rw [Option.mem_def.mp hc] at hhead
      by_cases hquery : c = '?'
      · exact .inl hquery
      · exact .inr (by simpa [hquery] using hhead)
  · rintro ⟨stem, tail, heq, hfront, htail⟩
    refine ⟨stem, ?_⟩
    have hall : ∀ c ∈ stem ++ ending.toList, (c ≠ '?' && c ≠ '#') = true := fun c hc => by
      simpa using hfront c hc
    -- The address is cut at its first question mark or hash, and
    -- there is none before the tail.
    have hnone : tail.takeWhile (fun c => c ≠ '?' && c ≠ '#') = [] := by
      cases tail with
      | nil => rfl
      | cons c tail =>
          refine List.takeWhile_cons_of_neg ?_
          rcases htail c rfl with rfl | rfl <;> decide
    rw [addressPath, heq, List.takeWhile_append_of_pos hall, hnone, List.append_nil]

/-- Two endings of one text, of which neither ends in the other. -/
theorem endsWith_eq_false {cs : List Char} (h : endsWith cs ending = true) (ending' : String)
    (hne : endsWith ending.toList ending' = false ∧ endsWith ending'.toList ending = false) :
    endsWith cs ending' = false := by
  rw [← Bool.not_eq_true]
  intro h'
  rw [endsWith, List.isSuffixOf_iff_suffix] at h h'
  rcases List.suffix_or_suffix_of_suffix h h' with hs | hs
  · have hends := List.isSuffixOf_iff_suffix.mpr hs
    exact absurd (hends.symm.trans hne.2) nofun
  · have hends := List.isSuffixOf_iff_suffix.mpr hs
    exact absurd (hends.symm.trans hne.1) nofun

/-- No two of the endings fit one address, so the order in which they
are tried makes no difference. -/
theorem Format.ofUrl?_eq_some_iff : Format.ofUrl? url = some f ↔ Names url f := by
  constructor
  · intro h
    obtain ⟨e, hfind, rfl⟩ := Option.map_eq_some_iff.mp h
    have hmem := List.mem_of_find?_eq_some hfind
    have hany : e.2.any (endsWith (addressPath url.toList)) = true := by
      simpa using List.find?_some hfind
    simp only [endings, List.mem_cons, List.not_mem_nil, or_false] at hmem
    rcases hmem with rfl | rfl | rfl <;>
      simp only [List.any_cons, List.any_nil, Bool.or_false, Bool.or_eq_true,
        endsWith_addressPath_iff] at hany
    · exact hany.elim .tarXz .txz
    · exact hany.elim .tarGz .tgz
    · exact .tar hany
  · intro h
    rw [Format.ofUrl?]
    cases h with
    | tarXz h | txz h => simp [endings, endsWith_addressPath_iff.mpr h]
    | tarGz h | tgz h =>
        have hends := endsWith_addressPath_iff.mpr h
        -- Endings of other formats, which are tried first, are
        -- different in their last letters.
        have htarXz := endsWith_eq_false hends ".tar.xz" (by decide)
        have htxz := endsWith_eq_false hends ".txz" (by decide)
        simp [endings, hends, htarXz, htxz]
    | tar h =>
        have hends := endsWith_addressPath_iff.mpr h
        have htarXz := endsWith_eq_false hends ".tar.xz" (by decide)
        have htxz := endsWith_eq_false hends ".txz" (by decide)
        have htarGz := endsWith_eq_false hends ".tar.gz" (by decide)
        have htgz := endsWith_eq_false hends ".tgz" (by decide)
        simp [endings, hends, htarXz, htxz, htarGz, htgz]

/-- An ending in the query counts for nothing. -/
example : Format.ofUrl? "http://h/llvm.tgz?as=llvm.tar.xz" = some .gzip := by decide

theorem Format.ofUrl?_eq_none_iff : Format.ofUrl? url = none ↔ ∀ f, ¬ Names url f := by
  rw [Option.eq_none_iff_forall_ne_some]
  exact forall_congr' fun f => not_congr Format.ofUrl?_eq_some_iff

end Archive

/-! ### Digests -/

namespace Blank

theorem toLower_of_isBlank {c : Char} (h : isBlank c = true) : c.toLower = c := by
  refine dif_neg fun hupper => ?_
  have hfirst : 65 ≤ c.toNat := UInt32.le_iff_toNat_le.mp hupper.1
  have hlast : c.toNat ≤ 90 := UInt32.le_iff_toNat_le.mp hupper.2
  simp only [isBlank, ranges, List.any_cons, List.any_nil, Bool.or_eq_true, Bool.and_eq_true,
    decide_eq_true_eq, Bool.false_eq_true, or_false] at h
  omega

theorem dropWhile_append {lead cs : List Char} (hlead : ∀ c ∈ lead, isBlank c = true)
    (hhead : ∀ c ∈ cs.head?, ¬ isBlank c = true) : (lead ++ cs).dropWhile isBlank = cs := by
  rw [List.dropWhile_append_of_pos hlead]
  cases cs with
  | nil => rfl
  | cons c cs => exact List.dropWhile_cons_of_neg (hhead c rfl)

theorem trim_append {lead core trail : List Char} (hlead : ∀ c ∈ lead, isBlank c = true)
    (htrail : ∀ c ∈ trail, isBlank c = true) (hcore : ∀ c ∈ core, ¬ isBlank c = true) :
    trim (lead ++ core ++ trail) = core := by
  cases core with
  | nil =>
      rw [trim, List.append_nil, List.dropWhile_append_of_pos hlead,
        List.dropWhile_eq_nil_iff.mpr htrail]
      rfl
  | cons c core =>
      rw [trim, List.append_assoc, dropWhile_append hlead fun d hd => hcore d ?_,
        List.reverse_append, dropWhile_append
          (fun d hd => htrail d (List.mem_reverse.mp hd)) fun d hd => hcore d ?_,
        List.reverse_reverse]
      · rw [List.head?_reverse] at hd
        exact List.mem_of_getLast? hd
      · obtain rfl := Option.some.inj hd
        exact List.mem_cons_self ..

/-- What is trimmed off a text is blank. -/
theorem exists_trim (cs : List Char) : ∃ lead trail, cs = lead ++ trim cs ++ trail ∧
    (∀ c ∈ lead, isBlank c = true) ∧ ∀ c ∈ trail, isBlank c = true := by
  refine ⟨cs.takeWhile isBlank,
    ((cs.dropWhile isBlank).reverse.takeWhile isBlank).reverse, ?_, ?_, ?_⟩
  · rw [trim, List.append_assoc, ← List.reverse_append, List.takeWhile_append_dropWhile,
      List.reverse_reverse, List.takeWhile_append_dropWhile]
  · exact fun c hc => List.all_eq_true.mp List.all_takeWhile c hc
  · exact fun c hc => List.all_eq_true.mp List.all_takeWhile c (List.mem_reverse.mp hc)

end Blank

namespace Hex

theorem digit_mem {n : Nat} (h : n < 16) : digit n ∈ "0123456789abcdef".toList := by
  revert n
  decide

theorem mem_digits_of_mem_encode {bs : Bytes} {c : Char} (h : c ∈ (encode bs).toList) :
    c ∈ "0123456789abcdef".toList := by
  rw [encode, String.toList_ofList] at h
  obtain ⟨b, -, hb⟩ := List.mem_flatMap.mp h
  have hhigh : b.toNat / 16 < 16 := Nat.div_lt_of_lt_mul b.toNat_lt
  have hlow : b.toNat % 16 < 16 := Nat.mod_lt _ (by decide)
  rcases List.mem_cons.mp hb with rfl | hb
  · exact digit_mem hhigh
  · rw [List.mem_singleton.mp hb]
    exact digit_mem hlow

theorem lower_of_mem_digits {c : Char} (h : c ∈ "0123456789abcdef".toList) :
    c.toLower = c ∧ Blank.isBlank c = false := by
  have hall : "0123456789abcdef".toList.all
      (fun c => c.toLower = c ∧ Blank.isBlank c = false) = true := by
    decide
  exact of_decide_eq_true (List.all_eq_true.mp hall c h)

theorem length_encode (bs : Bytes) : (encode bs).toList.length = 2 * bs.length := by
  rw [encode, String.toList_ofList]
  induction bs with
  | nil => rfl
  | cons b bs ih =>
      rw [List.flatMap_cons, List.length_append, ih, List.length_cons]
      simp only [pair, List.length_cons, List.length_nil]
      omega

end Hex

theorem Sha256.length_digest (bs : Bytes) : (digest bs).length = 32 := rfl

theorem Sha256.length_hex (bs : Bytes) : (hex bs).toList.length = 64 := by
  rw [hex, Hex.length_encode, length_digest]

namespace Digest

/-- The text says these digits, in letters of either case and with blanks around them. -/
def Says (text digits : String) : Prop :=
  ∃ lead core trail, text.toList = lead ++ core ++ trail ∧
    (∀ c ∈ lead, Blank.isBlank c = true) ∧
    (∀ c ∈ trail, Blank.isBlank c = true) ∧ core.map Char.toLower = digits.toList

theorem fits_hex_iff {file : Bytes} {expected : String} :
    fits (Sha256.hex file) expected = true ↔ Says expected (Sha256.hex file) := by
  have hdigits : ∀ c ∈ (Sha256.hex file).toList, c.toLower = c ∧ Blank.isBlank c = false :=
    fun c hc => Hex.lower_of_mem_digits (Hex.mem_digits_of_mem_encode hc)
  have hlower : (Sha256.hex file).toList.map Char.toLower = (Sha256.hex file).toList :=
    (List.map_congr_left fun c hc => (hdigits c hc).1).trans (List.map_id' _)
  rw [fits, decide_eq_true_eq, hlower]
  constructor
  · intro h
    obtain ⟨lead, trail, heq, hlead, htrail⟩ := Blank.exists_trim expected.toList
    exact ⟨lead, _, trail, heq, hlead, htrail, h.symm⟩
  · rintro ⟨lead, core, trail, heq, hlead, htrail, hcore⟩
    have hblank : ∀ c ∈ core, ¬ Blank.isBlank c = true := fun c hc h => by
      have hmem : c.toLower ∈ (Sha256.hex file).toList := hcore ▸ List.mem_map_of_mem hc
      rw [Blank.toLower_of_isBlank h] at hmem
      exact absurd (h.symm.trans (hdigits c hmem).2) nofun
    rw [heq, Blank.trim_append hlead htrail hblank, hcore]

end Digest

end LlvmBootstrap
