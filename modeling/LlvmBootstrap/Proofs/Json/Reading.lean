import LlvmBootstrap.Lock.Holder
import Mathlib.Data.List.TakeDrop
import Mathlib.Tactic.IntervalCases

/-!
Reading a value from the front of a text. How a value is read does not depend on what stands
behind it, if only it shows its end, as all values but numbers do. What is written is read
back.
-/

namespace LlvmBootstrap.Json

variable {cs rest more ds : List Char} {ns : CodePoints} {v : Json} {fuel fuel' : Nat}

/-! ### What stands behind a value -/

theorem skip_append (h : skip cs ≠ []) : skip (cs ++ more) = skip cs ++ more := by
  rw [skip, List.dropWhile_append, if_neg (by simpa [skip, List.isEmpty_iff] using h), skip]

theorem skip_append_cons {c : Char} (h : skip cs = c :: rest) :
    skip (cs ++ more) = c :: (rest ++ more) := by
  rw [skip_append (by simp [h]), h, List.cons_append]

theorem quoted?_append (h : quoted? cs = some (ns, rest)) :
    quoted? (cs ++ more) = some (ns, rest ++ more) := by
  fun_induction quoted? cs generalizing ns with
  | case1 => contradiction
  | case2 cs =>
      cases h
      rfl
  | case3 a b c d cs ih =>
      simp only [Option.bind_eq_bind, Option.bind_eq_some_iff, Option.pure_def,
        Option.some.injEq, Prod.mk.injEq] at h
      obtain ⟨n, hn, ⟨ns', rest'⟩, hq, rfl, rfl⟩ := h
      simp [quoted?, hn, ih hq]
  | case4 e cs hu ih =>
      simp only [Option.bind_eq_bind, Option.bind_eq_some_iff, Option.pure_def,
        Option.some.injEq, Prod.mk.injEq] at h
      obtain ⟨c, hc, ⟨ns', rest'⟩, hq, rfl, rfl⟩ := h
      have hne : e ≠ 'u' := by
        rintro rfl
        exact Option.some_ne_none c hc.symm
      simp [quoted?, hc, ih hq, hne]
  | case5 => contradiction
  | case6 c cs hquote hu hslash hc ih =>
      simp only [Option.bind_eq_bind, Option.bind_eq_some_iff, Option.pure_def,
        Option.some.injEq, Prod.mk.injEq] at h
      obtain ⟨⟨ns', rest'⟩, hq, rfl, rfl⟩ := h
      rw [not_or] at hc
      simp [quoted?, ih hq, hc]

/-- The digits at the front, and what is behind them. -/
theorem digits?_eq_some (h : digits? cs = some (ds, rest)) :
    ds = cs.takeWhile Char.isDigit ∧ rest = cs.dropWhile Char.isDigit ∧ ds ≠ [] := by
  rw [digits?, List.span_eq_takeWhile_dropWhile] at h
  split at h
  · contradiction
  · next hne =>
      cases h
      exact ⟨rfl, rfl, fun hnil => hne _ (Prod.ext hnil rfl)⟩

theorem digits?_append (h : digits? cs = some (ds, rest)) (hrest : rest ≠ []) :
    digits? (cs ++ more) = some (ds, rest ++ more) := by
  obtain ⟨rfl, rfl, hne⟩ := digits?_eq_some h
  have hdrop := @List.dropWhile_append _ Char.isDigit cs more
  rw [if_neg (by simpa [List.isEmpty_iff] using hrest)] at hdrop
  have htake : (cs ++ more).takeWhile Char.isDigit = cs.takeWhile Char.isDigit := by
    rw [List.takeWhile_append, if_neg]
    intro hlength
    have hall := List.takeWhile_append_dropWhile (p := Char.isDigit) (l := cs)
    exact hrest
      (List.append_cancel_left
        (hall.trans ((List.takeWhile_prefix _).eq_of_length hlength).symm
      |>.trans (List.append_nil _).symm))
  rw [digits?, List.span_eq_takeWhile_dropWhile, htake, hdrop]
  split
  · next hnil => exact absurd (congrArg Prod.fst hnil) hne
  · rfl

theorem fraction?_append (h : fraction? cs = some (ds, rest)) (hrest : rest ≠ []) :
    fraction? (cs ++ more) = some (ds, rest ++ more) := by
  unfold fraction? at h
  split at h
  · rw [Option.map_eq_some_iff] at h
    obtain ⟨⟨ds', rest'⟩, hd, he⟩ := h
    cases he
    rw [List.cons_append, fraction?, digits?_append hd hrest]
    rfl
  · next hdot =>
      cases h
      obtain ⟨c, cs, rfl⟩ := List.exists_cons_of_ne_nil hrest
      rw [List.cons_append, fraction?]
      rintro cs' he
      exact hdot cs (by rw [List.cons.inj he |>.1])

theorem exponent?_append (h : exponent? cs = some (ds, rest)) (hrest : rest ≠ []) :
    exponent? (cs ++ more) = some (ds, rest ++ more) := by
  unfold exponent? at h
  split at h
  · next e cs =>
      split at h
      · next he =>
          split at h
          · next s cs' =>
              split at h
              · next hs =>
                  obtain ⟨⟨ds', rest'⟩, hd, heq⟩ := Option.map_eq_some_iff.mp h
                  cases heq
                  simp [exponent?, he, hs, digits?_append hd hrest]
              · next hs =>
                  obtain ⟨⟨ds', rest'⟩, hd, heq⟩ := Option.map_eq_some_iff.mp h
                  cases heq
                  have hd' := @digits?_append _ _ more _ hd hrest
                  rw [List.cons_append] at hd'
                  simp [exponent?, he, hs, hd']
          · contradiction
      · next he =>
          cases h
          simp [exponent?, he]
  · cases h
    contradiction

theorem ne_nil_of_fraction? (h : fraction? cs = some (ds, rest)) (hrest : rest ≠ []) :
    cs ≠ [] := by
  rintro rfl
  cases h
  contradiction

theorem ne_nil_of_exponent? (h : exponent? cs = some (ds, rest)) (hrest : rest ≠ []) :
    cs ≠ [] := by
  rintro rfl
  cases h
  contradiction

def afterSign? (sign cs : List Char) : Option (List Char × List Char) := do
  let (whole, cs) ← digits? cs
  guard (whole.head? ≠ some '0' ∨ whole.length = 1)
  let (fraction, cs) ← fraction? cs
  let (exponent, cs) ← exponent? cs
  return (sign ++ whole ++ fraction ++ exponent, cs)

theorem number?_cons {c : Char} (hc : c ≠ '-') :
    number? (c :: cs) = afterSign? [] (c :: cs) := by
  unfold number?
  split
  next sign cs' heq =>
    split at heq
    · next hcons => exact absurd (List.cons.inj hcons).1 hc
    · cases heq
      rfl

theorem afterSign?_append {sign : List Char} (h : afterSign? sign cs = some (ds, rest))
    (hrest : rest ≠ []) : afterSign? sign (cs ++ more) = some (ds, rest ++ more) := by
  simp only [afterSign?, Option.bind_eq_bind, Option.bind_eq_some_iff, Option.pure_def,
    Option.some.injEq, Prod.mk.injEq, ne_eq] at h
  obtain ⟨⟨whole, cs₁⟩, hwhole, _, hguard, ⟨fraction, cs₂⟩, hfraction, ⟨exponent, cs₃⟩,
    hexponent, rfl,
    rfl⟩ := h
  have hne₂ := ne_nil_of_exponent? hexponent hrest
  have hne₁ := ne_nil_of_fraction? hfraction hne₂
  simp [afterSign?, digits?_append hwhole hne₁, fraction?_append hfraction hne₂,
    exponent?_append hexponent hrest, hguard]

theorem number?_append (h : number? cs = some (ds, rest)) (hrest : rest ≠ []) :
    number? (cs ++ more) = some (ds, rest ++ more) := by
  cases cs with
  | nil => contradiction
  | cons c cs =>
      by_cases hc : c = '-'
      · subst hc
        exact afterSign?_append h hrest
      · rw [number?_cons hc] at h
        rw [List.cons_append, number?_cons hc]
        exact afterSign?_append h hrest

theorem word?_append {word : String} (h : word? word cs = some rest) :
    word? word (cs ++ more) = some (rest ++ more) := by
  rw [word?] at h ⊢
  split at h
  · next hprefix =>
      cases h
      obtain ⟨tail, rfl⟩ := List.isPrefixOf_iff_prefix.mp hprefix
      rw [List.append_assoc, if_pos (List.isPrefixOf_iff_prefix.mpr ⟨_, rfl⟩)]
      rw [← String.length_toList, List.drop_left, List.drop_left]
  · contradiction

/-- A value that shows where it ends, even at the end of a text. -/
def Closed : Json → Prop
  | .number _ => False
  | _ => True

/-- Values, elements and members that can be read with so much fuel are read alike with more,
and with more behind them. -/
structure ReadsOn (fuel : Nat) : Prop where
  value : ∀ {cs v rest more fuel'}, value? fuel cs = some (v, rest) → v.Closed ∨ rest ≠ [] →
    fuel ≤ fuel' → value? fuel' (cs ++ more) = some (v, rest ++ more)
  elements : ∀ {cs vs rest more fuel'}, elements? fuel cs = some (vs, rest) → fuel ≤ fuel' →
    elements? fuel' (cs ++ more) = some (vs, rest ++ more)
  members : ∀ {cs ms rest more fuel'}, members? fuel cs = some (ms, rest) → fuel ≤ fuel' →
    members? fuel' (cs ++ more) = some (ms, rest ++ more)

theorem value?_nil : value? fuel [] = none := by
  cases fuel <;> rfl

theorem elements?_nil : elements? fuel [] = none := by
  cases fuel with
  | zero => rfl
  | succ fuel => rw [elements?, value?_nil]; rfl

theorem members?_nil : members? fuel [] = none := by
  cases fuel <;> rfl

theorem ne_nil_of_skip {c : Char} (h : skip cs = c :: rest) : cs ≠ [] := by
  rintro rfl
  contradiction

theorem ReadsOn.elements_succ (ih : ReadsOn fuel) {vs : List Json}
    (h : elements? (fuel + 1) cs = some (vs, rest)) (hfuel : fuel ≤ fuel') :
    elements? (fuel' + 1) (cs ++ more) = some (vs, rest ++ more) := by
  simp only [elements?, Option.bind_eq_bind, Option.bind_eq_some_iff] at h
  obtain ⟨⟨v, cs₁⟩, hv, h⟩ := h
  split at h
  · next cs₂ hskip =>
      obtain ⟨⟨vs', rest'⟩, hvs, heq⟩ := Option.map_eq_some_iff.mp h
      cases heq
      simp [elements?, ih.value hv (.inr (ne_nil_of_skip hskip)) hfuel, skip_append_cons hskip,
        ih.elements hvs hfuel]
  · next cs₂ hskip =>
      cases h
      simp [elements?, ih.value hv (.inr (ne_nil_of_skip hskip)) hfuel, skip_append_cons hskip]
  · contradiction

theorem ReadsOn.members_succ (ih : ReadsOn fuel) {ms : List (CodePoints × Json)}
    (h : members? (fuel + 1) cs = some (ms, rest)) (hfuel : fuel ≤ fuel') :
    members? (fuel' + 1) (cs ++ more) = some (ms, rest ++ more) := by
  simp only [members?, Option.bind_eq_bind] at h
  split at h
  · next cs₁ hskip₁ =>
      obtain ⟨⟨key, cs₂⟩, hkey, h⟩ := Option.bind_eq_some_iff.mp h
      dsimp only at h
      split at h
      · next cs₃ hskip₂ =>
          obtain ⟨⟨v, cs₄⟩, hv, h⟩ := Option.bind_eq_some_iff.mp h
          dsimp only at h
          split at h
          · next cs₅ hskip₃ =>
              -- Behind a comma there are more members, and behind a
              -- brace the object is closed.
              obtain ⟨⟨ms', rest'⟩, hms, heq⟩ := Option.map_eq_some_iff.mp h
              cases heq
              simp [members?, skip_append_cons hskip₁, quoted?_append hkey,
                skip_append_cons hskip₂, ih.value hv (.inr (ne_nil_of_skip hskip₃)) hfuel,
                skip_append_cons hskip₃,
                ih.members hms hfuel]
          · next cs₅ hskip₃ =>
              cases h
              simp [members?, skip_append_cons hskip₁, quoted?_append hkey,
                skip_append_cons hskip₂, ih.value hv (.inr (ne_nil_of_skip hskip₃)) hfuel,
                skip_append_cons hskip₃]
          · contradiction
      · contradiction
  · contradiction

theorem ReadsOn.value_succ (ih : ReadsOn fuel) (h : value? (fuel + 1) cs = some (v, rest))
    (hends : v.Closed ∨ rest ≠ []) (hfuel : fuel ≤ fuel') :
    value? (fuel' + 1) (cs ++ more) = some (v, rest ++ more) := by
  rw [value?] at h
  split at h
  · next cs' hskip =>
      obtain ⟨⟨ns, rest'⟩, hq, heq⟩ := Option.map_eq_some_iff.mp h
      cases heq
      simp [value?, skip_append_cons hskip, quoted?_append hq]
  · next cs' hskip =>
      split at h
      · next cs'' hskip' =>
          cases h
          simp [value?, skip_append_cons hskip, skip_append_cons hskip']
      · next hopen =>
          obtain ⟨⟨vs, rest'⟩, hvs, heq⟩ := Option.map_eq_some_iff.mp h
          cases heq
          have hne : skip cs' ≠ [] := fun hnil => by simp [hnil, elements?_nil] at hvs
          obtain ⟨c, tail, hc⟩ := List.exists_cons_of_ne_nil hne
          -- What follows the bracket is no closing one, and text
          -- behind it does not change that.
          have hclose : c ≠ ']' := fun he => hopen tail (he ▸ hc)
          have hvs' := @ih.elements _ _ _ more _ hvs hfuel
          rw [hc, List.cons_append] at hvs'
          simp [value?, skip_append_cons hskip, skip_append_cons hc, hclose, hvs']
  · next cs' hskip =>
      split at h
      · next cs'' hskip' =>
          cases h
          simp [value?, skip_append_cons hskip, skip_append_cons hskip']
      · next hopen =>
          obtain ⟨⟨ms, rest'⟩, hms, heq⟩ := Option.map_eq_some_iff.mp h
          cases heq
          have hne : skip cs' ≠ [] := fun hnil => by simp [hnil, members?_nil] at hms
          obtain ⟨c, tail, hc⟩ := List.exists_cons_of_ne_nil hne
          have hclose : c ≠ '\x7d' := fun he => hopen tail (he ▸ hc)
          have hms' := @ih.members _ _ _ more _ hms hfuel
          rw [hc, List.cons_append] at hms'
          simp [value?, skip_append_cons hskip, skip_append_cons hc, hclose, hms']
  · next cs' hskip =>
      obtain ⟨rest', hword, heq⟩ := Option.map_eq_some_iff.mp h
      cases heq
      simp [value?, skip_append_cons hskip, word?_append hword]
  · next cs' hskip =>
      obtain ⟨rest', hword, heq⟩ := Option.map_eq_some_iff.mp h
      cases heq
      simp [value?, skip_append_cons hskip, word?_append hword]
  · next cs' hskip =>
      obtain ⟨rest', hword, heq⟩ := Option.map_eq_some_iff.mp h
      cases heq
      simp [value?, skip_append_cons hskip, word?_append hword]
  · next hquote harray hobject hnull htrue hfalse =>
      obtain ⟨⟨ds, rest'⟩, hn, heq⟩ := Option.map_eq_some_iff.mp h
      cases heq
      -- A number ends where no digit follows, so something must: this is the
      -- one case where `hends` is needed.
      have hrest : rest' ≠ [] := hends.resolve_left id
      have hne : skip cs ≠ [] := fun hnil => by simp [hnil, number?, digits?] at hn
      obtain ⟨c, tail, hc⟩ := List.exists_cons_of_ne_nil hne
      have hn' := @number?_append _ _ more _ hn hrest
      rw [hc, List.cons_append] at hn'
      have hother : ∀ c', (∀ tail', skip cs = c' :: tail' → False) → c ≠ c' :=
        fun c' hno he => hno tail (he ▸ hc)
      simp [value?, skip_append_cons hc, hother _ hquote, hother _ harray, hother _ hobject,
        hother _ hnull, hother _ htrue, hother _ hfalse, hn']

theorem readsOn (fuel : Nat) : ReadsOn fuel := by
  induction fuel with
  | zero => exact ⟨nofun, nofun, nofun⟩
  | succ fuel ih =>
      refine ⟨fun h hends hfuel => ?_, fun h hfuel => ?_, fun h hfuel => ?_⟩
      all_goals
        obtain ⟨fuel', rfl⟩ := Nat.exists_eq_add_of_lt hfuel
      · exact ih.value_succ h hends (Nat.le_add_right ..)
      · exact ih.elements_succ h (Nat.le_add_right ..)
      · exact ih.members_succ h (Nat.le_add_right ..)

/-- Reading a value that shows where it ends does not depend on what is behind it. -/
theorem value?_append (h : value? fuel cs = some (v, rest)) (hv : v.Closed)
    (hfuel : fuel ≤ fuel') :
    value? fuel' (cs ++ more) = some (v, rest ++ more) :=
  (readsOn fuel).value h (.inl hv) hfuel

/-! ### What is written is read back -/

theorem hex4?_pair {n : Nat} (hn : n < 0x20) :
    hex4? ('0' :: '0' :: Hex.pair (UInt8.ofNat n)) = some n := by
  revert n
  decide

theorem lookup_of_find {c c' e : Char}
    (h : (escapes.filter (·.1 ≠ '/')).find? (·.2 = c) = some (e, c')) :
    escapes.lookup e = some c ∧ e ≠ 'u' := by
  have hall : ∀ p ∈ escapes.filter (·.1 ≠ '/'), escapes.lookup p.1 = some p.2 ∧
      p.1 ≠ 'u' := by decide
  obtain rfl : c' = c := by simpa using List.find?_some h
  exact hall _ (List.mem_of_find?_eq_some h)

theorem ne_of_find {c : Char} (h : (escapes.filter (·.1 ≠ '/')).find? (·.2 = c) = none) :
    c ≠ '"' ∧ c ≠ '\\' := by
  constructor <;> rintro rfl <;> exact absurd h (by decide)

theorem quoted?_escaped (c : Char) (cs : List Char) :
    quoted? (escaped c ++ cs) = (quoted? cs).map fun r => (c.toNat :: r.1, r.2) := by
  rw [escaped]
  split
  · next e c' hfind =>
      obtain ⟨hlookup, hne⟩ := lookup_of_find hfind
      cases hq : quoted? cs <;> simp [quoted?, hlookup, hne, hq]
  · next hfind =>
      obtain ⟨hquote, hslash⟩ := ne_of_find hfind
      split
      · next hc =>
          change quoted? ('\\' :: 'u' :: '0' :: '0' :: _ :: _ :: cs) = _
          rw [quoted?, ← Hex.pair, hex4?_pair hc]
          cases quoted? cs <;> rfl
      · next hc =>
          cases hq : quoted? cs <;> simp [quoted?, hslash, hc, hq]

theorem quoted?_flatMap_escaped (cs rest : List Char) :
    quoted? (cs.flatMap escaped ++ '"' :: rest) = some (cs.map Char.toNat, rest) := by
  induction cs with
  | nil => rfl
  | cons c cs ih => rw [List.flatMap_cons, List.append_assoc, quoted?_escaped, ih]; rfl

theorem isHalf_toNat (c : Char) : isHighHalf c.toNat = false ∧ isLowHalf c.toNat = false := by
  have hc := c.valid
  simp only [isHighHalf, isLowHalf, Char.toNat]
  simp only [UInt32.isValidChar, Nat.isValidChar] at hc
  grind

theorem chars?_map_toNat (cs : List Char) : chars? (cs.map Char.toNat) = some cs := by
  induction cs with
  | nil => rfl
  | cons c cs ih =>
      obtain ⟨hhigh, hlow⟩ := isHalf_toNat c
      cases cs with
      | nil => simp [chars?, hhigh, hlow]
      | cons d cs =>
          rw [List.map_cons, List.map_cons, chars?, ← List.map_cons, ih]
          simp [hhigh, hlow]

theorem text?_map_toNat (s : String) : text? (s.toList.map Char.toNat) = some s := by
  rw [text?, chars?_map_toNat, Option.map_some, String.ofList_toList]

theorem head_toDigits {n : Nat} (hn : n ≠ 0) : (Nat.toDigits 10 n).head? ≠ some '0' := by
  induction n using Nat.strongRecOn with
  | ind n ih =>
      rcases Nat.lt_or_ge n 10 with hlt | hge
      · rw [Nat.toDigits_of_lt_base hlt]
        interval_cases n <;> simp_all
      · rw [Nat.toDigits_of_base_le (by decide) hge, List.head?_append,
          List.head?_eq_some_head Nat.toDigits_ne_nil, Option.some_or,
          ← List.head?_eq_some_head]
        exact ih (n / 10) (by omega) (by omega)

/-- A numeral has no zero in front, unless it is that digit alone. -/
theorem head_or_length_toDigits (n : Nat) :
    (Nat.toDigits 10 n).head? ≠ some '0' ∨ (Nat.toDigits 10 n).length = 1 := by
  rcases eq_or_ne n 0 with rfl | hn
  · exact .inr rfl
  · exact .inl (head_toDigits hn)

theorem digits?_toDigits (n : Nat) {c : Char} (hc : c.isDigit = false) :
    digits? (Nat.toDigits 10 n ++ c :: cs) = some (Nat.toDigits 10 n, c :: cs) := by
  have hall : ∀ d ∈ Nat.toDigits 10 n, d.isDigit = true := fun d hd =>
    Nat.isDigit_of_mem_toDigits (by decide) (by decide) hd
  rw [digits?, List.span_eq_takeWhile_dropWhile, List.takeWhile_append_of_pos hall,
    List.dropWhile_append_of_pos hall, List.takeWhile_cons_of_neg (by simp [hc]),
    List.append_nil,
    List.dropWhile_cons_of_neg (by simp [hc])]
  split
  · next hnil => exact absurd (congrArg Prod.fst hnil) Nat.toDigits_ne_nil
  · rfl

/-- A numeral is read up to what cannot continue it. -/
theorem number?_toDigits (n : Nat) {c : Char} (hc : c = ',' ∨ c = '\x7d') :
    number? (Nat.toDigits 10 n ++ c :: cs) = some (Nat.toDigits 10 n, c :: cs) := by
  have hdigits : digits? (Nat.toDigits 10 n ++ c :: cs) = some (Nat.toDigits 10 n, c :: cs) :=
    digits?_toDigits n (by rcases hc with rfl | rfl <;> rfl)
  have hfraction : fraction? (c :: cs) = some ([], c :: cs) := by
    rcases hc with rfl | rfl <;> rfl
  have hexponent : exponent? (c :: cs) = some ([], c :: cs) := by
    rcases hc with rfl | rfl <;> rfl
  obtain ⟨d, ds, hd⟩ := List.exists_cons_of_ne_nil (Nat.toDigits_ne_nil (n := n) (b := 10))
  have hminus : d ≠ '-' := by
    rintro rfl
    exact absurd
      (Nat.isDigit_of_mem_toDigits (n := n) (by decide) (by decide) (hd ▸ List.mem_cons_self))
      (by decide)
  rw [hd, List.cons_append, number?_cons hminus, ← List.cons_append, ← hd]
  simp [afterSign?, hdigits, head_or_length_toDigits, hfraction, hexponent]

theorem digit?_ten (c : Char) :
    Numeral.digit? 10 c = if c.isDigit then some (c.toNat - '0'.toNat) else none := by
  rw [Numeral.digit?]
  refine if_congr (Iff.trans (and_congr_right fun _ => ?_) Char.isDigit_iff_toNat.symm) rfl rfl
  rw [show '0'.toNat + 10 = '9'.toNat + 1 from rfl, Nat.lt_succ_iff]

theorem digits?_eq_some_iff (n k : Nat) : Numeral.digits? 10 n cs = some k ↔
    (∀ c ∈ cs, c.isDigit = true) ∧ Nat.ofDigitChars 10 cs n = k := by
  induction cs generalizing n with
  | nil => simp [Numeral.digits?]
  | cons c cs ih =>
      rw [Numeral.digits?, digit?_ten, Nat.ofDigitChars_cons, Nat.mul_comm 10,
        List.forall_mem_cons]
      cases hc : c.isDigit with
      | false => simp
      | true => simp [ih]

theorem digits?_toDigits_eq (n : Nat) : Numeral.digits? 10 0 (Nat.toDigits 10 n) = some n :=
  (digits?_eq_some_iff 0 n).mpr
    ⟨fun _ hc => Nat.isDigit_of_mem_toDigits (by decide) (by decide) hc,
    Nat.ofDigitChars_ten_toDigits⟩

theorem value?_toDigits (n : Nat) {c : Char} (hc : c = ',' ∨ c = '\x7d') :
    value? (fuel + 1) (Nat.toDigits 10 n ++ c :: cs) =
      some (.number (Nat.toDigits 10 n), c :: cs) := by
  have hnumber := @number?_toDigits cs n _ hc
  obtain ⟨d, ds, hd⟩ := List.exists_cons_of_ne_nil (Nat.toDigits_ne_nil (n := n) (b := 10))
  have hdigit : d.isDigit = true :=
    Nat.isDigit_of_mem_toDigits (by decide) (by decide) (hd ▸ List.mem_cons_self)
  have hne : ∀ c', c'.isDigit = false → d ≠ c' := fun c' hc' he => by simp [he, hc'] at hdigit
  rw [hd, List.cons_append] at hnumber ⊢
  have hskip : skip (d :: (ds ++ c :: cs)) = d :: (ds ++ c :: cs) :=
    List.dropWhile_cons_of_neg (by
      simp [isSpace, hne ' ' rfl, hne '\n' rfl, hne '\t' rfl, hne '\r' rfl])
  simp [value?, hskip, hne '"' rfl, hne '[' rfl, hne '\x7b' rfl, hne 'n' rfl,
    hne 't' rfl, hne 'f' rfl, hnumber]

theorem toList_quote (s : String) :
    (quote s).toList = '"' :: s.toList.flatMap escaped ++ ['"'] :=
  String.toList_ofList

theorem value?_quote (s : String) :
    value? (fuel + 1) ((quote s).toList ++ cs) =
      some (.quoted (s.toList.map Char.toNat), cs) := by
  rw [toList_quote, List.append_assoc, List.cons_append, List.singleton_append, value?]
  change (quoted? _).map _ = _
  rw [quoted?_flatMap_escaped]
  rfl

theorem members?_quote (key : String) (hv : value? fuel cs = some (v, rest)) :
    members? (fuel + 1) ((quote key).toList ++ ':' :: cs) =
      match skip rest with
      | ',' :: cs => (members? fuel cs).map fun r =>
          ((key.toList.map Char.toNat, v) :: r.1, r.2)
      | '\x7d' :: cs => some ([(key.toList.map Char.toNat, v)], cs)
      | _ => none := by
  rw [toList_quote, List.append_assoc, List.cons_append, List.singleton_append, members?]
  change (quoted? _).bind _ = _
  rw [quoted?_flatMap_escaped]
  change (value? fuel cs).bind _ = _
  rw [hv]
  rfl

theorem members?_next {ms : List (CodePoints × Json)} (key : String)
    (hv : value? fuel cs = some (v, ',' :: rest))
    (hms : members? fuel rest = some (ms, more)) :
    members? (fuel + 1) ((quote key).toList ++ ':' :: cs) =
      some ((key.toList.map Char.toNat, v) :: ms, more) := by
  rw [members?_quote key hv]
  change (members? fuel rest).map _ = _
  rw [hms]
  rfl

theorem members?_last (key : String) (hv : value? fuel cs = some (v, '\x7d' :: rest)) :
    members? (fuel + 1) ((quote key).toList ++ ':' :: cs) =
      some ([(key.toList.map Char.toNat, v)], rest) := by
  rw [members?_quote key hv]
  rfl

theorem value?_object {ms : List (CodePoints × Json)} {key : String}
    (hms : members? fuel ((quote key).toList ++ cs) = some (ms, rest)) :
    value? (fuel + 1) ('\x7b' :: ((quote key).toList ++ cs)) = some (.object ms, rest) := by
  have hskip : ∀ cs, skip ('"' :: cs) = '"' :: cs := fun _ => rfl
  have hskip' : ∀ cs, skip ('\x7b' :: cs) = '\x7b' :: cs := fun _ => rfl
  rw [toList_quote, List.append_assoc, List.cons_append] at hms ⊢
  simp only [value?, hskip, hskip']
  change (members? fuel _).map _ = _
  rw [hms]
  rfl

end LlvmBootstrap.Json
