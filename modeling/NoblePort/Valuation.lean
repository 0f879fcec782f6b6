import NoblePort.Digest

/-!
# Displayed amounts

`format_valuation` against a reader of its texts: the amount that a text shows, how
far it is from the formatted one, and whether it is shown in its own unit.
-/
namespace NoblePort.Valuation

open Exact NoblePort.Notices

/-- The digits of a text without their point, how many stand behind it, and what
the letter at the end multiplies by. -/
structure Display where
  digits : ℕ
  decimals : ℕ
  scale : ℕ
  deriving DecidableEq, Repr

namespace Display

def mantissa (d : Display) : ℚ := d.digits / 10 ^ d.decimals

def value (d : Display) : ℚ := d.mantissa * d.scale

/-- What one more at the last displayed digit would add. -/
def lastUnit (d : Display) : ℚ := d.scale / 10 ^ d.decimals

/-- Thousands show 1 to 999, millions at least 1.00. -/
structure Canonical (d : Display) : Prop where
  thousands : d.scale = 1000 → 1 ≤ d.mantissa ∧ d.mantissa ≤ 999
  millions : d.scale = 1000000 → 1 ≤ d.mantissa

end Display

def splitUnit (cs : List Char) : List Char × ℕ :=
  match cs.reverse with
  | 'M' :: number => (number.reverse, 1000000)
  | 'K' :: number => (number.reverse, 1000)
  | _ => (cs, 1)

/-- A number with commas and a point. -/
def readNumber (cs : List Char) (scale : ℕ) : Option Display :=
  let cs := cs.filter (· ≠ ',')
  let whole := cs.takeWhile (· ≠ '.')
  let part := (cs.dropWhile (· ≠ '.')).drop 1
  if whole ≠ [] ∧ (whole ++ part).all Char.isDigit then
    some ⟨Nat.ofDigitChars 10 (whole ++ part) 0, part.length, scale⟩
  else none

def read (text : String) : Option Display :=
  match text.toList with
  | '$' :: cs => readNumber (splitUnit cs).1 (splitUnit cs).2
  | _ => none

section Texts

theorem read_dollar {text : String} {cs : List Char} (h : text.toList = '$' :: cs) :
    read text = readNumber (splitUnit cs).1 (splitUnit cs).2 := by
  unfold read
  rw [h]
  rfl

theorem isDigit_ne {c d : Char} (hc : c.isDigit = true) (hd : d.isDigit = false) : c ≠ d := by
  rintro rfl
  rw [hd] at hc
  cases hc

/-- Digits with a point before some of them are read as they stand. -/
theorem readNumber_digits {cs whole part : List Char} (hne : whole ≠ [])
    (hdigits : ∀ c ∈ whole ++ part, c.isDigit = true)
    (hcs : cs.filter (· ≠ ',') = whole ++ if part = [] then [] else '.' :: part) (scale : ℕ) :
    readNumber cs scale = some ⟨Nat.ofDigitChars 10 (whole ++ part) 0, part.length, scale⟩ := by
  have hwhole : ∀ c ∈ whole, decide (c ≠ '.') = true := fun c hc =>
    decide_eq_true (isDigit_ne (hdigits c (List.mem_append_left _ hc)) rfl)
  have htake : (cs.filter (· ≠ ',')).takeWhile (· ≠ '.') = whole := by
    rw [hcs, List.takeWhile_append_of_pos hwhole]
    split <;> simp
  have hdrop : ((cs.filter (· ≠ ',')).dropWhile (· ≠ '.')).drop 1 = part := by
    rw [hcs, List.dropWhile_append_of_pos hwhole]
    split
    · rename_i hpart
      rw [hpart]
      rfl
    · simp
  have hall : (whole ++ part).all Char.isDigit = true := List.all_eq_true.mpr hdigits
  unfold readNumber
  dsimp only
  rw [htake, hdrop, if_pos ⟨hne, hall⟩]

theorem splitUnit_concat (cs : List Char) : splitUnit (cs ++ ['M']) = (cs, 1000000) ∧
    splitUnit (cs ++ ['K']) = (cs, 1000) := by
  simp [splitUnit]

theorem splitUnit_plain {cs : List Char} (h : ∀ c ∈ cs, c ≠ 'M' ∧ c ≠ 'K') : splitUnit cs = (cs, 1) := by
  unfold splitUnit
  split
  · rename_i number hrev
    exact absurd rfl (h 'M' (List.mem_reverse.mp (by rw [hrev]; simp))).1
  · rename_i number hrev
    exact absurd rfl (h 'K' (List.mem_reverse.mp (by rw [hrev]; simp))).2
  · rfl

theorem filter_group (cs : List Char) (h : ∀ c ∈ cs, c ≠ ',') :
    (commas.group cs).filter (· ≠ ',') = cs := by
  fun_induction commas.group cs with
  | case1 a b c d cs ih => simp_all
  | case2 cs hshort => simpa using h

/-- The decimal digits of a number, filled up with zeros. -/
def padded (w N : ℕ) : List Char := N.repr.toList.leftpad w '0'

theorem isDigit_padded (w N : ℕ) : ∀ c ∈ padded w N, c.isDigit = true := by
  intro c hc
  rw [padded, List.leftpad, List.mem_append, Nat.toList_repr] at hc
  rcases hc with hzero | hc
  · rw [List.eq_of_mem_replicate hzero]
    rfl
  · exact Nat.isDigit_of_mem_toDigits (by omega) (by omega) hc

theorem ofDigitChars_padded (w N : ℕ) : Nat.ofDigitChars 10 (padded w N) 0 = N := by
  rw [padded, List.leftpad, Nat.ofDigitChars_append, Nat.ofDigitChars_replicate_zero, Nat.mul_zero,
    Nat.toList_repr, Nat.ofDigitChars_ten_toDigits]

theorem le_length_padded (w N : ℕ) : w ≤ (padded w N).length := by
  rw [padded, List.length_leftpad]
  exact le_max_left _ _

theorem toList_fixed (n : ℕ) (x : ℚ) : ∃ whole part, whole ++ part = padded (n + 1) (halfEven (x * 10 ^ n)).toNat ∧
    whole ≠ [] ∧ part.length = n ∧ (fixed n x).toList = whole ++ if part = [] then [] else '.' :: part := by
  generalize hds : padded (n + 1) (halfEven (x * 10 ^ n)).toNat = ds
  have hlength : n + 1 ≤ ds.length := by
    rw [← hds]
    exact le_length_padded ..
  have hpart : (ds.drop (ds.length - n)).length = n := by
    rw [List.length_drop]
    omega
  refine ⟨ds.take (ds.length - n), ds.drop (ds.length - n), List.take_append_drop .., ?_, hpart, ?_⟩
  · intro hnil
    have hzero := congrArg List.length hnil
    rw [List.length_take, List.length_nil] at hzero
    omega
  · have hnil : ds.drop (ds.length - n) = [] ↔ n = 0 := by rw [← List.length_eq_zero_iff, hpart]
    rw [padded] at hds
    unfold fixed
    dsimp only
    rw [hds, String.toList_ofList, if_congr hnil rfl rfl]
    split <;> simp

/-- What a rounded number shows, before the letter. -/
theorem readNumber_fixed (n : ℕ) (x : ℚ) (scale : ℕ) : readNumber (fixed n x).toList scale =
    some ⟨(halfEven (x * 10 ^ n)).toNat, n, scale⟩ := by
  obtain ⟨whole, part, happend, hne, hpart, htext⟩ := toList_fixed n x
  have hdigits : ∀ c ∈ whole ++ part, c.isDigit = true := by
    rw [happend]
    exact isDigit_padded _ _
  have hplain : (fixed n x).toList.filter (· ≠ ',') = (fixed n x).toList := by
    rw [List.filter_eq_self, htext]
    intro c hc
    refine decide_eq_true ?_
    rcases List.mem_append.mp hc with hc | hc
    · exact isDigit_ne (hdigits c (List.mem_append_left _ hc)) rfl
    · split at hc
      · cases hc
      · rcases List.mem_cons.mp hc with rfl | hc
        · decide
        · exact isDigit_ne (hdigits c (List.mem_append_right _ hc)) rfl
  rw [readNumber_digits hne hdigits (hplain.trans htext) scale, happend, ofDigitChars_padded, hpart]

/-- A number with its commas is read as the number. -/
theorem readNumber_commas {v : ℤ} (hv : 0 ≤ v) : readNumber (splitUnit (commas v).toList).1
    (splitUnit (commas v).toList).2 = some ⟨v.toNat, 0, 1⟩ := by
  have hdigits : ∀ c ∈ Nat.toDigits 10 v.natAbs, c.isDigit = true := fun c hc =>
    Nat.isDigit_of_mem_toDigits (by omega) (by omega) hc
  have hfilter : (commas v).toList.filter (· ≠ ',') = Nat.toDigits 10 v.natAbs := by
    have hgroup := filter_group (Nat.toDigits 10 v.natAbs).reverse fun c hc =>
      isDigit_ne (hdigits c (List.mem_reverse.mp hc)) rfl
    rw [commas, if_neg (by omega), String.empty_append, String.toList_ofList, Nat.toList_repr,
      List.filter_reverse, hgroup, List.reverse_reverse]
  have hplain : splitUnit (commas v).toList = ((commas v).toList, 1) := by
    apply splitUnit_plain
    intro c hc
    by_cases hcomma : c = ','
    · rw [hcomma]
      decide
    · have hmem : c ∈ (commas v).toList.filter (· ≠ ',') := List.mem_filter.mpr ⟨hc, decide_eq_true hcomma⟩
      rw [hfilter] at hmem
      exact ⟨isDigit_ne (hdigits c hmem) rfl, isDigit_ne (hdigits c hmem) rfl⟩
  have hall : ∀ c ∈ Nat.toDigits 10 v.natAbs ++ [], c.isDigit = true := by
    rwa [List.append_nil]
  have hcs : (commas v).toList.filter (· ≠ ',') =
      Nat.toDigits 10 v.natAbs ++ if ([] : List Char) = [] then [] else ['.'] := by
    rw [hfilter, if_pos rfl, List.append_nil]
  have hnat : v.natAbs = v.toNat := by omega
  rw [hplain, readNumber_digits Nat.toDigits_ne_nil hall hcs 1, List.append_nil,
    Nat.ofDigitChars_ten_toDigits, hnat]
  rfl

end Texts

section Amounts

/-- What the text of an amount shows. -/
def displayOf (v : ℤ) : Display :=
  if 1000000 ≤ v then ⟨(halfEven ((v : ℚ) / 1000000 * 10 ^ 2)).toNat, 2, 1000000⟩
  else if 1000 ≤ v then ⟨(halfEven ((v : ℚ) / 1000 * 10 ^ 0)).toNat, 0, 1000⟩
  else ⟨v.toNat, 0, 1⟩

theorem read_formatValuation {v : ℤ} (hv : 0 ≤ v) : read (formatValuation v) = some (displayOf v) := by
  unfold formatValuation displayOf
  split
  · have hcs : ("$" ++ fixed 2 (v / 1000000) ++ "M").toList =
        '$' :: ((fixed 2 ((v : ℚ) / 1000000)).toList ++ ['M']) := by simp
    rw [read_dollar hcs, (splitUnit_concat _).1, readNumber_fixed]
  · split
    · have hcs : ("$" ++ fixed 0 (v / 1000) ++ "K").toList =
          '$' :: ((fixed 0 ((v : ℚ) / 1000)).toList ++ ['K']) := by simp
      rw [read_dollar hcs, (splitUnit_concat _).2, readNumber_fixed]
    · have hcs : ("$" ++ commas v).toList = '$' :: (commas v).toList := by simp
      rw [read_dollar hcs]
      exact readNumber_commas hv

theorem toNat_halfEven_le {x : ℚ} {n : ℕ} (h : x ≤ n) : (halfEven x).toNat ≤ n := by
  have hmono := halfEven_mono h
  rw [halfEven_natCast] at hmono
  omega

theorem le_toNat_halfEven {x : ℚ} {n : ℕ} (h : (n : ℚ) ≤ x) : n ≤ (halfEven x).toNat := by
  have hmono := halfEven_mono h
  rw [halfEven_natCast] at hmono
  omega

/-- A rounded number is off by half a unit of its last digit at most. -/
theorem rounded_accurate {x : ℚ} (hx : 0 ≤ x) (n scale : ℕ) :
    |(⟨(halfEven (x * 10 ^ n)).toNat, n, scale⟩ : Display).value - x * scale| ≤
      (⟨(halfEven (x * 10 ^ n)).toNat, n, scale⟩ : Display).lastUnit / 2 := by
  have hnonneg : 0 ≤ halfEven (x * 10 ^ n) := by
    have hmono := halfEven_mono (show ((0 : ℤ) : ℚ) ≤ x * 10 ^ n by rw [Int.cast_zero]; positivity)
    rwa [halfEven_intCast] at hmono
  have hcast : ((halfEven (x * 10 ^ n)).toNat : ℚ) = halfEven (x * 10 ^ n) := by
    exact_mod_cast Int.toNat_of_nonneg hnonneg
  have hunit : (0 : ℚ) ≤ scale / 10 ^ n := by positivity
  have herror : (halfEven (x * 10 ^ n) : ℚ) / 10 ^ n * scale - x * scale =
      (halfEven (x * 10 ^ n) - x * 10 ^ n) * (scale / 10 ^ n) := by
    field_simp
  unfold Display.value Display.mantissa Display.lastUnit
  dsimp only
  rw [hcast, herror, abs_mul, abs_of_nonneg hunit]
  calc
    |(halfEven (x * 10 ^ n) : ℚ) - x * 10 ^ n| * (scale / 10 ^ n) ≤ 1 / 2 * (scale / 10 ^ n) := by
      gcongr
      exact abs_halfEven_sub_le _
    _ = scale / 10 ^ n / 2 := by ring

theorem displayOf_accurate {v : ℤ} (hv : 0 ≤ v) :
    |(displayOf v).value - v| ≤ (displayOf v).lastUnit / 2 := by
  have hcast : (0 : ℚ) ≤ v := by exact_mod_cast hv
  unfold displayOf
  split
  · have h := rounded_accurate (x := (v : ℚ) / 1000000) (by positivity) 2 1000000
    rwa [Nat.cast_ofNat, div_mul_cancel₀ _ (by norm_num)] at h
  · split
    · have h := rounded_accurate (x := (v : ℚ) / 1000) (by positivity) 0 1000
      rwa [Nat.cast_ofNat, div_mul_cancel₀ _ (by norm_num)] at h
    · have hnat : ((v.toNat : ℕ) : ℚ) = v := by exact_mod_cast Int.toNat_of_nonneg hv
      simp [Display.value, Display.mantissa, Display.lastUnit, hnat]

theorem value_of_ones {v : ℤ} (hv : 0 ≤ v) (hk : v < 1000) : (displayOf v).value = v := by
  have hm : ¬ 1000000 ≤ v := by omega
  have hnat : ((v.toNat : ℕ) : ℚ) = v := by exact_mod_cast Int.toNat_of_nonneg hv
  simp [displayOf, if_neg hm, if_neg (not_le.mpr hk), Display.value, Display.mantissa, hnat]

theorem value_of_thousands {v : ℤ} (hk : 1000 ≤ v) (hm : v < 1000000) :
    1000 ≤ (displayOf v).value ∧ (displayOf v).value ≤ 1000000 := by
  have hlow : ((1 : ℕ) : ℚ) ≤ (v : ℚ) / 1000 * 10 ^ 0 := by
    have hcast : (1000 : ℚ) ≤ v := by exact_mod_cast hk
    push_cast
    linarith
  have hhigh : (v : ℚ) / 1000 * 10 ^ 0 ≤ (1000 : ℕ) := by
    have hcast : (v : ℚ) ≤ 1000000 := by exact_mod_cast hm.le
    push_cast
    linarith
  have hone : (1 : ℚ) ≤ (halfEven ((v : ℚ) / 1000 * 10 ^ 0)).toNat := by
    exact_mod_cast le_toNat_halfEven hlow
  have hthousand : ((halfEven ((v : ℚ) / 1000 * 10 ^ 0)).toNat : ℚ) ≤ 1000 := by
    exact_mod_cast toNat_halfEven_le hhigh
  simp only [displayOf, if_neg (not_le.mpr hm), if_pos hk, Display.value, Display.mantissa]
  push_cast
  constructor <;> linarith

theorem value_of_millions {v : ℤ} (hm : 1000000 ≤ v) : 1000000 ≤ (displayOf v).value := by
  have hlow : ((100 : ℕ) : ℚ) ≤ (v : ℚ) / 1000000 * 10 ^ 2 := by
    have hcast : (1000000 : ℚ) ≤ v := by exact_mod_cast hm
    push_cast
    linarith
  have hdigits : (100 : ℚ) ≤ (halfEven ((v : ℚ) / 1000000 * 10 ^ 2)).toNat := by
    exact_mod_cast le_toNat_halfEven hlow
  simp only [displayOf, if_pos hm, Display.value, Display.mantissa]
  push_cast
  linarith

/-- Within a unit rounding keeps the order, and the units follow one another. -/
theorem displayOf_mono {v w : ℤ} (hv : 0 ≤ v) (hvw : v ≤ w) :
    (displayOf v).value ≤ (displayOf w).value := by
  have hcast : (v : ℚ) ≤ w := by exact_mod_cast hvw
  have hsame (n : ℕ) (s : ℚ) (hs : 0 < s) :
      (halfEven ((v : ℚ) / s * 10 ^ n)).toNat ≤ (halfEven ((w : ℚ) / s * 10 ^ n)).toNat :=
    Int.toNat_le_toNat (halfEven_mono (by gcongr))
  by_cases hm : 1000000 ≤ v
  · have hdigits := hsame 2 1000000 (by norm_num)
    simp only [displayOf, if_pos hm, if_pos (hm.trans hvw), Display.value, Display.mantissa]
    gcongr
  · by_cases hk : 1000 ≤ v
    · by_cases hwbig : 1000000 ≤ w
      · exact (value_of_thousands hk (by omega)).2.trans (value_of_millions hwbig)
      · have hdigits := hsame 0 1000 (by norm_num)
        simp only [displayOf, if_neg hm, if_pos hk, if_neg hwbig, if_pos (hk.trans hvw), Display.value,
          Display.mantissa]
        gcongr
    · have hthousand : (v : ℚ) ≤ 1000 := by exact_mod_cast (not_le.mp hk).le
      rw [value_of_ones hv (not_le.mp hk)]
      by_cases hwbig : 1000000 ≤ w
      · linarith [value_of_millions hwbig]
      · by_cases hwmid : 1000 ≤ w
        · exact hthousand.trans (value_of_thousands hwmid (by omega)).1
        · rwa [value_of_ones (hv.trans hvw) (by omega)]

/-- From 999500 on the thousands are those of 999.5, or more. -/
theorem thousands_le_iff (v : ℤ) : (halfEven ((v : ℚ) / 1000)).toNat ≤ 999 ↔ v < 999500 := by
  constructor
  · intro hle
    by_contra hround
    have hcast : ((999500 : ℤ) : ℚ) ≤ v := by exact_mod_cast not_lt.mp hround
    have hmono : halfEven (1999 / 2 : ℚ) ≤ halfEven ((v : ℚ) / 1000) :=
      halfEven_mono (by push_cast at hcast; linarith)
    have hhalf : halfEven (1999 / 2 : ℚ) = 1000 := by decide +kernel
    omega
  · intro hround
    have hcast : (v : ℚ) ≤ 999499 := by exact_mod_cast (by omega : v ≤ 999499)
    have herror := (abs_le.mp (abs_halfEven_sub_le ((v : ℚ) / 1000))).2
    have hlt : (halfEven ((v : ℚ) / 1000) : ℚ) < 1000 := by linarith
    have hint : halfEven ((v : ℚ) / 1000) < 1000 := by exact_mod_cast hlt
    omega

/-- Only the thousands that round up to a million are shown in the wrong unit. -/
theorem displayOf_canonical (v : ℤ) :
    (displayOf v).Canonical ↔ v < 999500 ∨ 1000000 ≤ v := by
  by_cases hm : 1000000 ≤ v
  · have hscale : (displayOf v).scale = 1000000 := by simp [displayOf, hm]
    have hvalue := value_of_millions hm
    rw [Display.value, hscale] at hvalue
    push_cast at hvalue
    refine iff_of_true ⟨fun h => ?_, fun _ => ?_⟩ (.inr hm)
    · rw [hscale] at h
      cases h
    · linarith
  · by_cases hk : 1000 ≤ v
    · have hscale : (displayOf v).scale = 1000 := by simp [displayOf, hm, hk]
      have hmantissa : (displayOf v).mantissa = (halfEven ((v : ℚ) / 1000)).toNat := by
        simp [displayOf, hm, hk, Display.mantissa]
      have hlow := (value_of_thousands hk (by omega)).1
      rw [Display.value, hscale] at hlow
      push_cast at hlow
      have hcanonical : (displayOf v).Canonical ↔ (displayOf v).mantissa ≤ 999 := by
        constructor
        · exact fun h => (h.thousands hscale).2
        · intro h
          refine ⟨fun _ => ⟨by linarith, h⟩, fun hmillion => ?_⟩
          rw [hscale] at hmillion
          cases hmillion
      have hle : ((halfEven ((v : ℚ) / 1000)).toNat : ℚ) ≤ 999 ↔
          (halfEven ((v : ℚ) / 1000)).toNat ≤ 999 := by norm_cast
      rw [hcanonical, hmantissa, hle, thousands_le_iff]
      omega
    · have hscale : (displayOf v).scale = 1 := by simp [displayOf, hm, hk]
      refine iff_of_true ⟨fun h => ?_, fun h => ?_⟩ (.inl (by omega))
      · rw [hscale] at h
        cases h
      · rw [hscale] at h
        cases h

end Amounts

/-- Two amounts are shown in order, accurately and in their own units, by both copies. -/
structure Faithful (v w : ℤ) : Prop where
  shown : ∃ a b, read (formatValuation v) = some a ∧ read (formatValuation w) = some b ∧
    a.value ≤ b.value ∧ |a.value - v| ≤ a.lastUnit / 2 ∧ |b.value - w| ≤ b.lastUnit / 2 ∧
    a.Canonical ∧ b.Canonical
  copies : formatValuation v = Digest.formatValuation v ∧ formatValuation w = Digest.formatValuation w

/-- Only the unit can go wrong, and does from 999500 up to a million. -/
theorem faithful_iff {v w : ℤ} (hv : 0 ≤ v) (hvw : v ≤ w) :
    Faithful v w ↔ (v < 999500 ∨ 1000000 ≤ v) ∧ (w < 999500 ∨ 1000000 ≤ w) := by
  have hw := hv.trans hvw
  have hreadv := read_formatValuation hv
  have hreadw := read_formatValuation hw
  rw [← displayOf_canonical v, ← displayOf_canonical w]
  constructor
  · rintro ⟨⟨a, b, ha, hb, -, -, -, hcanonical⟩, -⟩
    rw [hreadv] at ha
    rw [hreadw] at hb
    cases ha
    cases hb
    exact hcanonical
  · intro hcanonical
    exact ⟨⟨_, _, hreadv, hreadw, displayOf_mono hv hvw, displayOf_accurate hv, displayOf_accurate hw,
      hcanonical⟩, rfl, rfl⟩

theorem faithful_iff_units : Faithful 999 1500000 :=
  (faithful_iff (by decide) (by decide)).mpr (by decide)

/-- 999500 is shown as a thousand thousands. -/
theorem thousand_thousands : formatValuation 999500 = "$1000K" ∧ ¬ Faithful 999500 999500 := by
  have htext : formatValuation 999500 = "$1000K" := by decide +kernel
  have hread : read "$1000K" = some ⟨1000, 0, 1000⟩ := by decide +kernel
  refine ⟨htext, fun h => ?_⟩
  obtain ⟨a, -, ha, -, -, -, -, hcanonical, -⟩ := h.shown
  rw [htext, hread] at ha
  cases ha
  have hmantissa := (hcanonical.thousands rfl).2
  norm_num [Display.mantissa] at hmantissa

end NoblePort.Valuation
