import NoblePort.Metrics

/-!
# The percentile as an interpolation

`_percentile` on sorted values: between the end points, monotone in the percentage
and in the values, and the same from either end.
-/
namespace NoblePort.Percentile

open Exact NoblePort.Metrics

/-- The `rank` of a percentage. -/
def rank (vals : List ℚ) (pct : ℚ) : ℚ := pct / 100 * (vals.length - 1)

/-- The indices that a percentage leads to are in range. -/
structure InRange (vals : List ℚ) (pct : ℚ) : Prop where
  low : 0 ≤ ⌊rank vals pct⌋
  high : ⌈rank vals pct⌉ < vals.length
  whole : ⌊rank vals pct⌋ = ⌈rank vals pct⌉ → int (rank vals pct) = ⌊rank vals pct⌋

/-- A percentile of sorted values, at two percentages in order. -/
structure Interpolates (vals : List ℚ) (p q : ℚ) : Prop where
  in_range : InRange vals p ∧ InRange vals q
  bounded : ∃ least low high greatest, index vals 0 = some least ∧ percentile vals p = some low ∧
    percentile vals q = some high ∧ index vals (-1) = some greatest ∧
    least ≤ low ∧ low ≤ high ∧ high ≤ greatest
  endpoints : percentile vals 0 = index vals 0 ∧ percentile vals 100 = index vals (-1)
  pointwise : ∀ vals' : List ℚ, vals'.Pairwise (· ≤ ·) → List.Forall₂ (· ≤ ·) vals vals' →
    ∃ val val', percentile vals p = some val ∧ percentile vals' p = some val' ∧ val ≤ val'
  reflected : percentile (vals.map fun v => -v).reverse p = (percentile vals (100 - p)).map fun v => -v

section Ranks

variable {vals : List ℚ} {pct : ℚ}

theorem length_sub_one (hne : vals ≠ []) : (vals.length : ℚ) - 1 = (vals.length - 1 : ℕ) := by
  have hpos : 1 ≤ vals.length := List.length_pos_of_ne_nil hne
  rw [Nat.cast_sub hpos, Nat.cast_one]

theorem inRange (hne : vals ≠ []) (hlow : 0 ≤ pct) (hhigh : pct ≤ 100) : InRange vals pct := by
  have hpos : 1 ≤ vals.length := List.length_pos_of_ne_nil hne
  have hnonneg : 0 ≤ rank vals pct := by
    rw [rank, length_sub_one hne]
    positivity
  have hle : rank vals pct ≤ (vals.length - 1 : ℕ) := by
    rw [rank, length_sub_one hne]
    exact mul_le_of_le_one_left (Nat.cast_nonneg _) (by linarith)
  refine ⟨Int.floor_nonneg.mpr hnonneg, ?_, fun _ => ?_⟩
  · have hceil : ⌈rank vals pct⌉ ≤ (vals.length - 1 : ℕ) := Int.ceil_le.mpr (by exact_mod_cast hle)
    omega
  · rw [int, if_pos hnonneg]

end Ranks

section Values

variable {vals vals' : List ℚ}

theorem percentile_zero (hne : vals ≠ []) : percentile vals 0 = index vals 0 := by
  have hleast := index_natCast hne (i := 0) (Nat.zero_le _)
  have hzero : lerp (clamped vals) (0 : ℕ) = clamped vals 0 := lerp_natCast _ 0
  rw [Nat.cast_zero] at hleast hzero
  rw [percentile_eq hne le_rfl (by norm_num), zero_div, zero_mul, hzero, hleast]

theorem percentile_hundred (hne : vals ≠ []) : percentile vals 100 = index vals (-1) := by
  rw [percentile_eq hne (by norm_num) le_rfl, div_self (by norm_num), one_mul, lerp_natCast,
    index_neg_one hne]

/-- Lists that are in order value by value are in order as sequences. -/
theorem clamped_le (h : List.Forall₂ (· ≤ ·) vals vals') (i : ℕ) : clamped vals i ≤ clamped vals' i := by
  have hlength := h.length_eq
  by_cases hne : vals = []
  · have hne' : vals' = [] := by
      rw [← List.length_eq_zero_iff, ← hlength, hne, List.length_nil]
    rw [hne, hne']
  · have hpos : 0 < vals.length := List.length_pos_of_ne_nil hne
    have hlt : min i (vals.length - 1) < vals.length := by omega
    rw [clamped, clamped, ← hlength, List.getD_eq_getElem _ _ hlt,
      List.getD_eq_getElem _ _ (by omega)]
    exact List.Forall₂.get h hlt (by omega)

/-- The negated values from the other end. -/
theorem clamped_reflect (hne : vals ≠ []) (i : ℕ) :
    clamped (vals.map fun v => -v).reverse i = -clamped vals (vals.length - 1 - i) := by
  have hpos : 0 < vals.length := List.length_pos_of_ne_nil hne
  have hlt : min i (vals.length - 1) < (vals.map fun v => -v).reverse.length := by
    rw [List.length_reverse, List.length_map]
    omega
  have hmin : vals.length - 1 - min i (vals.length - 1) = vals.length - 1 - i := by omega
  rw [clamped, List.length_reverse, List.length_map, List.getD_eq_getElem _ _ hlt, List.getElem_reverse,
    List.getElem_map, clamped_eq_getElem (by omega)]
  simp only [List.length_map, hmin]

theorem percentile_reflect (hne : vals ≠ []) {p : ℚ} (hlow : 0 ≤ p) (hhigh : p ≤ 100) :
    percentile (vals.map fun v => -v).reverse p = (percentile vals (100 - p)).map fun v => -v := by
  have hne' : (vals.map fun v => -v).reverse ≠ [] := by simpa using hne
  have hlength : (vals.map fun v => -v).reverse.length = vals.length := by simp
  have hrank : (100 - p) / 100 * (vals.length - 1 : ℕ) =
      (vals.length - 1 : ℕ) - p / 100 * (vals.length - 1 : ℕ) := by ring
  have hle : p / 100 * (vals.length - 1 : ℕ) ≤ (vals.length - 1 : ℕ) :=
    mul_le_of_le_one_left (Nat.cast_nonneg _) (by linarith)
  have hclamped : clamped (vals.map fun v => -v).reverse =
      fun i => -clamped vals (vals.length - 1 - i) := by
    funext i
    exact clamped_reflect hne i
  rw [percentile_eq hne' hlow hhigh, percentile_eq hne (by linarith) (by linarith), hlength, hclamped,
    lerp_neg, lerp_reflect _ (by positivity) hle, hrank, Option.map_some]

end Values

theorem percentile_interpolates {vals : List ℚ} (hne : vals ≠ []) (hsorted : vals.Pairwise (· ≤ ·))
    {p q : ℚ} (hp : 0 ≤ p) (hpq : p ≤ q) (hq : q ≤ 100) : Interpolates vals p q := by
  have hmono := clamped_mono hsorted
  have hlen : (0 : ℚ) ≤ (vals.length - 1 : ℕ) := Nat.cast_nonneg _
  have hnonneg : 0 ≤ q := hp.trans hpq
  constructor
  · exact ⟨inRange hne hp (hpq.trans hq), inRange hne (hp.trans hpq) hq⟩
  · refine ⟨_, _, _, _, index_natCast hne (i := 0) (Nat.zero_le _), percentile_eq hne hp (hpq.trans hq),
      percentile_eq hne (hp.trans hpq) hq, index_neg_one hne, ?_, ?_, ?_⟩
    · exact first_le_lerp hmono (by positivity)
    · exact lerp_mono hmono (by positivity) (by gcongr)
    · exact lerp_le_last hmono (by positivity) (mul_le_of_le_one_left hlen (by linarith))
  · exact ⟨percentile_zero hne, percentile_hundred hne⟩
  · intro vals' _ hle
    have hne' : vals' ≠ [] := by
      rw [← List.length_pos_iff, ← hle.length_eq]
      exact List.length_pos_of_ne_nil hne
    refine ⟨_, _, percentile_eq hne hp (hpq.trans hq), percentile_eq hne' hp (hpq.trans hq), ?_⟩
    rw [← hle.length_eq]
    exact lerp_le_lerp (clamped_le hle) (by positivity)
  · exact percentile_reflect hne hp (hpq.trans hq)

theorem percentile_interpolates_quartiles : Interpolates [10, 20, 40] 25 75 :=
  percentile_interpolates (by decide) (by decide) (by norm_num) (by norm_num) (by norm_num)

end NoblePort.Percentile
