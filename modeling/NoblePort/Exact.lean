import Mathlib.Algebra.Order.Round
import Mathlib.Algebra.Order.Floor.Ring
import Mathlib.Data.Int.ConditionallyCompleteOrder
import Mathlib.Tactic.GCongr
import Mathlib.Tactic.Linarith
import Mathlib.Tactic.Ring

/-!
# Rounding and interpolation in exact arithmetic
-/
namespace Exact

variable {K : Type} [Field K] [LinearOrder K]

section Rounding

variable [FloorRing K]

/-- The nearest integer, the even one of two that are equally near. -/
def halfEven (x : K) : ℤ :=
  if Int.fract x < 1 / 2 then ⌊x⌋
  else if 1 / 2 < Int.fract x then ⌊x⌋ + 1
  else if Even ⌊x⌋ then ⌊x⌋ else ⌊x⌋ + 1

theorem floor_le_halfEven (x : K) : ⌊x⌋ ≤ halfEven x := by
  unfold halfEven
  split
  · exact le_rfl
  · split
    · omega
    · split <;> omega

theorem halfEven_le_floor_add_one (x : K) : halfEven x ≤ ⌊x⌋ + 1 := by
  unfold halfEven
  split
  · omega
  · split
    · exact le_rfl
    · split <;> omega

variable [IsStrictOrderedRing K]

theorem halfEven_mono : Monotone (halfEven : K → ℤ) := by
  intro x y hxy
  rcases (Int.floor_le_floor hxy).eq_or_lt with hfloor | hfloor
  · -- within one unit only the fractional parts decide
    have hfract : Int.fract x ≤ Int.fract y := by
      rw [Int.fract, Int.fract, hfloor]
      exact sub_le_sub_right hxy _
    unfold halfEven
    rw [hfloor]
    split
    · exact floor_le_halfEven y
    · rename_i hx
      rw [if_neg fun hy => hx (hfract.trans_lt hy)]
      split
      · rename_i hx
        rw [if_pos (hx.trans_le hfract)]
      · split <;> split <;> omega
  · calc
      halfEven x ≤ ⌊x⌋ + 1 := halfEven_le_floor_add_one x
      _ ≤ ⌊y⌋ := hfloor
      _ ≤ halfEven y := floor_le_halfEven y

/-- The error is half a unit at most. -/
theorem abs_halfEven_sub_le (x : K) : |(halfEven x : K) - x| ≤ 1 / 2 := by
  have hfract : x - ⌊x⌋ = Int.fract x := Int.self_sub_floor x
  have hnonneg := Int.fract_nonneg x
  have hlt := Int.fract_lt_one x
  rw [abs_le]
  unfold halfEven
  split
  · constructor <;> linarith
  · split
    · push_cast
      constructor <;> linarith
    · split <;> push_cast <;> constructor <;> linarith

@[simp] theorem halfEven_intCast (n : ℤ) : halfEven (n : K) = n := by
  simp [halfEven]

@[simp] theorem halfEven_natCast (n : ℕ) : halfEven (n : K) = n := by
  simpa using halfEven_intCast (K := K) n

/-- `round(x, n)`. -/
def roundTo (n : ℕ) (x : K) : K := halfEven (x * 10 ^ n) / 10 ^ n

theorem roundTo_mono (n : ℕ) : Monotone (roundTo n : K → K) := by
  intro x y hxy
  have hscaled : halfEven (x * 10 ^ n) ≤ halfEven (y * 10 ^ n) := halfEven_mono (by gcongr)
  unfold roundTo
  gcongr

end Rounding

section Interpolation

variable [IsStrictOrderedRing K] [FloorSemiring K]

/-- On the line through the points of the sequence next to `x`. -/
def lerp (f : ℕ → K) (x : K) : K := f ⌊x⌋₊ + (f (⌊x⌋₊ + 1) - f ⌊x⌋₊) * (x - ⌊x⌋₊)

@[simp] theorem lerp_natCast (f : ℕ → K) (k : ℕ) : lerp f k = f k := by
  simp [lerp]

omit [IsStrictOrderedRing K] in
theorem lerp_neg (f : ℕ → K) (x : K) : lerp (fun i => -f i) x = -lerp f x := by
  unfold lerp
  ring

/-- The weights of the two points are not negative. -/
theorem lerp_le_lerp {f g : ℕ → K} (h : ∀ i, f i ≤ g i) {x : K} (hx : 0 ≤ x) : lerp f x ≤ lerp g x := by
  have hpart : 0 ≤ x - ⌊x⌋₊ := sub_nonneg.mpr (Nat.floor_le hx)
  have hrest : 0 ≤ 1 - (x - ⌊x⌋₊) := by linarith [Nat.lt_floor_add_one x]
  calc
    lerp f x = (1 - (x - ⌊x⌋₊)) * f ⌊x⌋₊ + (x - ⌊x⌋₊) * f (⌊x⌋₊ + 1) := by unfold lerp; ring
    _ ≤ (1 - (x - ⌊x⌋₊)) * g ⌊x⌋₊ + (x - ⌊x⌋₊) * g (⌊x⌋₊ + 1) := by
      gcongr
      · exact h _
      · exact h _
    _ = lerp g x := by unfold lerp; ring

/-- Read from the other end, the line is the same. -/
theorem lerp_reflect (f : ℕ → K) {m : ℕ} {x : K} (hx : 0 ≤ x) (hm : x ≤ m) :
    lerp (fun i => f (m - i)) x = lerp f (m - x) := by
  have hle := Nat.floor_le hx
  have hlt := Nat.lt_floor_add_one x
  have hfloor : ⌊x⌋₊ ≤ m := Nat.floor_le_of_le hm
  rcases hle.eq_or_lt with heq | hpart
  · rw [← heq, ← Nat.cast_sub hfloor, lerp_natCast, lerp_natCast]
  · -- the two points next to `x` are the two next to `m - x`, in the other order
    have hstep : ⌊x⌋₊ + 1 ≤ m := by
      have hcast : (⌊x⌋₊ : K) < m := hpart.trans_le hm
      exact_mod_cast hcast
    obtain ⟨j, hj⟩ := Nat.exists_eq_add_of_le hstep
    have hm' : (m : K) = ⌊x⌋₊ + 1 + j := by exact_mod_cast hj
    have hfloor' : ⌊(m : K) - x⌋₊ = j := by
      rw [Nat.floor_eq_iff (sub_nonneg.mpr hm), hm']
      constructor <;> linarith
    have hhigh : m - ⌊x⌋₊ = j + 1 := by omega
    have hlow : m - (⌊x⌋₊ + 1) = j := by omega
    simp only [lerp, hfloor', hhigh, hlow]
    rw [hm']
    ring

variable {f : ℕ → K} (hf : Monotone f)

include hf in
theorem floor_le_lerp {x : K} (hx : 0 ≤ x) : f ⌊x⌋₊ ≤ lerp f x := by
  have hslope : 0 ≤ f (⌊x⌋₊ + 1) - f ⌊x⌋₊ := sub_nonneg.mpr (hf (Nat.le_succ _))
  have hpart : 0 ≤ x - ⌊x⌋₊ := sub_nonneg.mpr (Nat.floor_le hx)
  exact le_add_of_nonneg_right (mul_nonneg hslope hpart)

include hf in
theorem lerp_le_floor_add_one (x : K) : lerp f x ≤ f (⌊x⌋₊ + 1) := by
  have hslope : 0 ≤ f (⌊x⌋₊ + 1) - f ⌊x⌋₊ := sub_nonneg.mpr (hf (Nat.le_succ _))
  have hpart : x - ⌊x⌋₊ ≤ 1 := by linarith [Nat.lt_floor_add_one x]
  calc
    lerp f x ≤ f ⌊x⌋₊ + (f (⌊x⌋₊ + 1) - f ⌊x⌋₊) * 1 := by unfold lerp; gcongr
    _ = f (⌊x⌋₊ + 1) := by rw [mul_one, add_sub_cancel]

include hf in
theorem lerp_mono {x y : K} (hx : 0 ≤ x) (hxy : x ≤ y) : lerp f x ≤ lerp f y := by
  rcases (Nat.floor_le_floor hxy).eq_or_lt with hfloor | hfloor
  · have hslope : 0 ≤ f (⌊y⌋₊ + 1) - f ⌊y⌋₊ := sub_nonneg.mpr (hf (Nat.le_succ _))
    unfold lerp
    rw [hfloor]
    gcongr
  · calc
      lerp f x ≤ f (⌊x⌋₊ + 1) := lerp_le_floor_add_one hf x
      _ ≤ f ⌊y⌋₊ := hf hfloor
      _ ≤ lerp f y := floor_le_lerp hf (hx.trans hxy)

include hf in
theorem first_le_lerp {x : K} (hx : 0 ≤ x) : f 0 ≤ lerp f x := by
  have hzero : lerp f (0 : ℕ) = f 0 := lerp_natCast f 0
  rw [← hzero, Nat.cast_zero]
  exact lerp_mono hf le_rfl hx

include hf in
theorem lerp_le_last {m : ℕ} {x : K} (hx : 0 ≤ x) (hm : x ≤ m) : lerp f x ≤ f m := by
  rw [← lerp_natCast f m]
  exact lerp_mono hf hx hm

end Interpolation

end Exact
