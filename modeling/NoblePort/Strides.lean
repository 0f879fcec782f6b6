import Mathlib.Data.List.Perm.Basic
import Mathlib.Data.List.Range

/-!
# Batches of a list

The starts of a loop that advances by a fixed step, and the slices between them.
-/
namespace Strides

variable {α : Type}

/-- `range(0, stop, step)` -/
def range (stop step : ℕ) : List ℕ := (List.range stop).filter fun i => step ∣ i

/-- `xs[start:stop]` -/
def slice (xs : List α) (start stop : ℕ) : List α := (xs.take stop).drop start

theorem length_slice (xs : List α) (start stop : ℕ) :
    (slice xs start stop).length = min stop xs.length - start := by
  simp [slice]

/-- As many starts as the length divided by the step, rounded up. -/
theorem range_eq {stop step : ℕ} (hstep : 0 < step) :
    range stop step = (List.range ((stop + step - 1) / step)).map (step * ·) := by
  have hmem : ∀ i, i ∈ range stop step ↔ i ∈ (List.range ((stop + step - 1) / step)).map (step * ·) := by
    intro i
    have hlt (k : ℕ) : k < (stop + step - 1) / step ↔ step * k < stop := by
      rw [Nat.lt_div_iff_mul_lt hstep, Nat.mul_comm]
      omega
    simp only [range, List.mem_filter, List.mem_range, decide_eq_true_eq, List.mem_map, hlt]
    constructor
    · rintro ⟨hi, k, rfl⟩
      exact ⟨k, hi, rfl⟩
    · rintro ⟨k, hk, rfl⟩
      exact ⟨hk, k, rfl⟩
  have hsorted : (range stop step).Pairwise (· < ·) := List.pairwise_lt_range.filter _
  have hsorted' : ((List.range ((stop + step - 1) / step)).map (step * ·)).Pairwise (· < ·) :=
    List.pairwise_lt_range.map _ fun a b hab => Nat.mul_lt_mul_of_pos_left hab hstep
  have hperm := (List.perm_ext_iff_of_nodup (hsorted.imp Nat.ne_of_lt) (hsorted'.imp Nat.ne_of_lt)).mpr hmem
  exact hperm.eq_of_pairwise (fun a b _ _ hab hba => (Nat.lt_asymm hab hba).elim) hsorted hsorted'

/-- Consecutive slices of one length make up a prefix. -/
theorem flatMap_slice (xs : List α) (step k : ℕ) :
    (List.range k).flatMap (fun j => slice xs (step * j) (step * j + step)) = xs.take (step * k) := by
  induction k with
  | zero => simp
  | succ k ih =>
    have hprefix : xs.take (step * k) = (xs.take (step * k + step)).take (step * k) := by
      rw [List.take_take, Nat.min_eq_left (Nat.le_add_right _ _)]
    rw [List.range_succ, List.flatMap_append, ih, List.flatMap_singleton, slice, hprefix,
      List.take_append_drop, Nat.mul_succ]

end Strides
