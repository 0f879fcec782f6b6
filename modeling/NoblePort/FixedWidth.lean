import Mathlib.Data.Char
import Mathlib.Data.List.Lex
import Mathlib.Data.String.Basic

/-!
# Numbers of fixed width in texts

Zero-padded decimal fields with a separator after each. Texts of one layout are
in order exactly as their numbers are, compared field by field.
-/
namespace FixedWidth

def digit (n : Nat) : Char := Char.ofNat (48 + n)

/-- The last `w` digits of a number. -/
def pad : Nat → Nat → List Char
  | 0, _ => []
  | w + 1, n => digit (n / 10 ^ w) :: pad w (n % 10 ^ w)

/-- The numbers under a layout of widths and separators. -/
def render : List (Nat × Char) → List Nat → List Char
  | (w, sep) :: layout, n :: ns => pad w n ++ sep :: render layout ns
  | _, _ => []

/-- Every number has room in its field. -/
def Fits (layout : List (Nat × Char)) (ns : List Nat) : Prop :=
  List.Forall₂ (fun field n => n < 10 ^ field.1) layout ns

theorem digit_lt_digit : ∀ m < 10, ∀ n < 10, (digit m < digit n ↔ m < n) := by decide

theorem digit_inj : ∀ m < 10, ∀ n < 10, (digit m = digit n ↔ m = n) := by decide

@[simp] theorem length_pad (w n : Nat) : (pad w n).length = w := by
  induction w generalizing n with
  | zero => rfl
  | succ w ih => simp [pad, ih]

theorem div_lt_ten {w n : Nat} (h : n < 10 ^ (w + 1)) : n / 10 ^ w < 10 := by
  rw [Nat.div_lt_iff_lt_mul (Nat.pow_pos (by omega)), ← Nat.pow_succ']
  exact h

theorem lt_iff_div_mod {m n k : Nat} (hk : 0 < k) :
    m < n ↔ m / k < n / k ∨ m / k = n / k ∧ m % k < n % k := by
  have hm := Nat.div_add_mod m k
  have hn := Nat.div_add_mod n k
  have hmk := Nat.mod_lt m hk
  have hnk := Nat.mod_lt n hk
  constructor
  · intro h
    rcases Nat.lt_trichotomy (m / k) (n / k) with hlt | heq | hgt
    · exact .inl hlt
    · rw [heq] at hm
      exact .inr ⟨heq, by omega⟩
    · have hmul : k * (n / k + 1) ≤ k * (m / k) := Nat.mul_le_mul_left k hgt
      rw [Nat.mul_add] at hmul
      omega
  · rintro (hlt | ⟨heq, hlt⟩)
    · have hmul : k * (m / k + 1) ≤ k * (n / k) := Nat.mul_le_mul_left k hlt
      rw [Nat.mul_add] at hmul
      omega
    · rw [heq] at hm
      omega

theorem pad_lt_pad {w m n : Nat} (hm : m < 10 ^ w) (hn : n < 10 ^ w) : pad w m < pad w n ↔ m < n := by
  induction w generalizing m n with
  | zero =>
    simp only [Nat.pow_zero, Nat.lt_one_iff] at hm hn
    simp [pad, hm, hn]
  | succ w ih =>
    have hpos : 0 < 10 ^ w := Nat.pow_pos (by omega)
    rw [pad, pad, List.cons_lt_cons_iff, digit_lt_digit _ (div_lt_ten hm) _ (div_lt_ten hn),
      digit_inj _ (div_lt_ten hm) _ (div_lt_ten hn), ih (Nat.mod_lt _ hpos) (Nat.mod_lt _ hpos),
      ← lt_iff_div_mod hpos]

theorem pad_inj {w m n : Nat} (hm : m < 10 ^ w) (hn : n < 10 ^ w) : pad w m = pad w n ↔ m = n := by
  refine ⟨fun h => ?_, fun h => by rw [h]⟩
  have hle := (pad_lt_pad hm hn).not.mp (by rw [h]; exact lt_irrefl _)
  have hge := (pad_lt_pad hn hm).not.mp (by rw [h]; exact lt_irrefl _)
  omega

theorem append_lt_append {as bs cs ds : List Char} (h : as.length = bs.length) :
    as ++ cs < bs ++ ds ↔ as < bs ∨ as = bs ∧ cs < ds := by
  induction as generalizing bs with
  | nil => cases bs <;> simp at h ⊢
  | cons a as ih => cases bs with
    | nil => simp at h
    | cons b bs =>
      simp only [List.cons_append, List.cons_lt_cons_iff, ih (by simpa using h), List.cons.injEq]
      tauto

/-- Texts of one layout are compared number by number. -/
theorem render_lt_render {layout : List (Nat × Char)} {ms ns : List Nat} (hm : Fits layout ms)
    (hn : Fits layout ns) : render layout ms < render layout ns ↔ ms < ns := by
  induction hm generalizing ns with
  | nil =>
    cases hn
    simp [render]
  | @cons field m layout ms hfield _ ih =>
    cases hn with
    | @cons _ n _ ns hfield' hrest =>
      obtain ⟨w, sep⟩ := field
      rw [render, render, append_lt_append (by simp), List.cons_lt_cons_iff, List.cons_lt_cons_iff,
        ih hrest, pad_lt_pad hfield hfield', pad_inj hfield hfield']
      simp

theorem render_le_render {layout : List (Nat × Char)} {ms ns : List Nat} (hm : Fits layout ms)
    (hn : Fits layout ns) :
    String.ofList (render layout ms) ≤ String.ofList (render layout ns) ↔ ms ≤ ns := by
  rw [← not_lt, ← not_lt, String.lt_iff_toList_lt, String.toList_ofList, String.toList_ofList,
    render_lt_render hn hm]

end FixedWidth
