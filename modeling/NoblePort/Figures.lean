import Mathlib.Data.List.Basic

/-!
# Numbers read off the end of a text

A text that closes with a number and a fixed ending tells the number; one that
closes otherwise tells none.
-/
namespace Figures

/-- The number whose digits stand right before the ending `tail`. -/
def before (tail text : List Char) : Option Nat :=
  if tail <:+ text then
    some (Nat.ofDigitChars 10
      ((text.take (text.length - tail.length)).reverse.takeWhile Char.isDigit).reverse 0)
  else none

/-- The digits at the end of a text, with `sep` before them. -/
theorem takeWhile_digits (front sep : List Char)
    (hsep : (sep.getLast?.any fun c => !c.isDigit) = true) (n : Nat) :
    (front ++ (sep ++ Nat.toDigits 10 n)).reverse.takeWhile Char.isDigit = (Nat.toDigits 10 n).reverse := by
  have hdigits : ∀ c ∈ (Nat.toDigits 10 n).reverse, c.isDigit = true := by
    intro c hc
    exact Nat.isDigit_of_mem_toDigits (by decide) (by decide) (List.mem_reverse.mp hc)
  have hstop : (sep.reverse ++ front.reverse).takeWhile Char.isDigit = [] := by
    rw [← List.head?_reverse] at hsep
    cases hr : sep.reverse with
    | nil => simp [hr] at hsep
    | cons c cs =>
      rw [hr] at hsep
      rw [List.cons_append, List.takeWhile_cons_of_neg (by simpa using hsep)]
  rw [List.reverse_append, List.reverse_append, List.append_assoc, List.takeWhile_append_of_pos hdigits,
    hstop, List.append_nil]

theorem before_digits (front sep : List Char)
    (hsep : (sep.getLast?.any fun c => !c.isDigit) = true) (n : Nat) (tail : List Char) :
    before tail (front ++ (sep ++ (Nat.toDigits 10 n ++ tail))) = some n := by
  have htext : front ++ (sep ++ (Nat.toDigits 10 n ++ tail)) =
      front ++ (sep ++ Nat.toDigits 10 n) ++ tail := by
    simp only [List.append_assoc]
  have htake (l : List Char) : (l ++ tail).take ((l ++ tail).length - tail.length) = l := by
    rw [List.length_append, Nat.add_sub_cancel, List.take_left]
  rw [htext, before, if_pos (List.suffix_append _ _), htake, takeWhile_digits front sep hsep,
    List.reverse_reverse, Nat.ofDigitChars_ten_toDigits]

/-- A text with another ending. -/
theorem before_none {tail tail' text : List Char} (h : tail' <:+ text) (hshort : ¬ tail <:+ tail')
    (hlong : ¬ tail' <:+ tail) : before tail text = none := by
  refine if_neg fun htail => ?_
  rcases List.suffix_or_suffix_of_suffix htail h with hsuffix | hsuffix
  · exact hshort hsuffix
  · exact hlong hsuffix

end Figures
