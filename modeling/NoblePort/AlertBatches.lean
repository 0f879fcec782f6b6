import NoblePort.Notices

/-!
# Critical alerts in batches

The start, the slice, the number and the total of a batch are computed apart from
each other; together they cover the first 25 critical permits once.
-/
namespace NoblePort.AlertBatches

open Coroutine NoblePort.Permits NoblePort.Notices

/-- The batches of one run. -/
def alertsOf (critical : List Permit) : List Alerts :=
  (Strides.range (min critical.length 25) batchSize).map (alertsFrom critical)

/-- The batches number and show the first 25 permits, each once and in order. -/
structure Covers (critical : List Permit) (alerts : List Alerts) : Prop where
  batches : alerts.flatMap Alerts.batch = critical.take (min critical.length 25)
  sizes : ∀ a ∈ alerts, 1 ≤ a.batch.length ∧ a.batch.length ≤ 5
  totals : ∀ a ∈ alerts, a.totalBatches = alerts.length ∧ a.total = critical.length
  numbers : alerts.map Alerts.batchNum = List.range' 1 alerts.length
  showing : ∀ a ∈ alerts, a.last + 1 = a.first + a.batch.length
  starts_at : ∀ a ∈ alerts.head?, a.first = 1
  contiguous : alerts.IsChain fun a b => b.first = a.last + 1
  ends_at : ∀ a ∈ alerts.getLast?, a.last = min critical.length 25

/-- How many batches there are. -/
def batchCount (n : ℕ) : ℕ := (min n 25 + 4) / 5

section Window

variable (critical : List Permit)

theorem alertsOf_eq :
    alertsOf critical = (List.range (batchCount critical.length)).map fun j => alertsFrom critical (5 * j) := by
  rw [alertsOf, Strides.range_eq (by decide), List.map_map]
  rfl

theorem length_alertsOf : (alertsOf critical).length = batchCount critical.length := by
  simp [alertsOf_eq]

theorem mem_alertsOf {a : Alerts} (ha : a ∈ alertsOf critical) :
    ∃ j < batchCount critical.length, a = alertsFrom critical (5 * j) := by
  rw [alertsOf_eq] at ha
  obtain ⟨j, hj, rfl⟩ := List.mem_map.mp ha
  exact ⟨j, List.mem_range.mp hj, rfl⟩

theorem length_batch (j : ℕ) :
    (alertsFrom critical (5 * j)).batch.length = min (5 * j + 5) critical.length - 5 * j :=
  Strides.length_slice ..

theorem batchNum_alertsFrom (j : ℕ) : (alertsFrom critical (5 * j)).batchNum = 1 + j := by
  change 5 * j / 5 + 1 = 1 + j
  omega

theorem last_alertsFrom (j : ℕ) :
    (alertsFrom critical (5 * j)).last = 5 * j + (min (5 * j + 5) critical.length - 5 * j) := by
  rw [← length_batch]
  rfl

/-- The batches up to the cap make up the window. -/
theorem alertsOf_batches :
    (alertsOf critical).flatMap Alerts.batch = critical.take (min critical.length 25) := by
  have hslices := Strides.flatMap_slice critical 5 (batchCount critical.length)
  rw [alertsOf_eq, List.flatMap_map]
  refine hslices.trans ?_
  unfold batchCount
  rcases Nat.le_total critical.length 25 with h | h
  · rw [List.take_of_length_le (by omega), List.take_of_length_le (by omega)]
  · congr 1
    omega

theorem alertsOf_numbers :
    (alertsOf critical).map Alerts.batchNum = List.range' 1 (alertsOf critical).length := by
  rw [length_alertsOf, alertsOf_eq, List.map_map, List.range'_eq_map_range]
  exact List.map_congr_left fun j _ => batchNum_alertsFrom critical j

/-- Only the last batch is not full, so the next one starts behind it. -/
theorem alertsOf_contiguous : (alertsOf critical).IsChain fun a b => b.first = a.last + 1 := by
  rw [alertsOf_eq, List.isChain_map, List.isChain_range]
  intro j hj
  change 5 * (j + 1) + 1 = (alertsFrom critical (5 * j)).last + 1
  rw [last_alertsFrom]
  unfold batchCount at hj
  omega

theorem alertsOf_starts : ∀ a ∈ (alertsOf critical).head?, a.first = 1 := by
  intro a ha
  rw [alertsOf_eq, List.head?_map] at ha
  obtain ⟨j, hj, rfl⟩ := Option.map_eq_some_iff.mp ha
  rw [List.head?_range] at hj
  split at hj <;> cases hj
  rfl

theorem alertsOf_ends : ∀ a ∈ (alertsOf critical).getLast?, a.last = min critical.length 25 := by
  intro a ha
  rw [alertsOf_eq, List.getLast?_map] at ha
  obtain ⟨j, hj, rfl⟩ := Option.map_eq_some_iff.mp ha
  rw [List.getLast?_range] at hj
  split at hj
  · cases hj
  · cases hj
    rw [last_alertsFrom]
    unfold batchCount at *
    omega

theorem alertsOf_covers : Covers critical (alertsOf critical) where
  batches := alertsOf_batches critical
  sizes a ha := by
    obtain ⟨j, hj, rfl⟩ := mem_alertsOf critical ha
    rw [length_batch]
    unfold batchCount at hj
    omega
  totals a ha := by
    obtain ⟨j, hj, rfl⟩ := mem_alertsOf critical ha
    rw [length_alertsOf]
    exact ⟨rfl, rfl⟩
  numbers := alertsOf_numbers critical
  showing a ha := by
    obtain ⟨j, hj, rfl⟩ := mem_alertsOf critical ha
    rw [last_alertsFrom, length_batch]
    change _ = 5 * j + 1 + _
    omega
  starts_at := alertsOf_starts critical
  contiguous := alertsOf_contiguous critical
  ends_at := alertsOf_ends critical

end Window

section Text

/-- The first line of batch `num` of `total`. -/
def header (num total : ℕ) : String :=
  s!"🔴 *CRITICAL PERMIT ALERTS* — Batch {num}/{total} | Essex County, MA | {today}"

/-- The last line of a batch that shows the permits `first` to `last` of `total`. -/
def footer (first last total : ℕ) : String :=
  s!"_Showing {first}–{last} of {total} critical permits (≥$1M)_"

/-- The text is the header of the batch, its permits one after another, and its footer. -/
def Prints (a : Alerts) (text : String) : Prop :=
  text = header a.batchNum a.totalBatches ++ "\n" ++ rule ++ "\n" ++
    String.join (a.batch.map fun p => alertLine p ++ "\n") ++
    "\n" ++ rule ++ "\n" ++ footer a.first a.last a.total

/-- Lines before two last ones. -/
theorem intercalate_lines (lines : List String) (u v : String) :
    "\n".intercalate (lines ++ [u, v]) = String.join (lines.map (· ++ "\n")) ++ u ++ "\n" ++ v := by
  induction lines with
  | nil => simp
  | cons line lines ih =>
    rw [List.cons_append, String.intercalate_cons_of_ne_nil (by simp), ih, List.map_cons,
      String.join_cons]
    simp only [String.append_assoc]

theorem prints_text (a : Alerts) : Prints a (Message.criticalAlerts a).text := by
  have hlines := intercalate_lines
    (header a.batchNum a.totalBatches :: rule :: a.batch.map alertLine) ("\n" ++ rule)
    (footer a.first a.last a.total)
  simp only [List.map_cons, String.join_cons, List.map_map, Function.comp_def] at hlines
  refine Eq.trans ?_ (hlines.trans ?_)
  · rfl
  · simp only [String.append_assoc]

end Text

end NoblePort.AlertBatches
