import NoblePort.SqlText
import NoblePort.Store

/-!
# Placeholders

`_convert_params` of `app/db/connection.py`. The source writes every parameter `?`,
as SQLite reads it; for Postgres the text is rewritten character by character.
-/
namespace NoblePort.Placeholders

open SqlText NoblePort.Store

/-- The loop over the characters, with the count of the `?` so far. -/
def outParts : ℕ → List Char → List String
  | _, [] => []
  | n, ch :: sql =>
    if ch = '?' then ("$" ++ (n + 1).repr) :: outParts (n + 1) sql
    else String.singleton ch :: outParts n sql

def convertParams (dialect : Dialect) (sql : String) : String :=
  if dialect = .postgres ∧ '?' ∈ sql.toList then String.join (outParts 0 sql.toList) else sql

/-- What `execute`, `fetch_one` and `fetch_all` hand to the driver. -/
def handed {α : Type} (dialect : Dialect) (sql : String) (params : List α) : String × List α :=
  (convertParams dialect sql, params)

def read : Dialect → String → List Piece
  | .sqlite, sql => questionPieces .space 0 sql.toList
  | .postgres, sql => dollarPieces .space sql.toList

/-- The statement that runs, the values in their places. -/
def bound {α : Type} (dialect : Dialect) (sql : String) (params : List α) : Option (List (Bound α)) :=
  bind (read dialect (handed dialect sql params).1) (handed dialect sql params).2

/-- Just the `?` outside quotes are replaced, by their numbers, and every value is
bound at the same place in both dialects. -/
structure Agrees (sql : String) : Prop where
  replaced : (convertParams .postgres sql).toList = numbered .space 0 sql.toList
  bound : ∀ (α : Type) (params : List α), bound .postgres sql params = bound .sqlite sql params

/-- Without a `?` the loop would change nothing. -/
theorem outParts_plain (n : ℕ) {sql : List Char} (h : '?' ∉ sql) :
    (outParts n sql).flatMap String.toList = sql := by
  induction sql with
  | nil => rfl
  | cons ch sql ih =>
    rw [List.mem_cons, not_or] at h
    rw [outParts, if_neg (Ne.symm h.1), List.flatMap_cons, ih h.2]
    simp

theorem toList_convertParams (sql : String) :
    (convertParams .postgres sql).toList = (outParts 0 sql.toList).flatMap String.toList := by
  unfold convertParams
  split
  · exact String.toList_join
  · rename_i h
    rw [outParts_plain 0 fun hmem => h ⟨rfl, hmem⟩]

/-- The loop does not see the quotes. -/
theorem outParts_numbered (m : Mode) (n : ℕ) (sql : List Char) :
    (outParts n sql).flatMap String.toList = numbered m n sql ↔ unquoted m sql = true := by
  induction sql generalizing m n with
  | nil => simp [outParts, numbered, unquoted]
  | cons ch sql ih =>
    rw [outParts, numbered, unquoted]
    by_cases hch : ch = '?'
    · have hpart : ("$" ++ (n + 1).repr).toList = '$' :: (n + 1).repr.toList := by simp
      rw [if_pos hch, if_pos hch, List.flatMap_cons, hpart]
      cases hm : m.quoted with
      | true =>
        rw [if_neg (by simp), hch]
        refine iff_of_false (fun heq => ?_) (by simp)
        cases (List.cons.inj heq).1
      | false =>
        rw [if_pos ⟨hch, rfl⟩, List.append_cancel_left_eq, ih .number (n + 1)]
        simp
    · rw [if_neg hch, if_neg hch, if_neg fun h => hch h.1, List.flatMap_cons, String.toList_singleton,
        List.singleton_append, List.cons.injEq, eq_self_iff_true, true_and]
      exact ih _ n

theorem translation_agrees_iff (sql : String) :
    ((convertParams .postgres sql).toList = numbered .space 0 sql.toList ↔
        unquoted .space sql.toList = true) ∧
      (Agrees sql ↔ unquoted .space sql.toList = true ∧ apart .space sql.toList = true) := by
  have hreplaced : (convertParams .postgres sql).toList = numbered .space 0 sql.toList ↔
      unquoted .space sql.toList = true := by
    rw [toList_convertParams]
    exact outParts_numbered .space 0 sql.toList
  have hbound (h : (convertParams .postgres sql).toList = numbered .space 0 sql.toList) :
      (∀ (α : Type) (params : List α), bound .postgres sql params = bound .sqlite sql params) ↔
        apart .space sql.toList = true := by
    have hreads : read .postgres (convertParams .postgres sql) =
        dollarPieces .space (numbered .space 0 sql.toList) := congrArg (dollarPieces .space) h
    have hsqlite : convertParams .sqlite sql = sql := if_neg fun h => by cases h.1
    simp only [bound, handed, hsqlite, hreads]
    rw [← dollarPieces_numbered .space 0 sql.toList (hreplaced.mp h)]
    exact bind_eq_iff
  refine ⟨hreplaced, ?_⟩
  constructor
  · intro h
    exact ⟨hreplaced.mp h.replaced, (hbound h.replaced).mp h.bound⟩
  · rintro ⟨hunquoted, hapart⟩
    have hnumbered := hreplaced.mpr hunquoted
    exact ⟨hnumbered, (hbound hnumbered).mpr hapart⟩

example : convertParams .postgres "VALUES (?, ?, ?::jsonb)" = "VALUES ($1, $2, $3::jsonb)" := by
  decide +kernel

/-- A question mark in a literal is rewritten, and takes the first number. -/
theorem literal_rewritten : convertParams .postgres "SELECT '?', ?" = "SELECT '$1', $2" ∧
    ¬ Agrees "SELECT '?', ?" := by
  refine ⟨by decide +kernel, fun h => ?_⟩
  exact absurd h.replaced (by decide +kernel)

end NoblePort.Placeholders
