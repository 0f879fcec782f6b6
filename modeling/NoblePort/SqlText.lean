import Mathlib.Data.List.Basic
import Mathlib.Data.List.Range
import Mathlib.Tactic.SplitIfs

/-!
# Parameters in statement texts

A statement is a text of single-quoted literals, double-quoted identifiers and
ordinary tokens. One dialect writes a parameter `?` or `?NNN`, the other `$NNN`, and
in both a `$` within a word belongs to the word. Other forms of parameters and of
quoting are no ordinary tokens and are not read as such here.
-/
namespace SqlText

/-- Where a scan stands: outside quotes between words, in a word, in the number of a
parameter, or in quotes. A doubled quote leaves the quotes and enters them again. -/
inductive Mode where
  | space
  | word
  | number
  | literal
  | identifier
  deriving DecidableEq, Repr

def isIdentStart (c : Char) : Bool := c.isAlpha || c = '_' || 128 ≤ c.toNat

namespace Mode

def quoted : Mode → Bool
  | .literal | .identifier => true
  | .space | .word | .number => false

def next (m : Mode) (c : Char) : Mode :=
  match m with
  | .literal => if c = '\'' then .space else .literal
  | .identifier => if c = '"' then .space else .identifier
  | m =>
    if c = '\'' then .literal
    else if c = '"' then .identifier
    else if isIdentStart c then .word
    else if m = .word ∧ (c.isDigit ∨ c = '$') then .word
    else if m = .number ∧ c.isDigit then .number
    else .space

end Mode

/-- What a database reads: a character as it stands, or the parameter of a number.
A parameter that runs into a word is junk. -/
inductive Piece where
  | char (c : Char)
  | param (k : ℕ)
  | junk
  deriving DecidableEq, Repr

def number (digits : List Char) : ℕ := Nat.ofDigitChars 10 digits 0

/-- `?` takes the number after the largest so far, `?NNN` takes its own. -/
def questionPieces : Mode → ℕ → List Char → List Piece
  | _, _, [] => []
  | m, n, c :: cs =>
    if c = '?' ∧ m.quoted = false then
      let digits := cs.takeWhile Char.isDigit
      let k := if digits = [] then n + 1 else number digits
      .param k :: questionPieces .number (max n k) cs
    else if m = .number ∧ c.isDigit then questionPieces .number n cs
    else .char c :: questionPieces (m.next c) n cs

/-- The parameter of a `$` with these characters after it. -/
def dollarParam (cs : List Char) : Piece :=
  if (cs.dropWhile Char.isDigit).head?.any isIdentStart then .junk
  else .param (number (cs.takeWhile Char.isDigit))

def dollarPieces : Mode → List Char → List Piece
  | _, [] => []
  | m, c :: cs =>
    if c = '$' ∧ (m = .space ∨ m = .number) ∧ cs.head?.any Char.isDigit then
      dollarParam cs :: dollarPieces .number cs
    else if m = .number ∧ c.isDigit then dollarPieces .number cs
    else .char c :: dollarPieces (m.next c) cs

section Binding

/-- A place of a statement once the values are there. -/
inductive Bound (α : Type) where
  | char (c : Char)
  | value (v : Option α)
  | junk
  deriving DecidableEq

def Piece.number : Piece → ℕ
  | .param k => k
  | _ => 0

def Piece.bind {α : Type} (params : List α) : Piece → Bound α
  | .char c => .char c
  | .param k => .value (if k = 0 then none else params[k - 1]?)
  | .junk => .junk

/-- How many values the statement takes. -/
def expected (pieces : List Piece) : ℕ := (pieces.map Piece.number).foldr max 0

/-- The values in their places; another number of values than expected is refused. -/
def bind {α : Type} (pieces : List Piece) (params : List α) : Option (List (Bound α)) :=
  if params.length = expected pieces then some (pieces.map (Piece.bind params)) else none

theorem number_le_expected {p : Piece} {pieces : List Piece} (h : p ∈ pieces) :
    p.number ≤ expected pieces := by
  induction pieces with
  | nil => cases h
  | cons p' pieces ih =>
    rw [expected, List.map_cons, List.foldr_cons]
    rcases List.mem_cons.mp h with rfl | h
    · exact le_max_left _ _
    · exact (ih h).trans (le_max_right _ _)

/-- Different values tell the places apart. -/
theorem bind_range_inj {n : ℕ} {p q : Piece} (hp : p.number ≤ n) (hq : q.number ≤ n)
    (h : p.bind (List.range n) = q.bind (List.range n)) : p = q := by
  have hvalue : ∀ k ≤ n, (if k = 0 then none else (List.range n)[k - 1]?) =
      if k = 0 then none else some (k - 1) := by
    intro k hk
    by_cases hzero : k = 0
    · rw [if_pos hzero, if_pos hzero]
    · rw [if_neg hzero, if_neg hzero, List.getElem?_range (by omega)]
  cases p with
  | char c => cases q with
    | char c' =>
      cases h
      rfl
    | param k => cases h
    | junk => cases h
  | junk => cases q with
    | char c' => cases h
    | param k => cases h
    | junk => rfl
  | param k => cases q with
    | char c' => cases h
    | junk => cases h
    | param k' =>
      simp only [Piece.bind, Bound.value.injEq, hvalue k hp, hvalue k' hq] at h
      congr 1
      split_ifs at h
      · omega
      · simp only [Option.some.injEq] at h
        omega

/-- Two readings bind all values alike only if they are the same. -/
theorem bind_eq_iff {ps qs : List Piece} :
    (∀ (α : Type) (params : List α), bind ps params = bind qs params) ↔ ps = qs := by
  constructor
  · intro h
    have hrange := h ℕ (List.range (expected qs))
    have hqs : bind qs (List.range (expected qs)) =
        some (qs.map (Piece.bind (List.range (expected qs)))) := by
      rw [bind, if_pos List.length_range]
    rw [hqs, bind] at hrange
    split at hrange
    · rename_i hlength
      rw [List.length_range] at hlength
      have hmap := Option.some.inj hrange
      refine List.ext_getElem? fun i => ?_
      have hget : ps[i]?.map (Piece.bind (List.range (expected qs))) =
          qs[i]?.map (Piece.bind (List.range (expected qs))) := by
        rw [← List.getElem?_map, hmap, List.getElem?_map]
      cases hp : ps[i]? with
      | none =>
        rw [hp] at hget
        exact (Option.map_eq_none_iff.mp hget.symm).symm
      | some p =>
        rw [hp] at hget
        obtain ⟨q, hq, hbound⟩ := Option.map_eq_some_iff.mp hget.symm
        have hple : p.number ≤ expected qs := by
          rw [hlength]
          exact number_le_expected (List.mem_of_getElem? hp)
        rw [hq, bind_range_inj hple (number_le_expected (List.mem_of_getElem? hq)) hbound.symm]
    · cases hrange
  · rintro rfl α params
    rfl

end Binding

/-- The text with the `k`-th `?` outside quotes as `$k`. -/
def numbered : Mode → ℕ → List Char → List Char
  | _, _, [] => []
  | m, n, c :: cs =>
    if c = '?' ∧ m.quoted = false then '$' :: (n + 1).repr.toList ++ numbered .number (n + 1) cs
    else c :: numbered (m.next c) n cs

/-- No `?` stands in quotes. -/
def unquoted : Mode → List Char → Bool
  | _, [] => true
  | m, c :: cs =>
    if c = '?' then !m.quoted && unquoted .number cs else unquoted (m.next c) cs

/-- Outside quotes a `?` touches no word, neither after nor before it, and no number
after it, and a `$` has a number after it only within a word. -/
def apart : Mode → List Char → Bool
  | _, [] => true
  | m, c :: cs =>
    if c = '?' ∧ m.quoted = false then
      m ≠ .word && !cs.head?.any isIdentStart && !cs.head?.any Char.isDigit && apart .number cs
    else
      !(c = '$' && (m = .space || m = .number) && cs.head?.any Char.isDigit) && apart (m.next c) cs

section Numbered

theorem isDigit_repr (n : ℕ) : ∀ c ∈ n.repr.toList, c.isDigit = true := by
  intro c hc
  rw [Nat.toList_repr] at hc
  exact Nat.isDigit_of_mem_toDigits (by omega) (by omega) hc

theorem number_repr (n : ℕ) : number n.repr.toList = n := by
  rw [number, Nat.toList_repr, Nat.ofDigitChars_ten_toDigits]

/-- Further digits make another number. -/
theorem number_repr_append (n : ℕ) (digits : List Char) (hn : 0 < n) :
    number digits < number (n.repr.toList ++ digits) := by
  have hprefix : Nat.ofDigitChars 10 n.repr.toList 0 = n := number_repr n
  have hsplit : Nat.ofDigitChars 10 digits n = 10 ^ digits.length * n + Nat.ofDigitChars 10 digits 0 :=
    Nat.ofDigitChars_eq_ofDigitChars_zero
  have hpow : 0 < 10 ^ digits.length := Nat.pow_pos (by omega)
  have hpos : 0 < 10 ^ digits.length * n := Nat.mul_pos hpow hn
  rw [number, number, Nat.ofDigitChars_append, hprefix, hsplit]
  omega

/-- The rest of a number gives no piece. -/
theorem dollarPieces_digits {digits : List Char} (h : ∀ c ∈ digits, c.isDigit = true) (cs : List Char) :
    dollarPieces .number (digits ++ cs) = dollarPieces .number cs := by
  induction digits with
  | nil => rfl
  | cons d digits ih =>
    have hd := h d (List.mem_cons_self ..)
    have hdollar : d ≠ '$' := by
      rintro rfl
      cases hd
    rw [List.cons_append, dollarPieces, if_neg fun hc => hdollar hc.1, if_pos ⟨rfl, hd⟩,
      ih fun c hc => h c (List.mem_cons_of_mem _ hc)]

/-- Numbering leaves the character at the front, or puts a `$` for a `?`. -/
theorem head_numbered (p : Char → Bool) (hdollar : p '$' = false) (hplace : p '?' = false)
    (m : Mode) (n : ℕ) (cs : List Char) : (numbered m n cs).head?.any p = cs.head?.any p := by
  cases cs with
  | nil => rfl
  | cons c cs =>
    rw [numbered]
    split
    · rename_i hc
      simp [hc.1, hdollar, hplace]
    · rfl

theorem takeWhile_numbered (m : Mode) (n : ℕ) (cs : List Char) :
    (numbered m n cs).takeWhile Char.isDigit = cs.takeWhile Char.isDigit := by
  induction cs generalizing m n with
  | nil => rfl
  | cons c cs ih =>
    rw [numbered]
    split
    · rename_i hc
      rw [hc.1]
      rfl
    · rw [List.takeWhile_cons, List.takeWhile_cons, ih]

theorem takeWhile_eq_nil {p : Char → Bool} {cs : List Char} :
    cs.takeWhile p = [] ↔ cs.head?.any p = false := by
  cases cs with
  | nil => simp
  | cons c cs => simp [List.takeWhile_cons]

/-- The parameter after a `$` that a placeholder became: its own if no digit and no
word follows, and never the one that SQLite reads otherwise. -/
theorem dollarParam_numbered (n k : ℕ) (cs : List Char) (hk : 0 < k) :
    dollarParam (k.repr.toList ++ numbered .number n cs) =
        .param (if cs.takeWhile Char.isDigit = [] then k else number (cs.takeWhile Char.isDigit)) ↔
      cs.head?.any isIdentStart = false ∧ cs.head?.any Char.isDigit = false := by
  have hdigits := isDigit_repr k
  have htake : (k.repr.toList ++ numbered .number n cs).takeWhile Char.isDigit =
      k.repr.toList ++ cs.takeWhile Char.isDigit := by
    rw [List.takeWhile_append_of_pos hdigits, takeWhile_numbered]
  have hdrop : (k.repr.toList ++ numbered .number n cs).dropWhile Char.isDigit =
      (numbered .number n cs).dropWhile Char.isDigit := List.dropWhile_append_of_pos hdigits
  rw [dollarParam, htake, hdrop]
  by_cases hdigit : cs.head?.any Char.isDigit = true
  · -- the digits of the text come behind those of the number
    have hne : cs.takeWhile Char.isDigit ≠ [] := by
      rw [Ne, takeWhile_eq_nil, hdigit]
      decide
    rw [if_neg hne]
    refine iff_of_false ?_ fun h => by simp [hdigit] at h
    split
    · intro h
      cases h
    · intro h
      have hlt := number_repr_append k (cs.takeWhile Char.isDigit) hk
      rw [← Piece.param.inj h] at hlt
      exact lt_irrefl _ hlt
  · have hdigit : cs.head?.any Char.isDigit = false := by simpa using hdigit
    have hnone : cs.takeWhile Char.isDigit = [] := takeWhile_eq_nil.mpr hdigit
    have hall : (numbered .number n cs).dropWhile Char.isDigit = numbered .number n cs := by
      have hnil := takeWhile_numbered .number n cs
      rw [hnone] at hnil
      have happend := List.takeWhile_append_dropWhile (p := Char.isDigit) (l := numbered .number n cs)
      rwa [hnil] at happend
    rw [hall, head_numbered isIdentStart (by decide) (by decide), hnone, if_pos rfl, List.append_nil,
      number_repr]
    cases hident : cs.head?.any isIdentStart with
    | true => simp
    | false => simp [hdigit]

theorem isIdentStart_digit {c : Char} (h : c.isDigit = true) : isIdentStart c = false := by
  have hdigits : ∀ k < 10, isIdentStart (Char.ofNat (48 + k)) = false := by decide
  have hrange : 48 ≤ c.toNat ∧ c.toNat ≤ 57 := Char.isDigit_iff_toNat.mp h
  obtain ⟨k, hk⟩ := Nat.exists_eq_add_of_le hrange.1
  have hc := hdigits k (by omega)
  rwa [← hk, Char.ofNat_toNat] at hc

theorem next_number {c : Char} (h : c.isDigit = true) : Mode.next .number c = .number := by
  have hquote : c ≠ '\'' := by
    rintro rfl
    cases h
  have hdouble : c ≠ '"' := by
    rintro rfl
    cases h
  simp [Mode.next, hquote, hdouble, isIdentStart_digit h, h]

theorem head_repr (n : ℕ) (cs : List Char) : (n.repr.toList ++ cs).head?.any Char.isDigit = true := by
  cases hrepr : n.repr.toList with
  | nil =>
    rw [Nat.toList_repr] at hrepr
    exact absurd hrepr Nat.toDigits_ne_nil
  | cons d digits =>
    have hd := isDigit_repr n d (by rw [hrepr]; exact List.mem_cons_self ..)
    simpa using hd

/-- A placeholder is read alike if it stands apart, and the rest is. -/
theorem dollarPieces_place {m : Mode} (hm : m.quoted = false) (n : ℕ) (cs : List Char) :
    dollarPieces m (numbered m n ('?' :: cs)) = questionPieces m n ('?' :: cs) ↔
      (m ≠ .word ∧ cs.head?.any isIdentStart = false ∧ cs.head?.any Char.isDigit = false) ∧
        dollarPieces .number (numbered .number (n + 1) cs) = questionPieces .number (n + 1) cs := by
  rw [numbered, if_pos ⟨rfl, hm⟩, questionPieces, if_pos ⟨rfl, hm⟩, List.cons_append, dollarPieces]
  by_cases hword : m = .word
  · -- the `$` belongs to the word before it
    have hno : ¬ (m = .space ∨ m = .number) := by simp [hword]
    rw [if_neg fun hc => hno hc.2.1, if_neg fun hc => hno (.inr hc.1)]
    refine iff_of_false (fun heq => ?_) fun h => h.1.1 hword
    cases (List.cons.inj heq).1
  · have hout : m = .space ∨ m = .number := by
      cases m <;> simp_all [Mode.quoted]
    have hparam := dollarParam_numbered (n + 1) (n + 1) cs (by omega)
    rw [if_pos ⟨rfl, hout, head_repr ..⟩, dollarPieces_digits (isDigit_repr _)]
    dsimp only
    rw [List.cons.injEq, hparam]
    constructor
    · rintro ⟨⟨hident, hdigit⟩, htail⟩
      rw [if_pos (takeWhile_eq_nil.mpr hdigit), max_eq_right (by omega)] at htail
      exact ⟨⟨hword, hident, hdigit⟩, htail⟩
    · rintro ⟨⟨-, hident, hdigit⟩, htail⟩
      rw [if_pos (takeWhile_eq_nil.mpr hdigit), max_eq_right (by omega)]
      exact ⟨⟨hident, hdigit⟩, htail⟩

/-- Any other character is read alike if it does not begin a parameter with a `$`, and the rest is. -/
theorem dollarPieces_char {m : Mode} {c : Char} (hplace : ¬ (c = '?' ∧ m.quoted = false)) (n : ℕ)
    (cs : List Char) : dollarPieces m (numbered m n (c :: cs)) = questionPieces m n (c :: cs) ↔
      ¬ (c = '$' ∧ (m = .space ∨ m = .number) ∧ cs.head?.any Char.isDigit = true) ∧
        dollarPieces (m.next c) (numbered (m.next c) n cs) = questionPieces (m.next c) n cs := by
  have hhead := head_numbered Char.isDigit (by decide) (by decide) (m.next c) n cs
  rw [numbered, if_neg hplace, questionPieces, if_neg hplace, dollarPieces, hhead]
  by_cases hdollar : c = '$' ∧ (m = .space ∨ m = .number) ∧ cs.head?.any Char.isDigit = true
  · rw [if_pos hdollar, if_neg fun hskip => by rw [hdollar.1] at hskip; cases hskip.2]
    refine iff_of_false (fun heq => ?_) fun h => h.1 hdollar
    have hfirst := (List.cons.inj heq).1
    unfold dollarParam at hfirst
    split at hfirst <;> cases hfirst
  · rw [if_neg hdollar, and_iff_right hdollar]
    by_cases hskip : m = .number ∧ c.isDigit = true
    · have hnext : m.next c = .number := by
        rw [hskip.1]
        exact next_number hskip.2
      rw [if_pos hskip, if_pos hskip, hnext]
    · rw [if_neg hskip, if_neg hskip, List.cons.injEq, eq_self_iff_true, true_and]

/-- The two readings of a statement are the same exactly if its parameters stand apart. -/
theorem dollarPieces_numbered (m : Mode) (n : ℕ) (cs : List Char) (h : unquoted m cs = true) :
    dollarPieces m (numbered m n cs) = questionPieces m n cs ↔ apart m cs = true := by
  induction cs generalizing m n with
  | nil => simp [dollarPieces, numbered, questionPieces, apart]
  | cons c cs ih =>
    by_cases hplace : c = '?' ∧ m.quoted = false
    · obtain ⟨rfl, hm⟩ := hplace
      have hrest : unquoted .number cs = true := by simpa [unquoted, hm] using h
      rw [dollarPieces_place hm, ih _ _ hrest, apart, if_pos ⟨rfl, hm⟩]
      simp [and_assoc]
    · have hc : c ≠ '?' := by
        rintro rfl
        have hm : m.quoted = true := by simpa using hplace
        simp [unquoted, hm] at h
      have hrest : unquoted (m.next c) cs = true := by simpa [unquoted, hc] using h
      rw [dollarPieces_char hplace, ih _ _ hrest, apart, if_neg hplace, Bool.and_eq_true,
        Bool.not_eq_true', ← Bool.not_eq_true]
      simp only [Bool.and_eq_true, Bool.or_eq_true, decide_eq_true_eq, and_assoc]

end Numbered

end SqlText
