import NoblePort.Values

/-!
# The text of JSON

`json.dumps` with `ensure_ascii` writes a tree, and `json.loads` reads one. A
lone surrogate, which no string of the model holds, is not read.
-/
namespace NoblePort.JsonText

open NoblePort.Values

section Write

/-- Four hexadecimal digits after a backslash and `u`. -/
def codeUnit (n : Nat) : List Char :=
  '\\' :: 'u' :: [n / 4096 % 16, n / 256 % 16, n / 16 % 16, n % 16].map Nat.digitChar

/-- The code units of a character in UTF-16. -/
def codeUnits (c : Char) : List Nat :=
  if c.toNat < 0x10000 then [c.toNat]
  else [0xd800 + (c.toNat - 0x10000) / 0x400, 0xdc00 + (c.toNat - 0x10000) % 0x400]

def escape (c : Char) : List Char :=
  match c with
  | '"' => ['\\', '"']
  | '\\' => ['\\', '\\']
  | '\n' => ['\\', 'n']
  | '\r' => ['\\', 'r']
  | '\t' => ['\\', 't']
  | '\x0c' => ['\\', 'f']
  | '\x08' => ['\\', 'b']
  | c => if ' ' ≤ c ∧ c ≤ '~' then [c] else (codeUnits c).flatMap codeUnit

def quote (s : String) : List Char := '"' :: (s.toList.flatMap escape ++ ['"'])

mutual

def spell : Json → List Char
  | .null => ['n', 'u', 'l', 'l']
  | .bool true => ['t', 'r', 'u', 'e']
  | .bool false => ['f', 'a', 'l', 's', 'e']
  | .int i => (toString i).toList
  | .float x => x.text.toList
  | .str s => quote s
  | .arr [] => ['[', ']']
  | .arr (x :: xs) => '[' :: (spell x ++ spellElements xs)
  | .obj [] => ['\x7b', '\x7d']
  | .obj ((k, v) :: fields) => '\x7b' :: (quote k ++ (':' :: ' ' :: (spell v ++ spellMembers fields)))

def spellElements : List Json → List Char
  | [] => [']']
  | x :: xs => ',' :: ' ' :: (spell x ++ spellElements xs)

def spellMembers : JsonObject → List Char
  | [] => ['\x7d']
  | (k, v) :: fields => ',' :: ' ' :: (quote k ++ (':' :: ' ' :: (spell v ++ spellMembers fields)))

end

end Write

section Read

def isSpace (c : Char) : Bool := c = ' ' || c = '\t' || c = '\n' || c = '\r'

def skip (cs : List Char) : List Char := cs.dropWhile isSpace

def hexDigit (c : Char) : Option Nat :=
  if c.isDigit then some (c.toNat - '0'.toNat)
  else if 'a' ≤ c ∧ c ≤ 'f' then some (c.toNat - 'a'.toNat + 10)
  else if 'A' ≤ c ∧ c ≤ 'F' then some (c.toNat - 'A'.toNat + 10)
  else none

def readCodeUnit (a b c d : Char) : Option Nat := do
  let a ← hexDigit a
  let b ← hexDigit b
  let c ← hexDigit c
  let d ← hexDigit d
  return 4096 * a + 256 * b + 16 * c + d

def backslash : Char → Option Char
  | '"' => some '"'
  | '\\' => some '\\'
  | '/' => some '/'
  | 'b' => some '\x08'
  | 'f' => some '\x0c'
  | 'n' => some '\n'
  | 'r' => some '\r'
  | 't' => some '\t'
  | _ => none

def prepend (n : Nat) (r : Option (List Nat × List Char)) : Option (List Nat × List Char) :=
  r.map fun p => (n :: p.1, p.2)

/-- The code units up to the closing quote, and what follows it. -/
def readUnits : List Char → Option (List Nat × List Char)
  | [] => none
  | '"' :: cs => some ([], cs)
  | '\\' :: 'u' :: a :: b :: c :: d :: cs =>
    (readCodeUnit a b c d).bind fun n => prepend n (readUnits cs)
  | '\\' :: c :: cs => (backslash c).bind fun c => prepend c.toNat (readUnits cs)
  | c :: cs => if c.toNat < 32 then none else prepend c.toNat (readUnits cs)

def isHigh (n : Nat) : Bool := 0xd800 ≤ n && n ≤ 0xdbff

def isLow (n : Nat) : Bool := 0xdc00 ≤ n && n ≤ 0xdfff

/-- A lone surrogate is no character. -/
def join : List Nat → Option (List Char)
  | [] => some []
  | [n] => if isHigh n || isLow n then none else some [Char.ofNat n]
  | n :: m :: units =>
    if isHigh n then
      if isLow m then (join units).map (Char.ofNat (0x10000 + (0x400 * (n - 0xd800) + (m - 0xdc00))) :: ·)
      else none
    else if isLow n then none
    else (join (m :: units)).map (Char.ofNat n :: ·)

/-- The string behind an opening quote. -/
def readString (cs : List Char) : Option (String × List Char) := do
  let (units, rest) ← readUnits cs
  let s ← join units
  return (String.ofList s, rest)

def scanWhole : List Char → Option (List Char × List Char)
  | [] => none
  | '0' :: cs => some (['0'], cs)
  | c :: cs =>
    if c.isDigit then some (c :: cs.takeWhile Char.isDigit, cs.dropWhile Char.isDigit) else none

def scanInteger : List Char → Option (List Char × List Char)
  | '-' :: cs => (scanWhole cs).map fun p => ('-' :: p.1, p.2)
  | cs => scanWhole cs

def scanFraction : List Char → List Char × List Char
  | '.' :: cs =>
    if cs.takeWhile Char.isDigit = [] then ([], '.' :: cs)
    else ('.' :: cs.takeWhile Char.isDigit, cs.dropWhile Char.isDigit)
  | cs => ([], cs)

def scanSign : List Char → List Char × List Char
  | '+' :: cs => (['+'], cs)
  | '-' :: cs => (['-'], cs)
  | cs => ([], cs)

def scanExponent : List Char → List Char × List Char
  | [] => ([], [])
  | c :: cs =>
    let p := scanSign cs
    if (c = 'e' ∨ c = 'E') ∧ p.2.takeWhile Char.isDigit ≠ [] then
      (c :: (p.1 ++ p.2.takeWhile Char.isDigit), p.2.dropWhile Char.isDigit)
    else ([], c :: cs)

def toInt : List Char → Int
  | '-' :: ds => -(Nat.ofDigitChars 10 ds 0 : Nat)
  | ds => (Nat.ofDigitChars 10 ds 0 : Nat)

variable (float : String → PyFloat)

/-- A number with neither a fraction nor an exponent is an int; `float` is
Python's on the text of the others. -/
def readNumber (cs : List Char) : Option (Json × List Char) := do
  let (integer, rest) ← scanInteger cs
  let (fraction, rest) := scanFraction rest
  let (exponent, rest) := scanExponent rest
  if fraction = [] ∧ exponent = [] then return (.int (toInt integer), rest)
  else return (.float (float (String.ofList (integer ++ fraction ++ exponent))), rest)

/-- The constants, among them three that are no JSON. -/
def readConstant : List Char → Option (Json × List Char)
  | 'n' :: 'u' :: 'l' :: 'l' :: cs => some (.null, cs)
  | 't' :: 'r' :: 'u' :: 'e' :: cs => some (.bool true, cs)
  | 'f' :: 'a' :: 'l' :: 's' :: 'e' :: cs => some (.bool false, cs)
  | 'N' :: 'a' :: 'N' :: cs => some (.float .nan, cs)
  | 'I' :: 'n' :: 'f' :: 'i' :: 'n' :: 'i' :: 't' :: 'y' :: cs => some (.float .inf, cs)
  | '-' :: 'I' :: 'n' :: 'f' :: 'i' :: 'n' :: 'i' :: 't' :: 'y' :: cs => some (.float .negInf, cs)
  | _ => none

/-- `dict(pairs)`: the last value of a key, at the place of its first one. -/
def setField (fields : JsonObject) (k : String) (v : Json) : JsonObject :=
  if k ∈ fields.map Prod.fst then fields.map fun field => if field.1 = k then (k, v) else field
  else fields ++ [(k, v)]

def ofPairs (pairs : JsonObject) : JsonObject :=
  pairs.foldl (fun fields pair => setField fields pair.1 pair.2) []

mutual

/-- `scan_once`, with so many calls left. -/
def readValue : Nat → List Char → Option (Json × List Char)
  | 0, _ => none
  | n + 1, cs =>
    match cs with
    | '"' :: cs => (readString cs).map fun p => (.str p.1, p.2)
    | '[' :: cs =>
      match skip cs with
      | ']' :: rest => some (.arr [], rest)
      | cs => (readElements n cs).map fun p => (.arr p.1, p.2)
    | '\x7b' :: cs =>
      match skip cs with
      | '\x7d' :: rest => some (.obj [], rest)
      | cs => (readMembers n cs).map fun p => (.obj (ofPairs p.1), p.2)
    | cs => (readNumber float cs).or (readConstant cs)

def readElements : Nat → List Char → Option (List Json × List Char)
  | 0, _ => none
  | n + 1, cs => do
    let (x, rest) ← readValue n cs
    match skip rest with
    | ']' :: rest => return ([x], rest)
    | ',' :: rest => do
      let (xs, rest) ← readElements n (skip rest)
      return (x :: xs, rest)
    | _ => none

def readMembers : Nat → List Char → Option (JsonObject × List Char)
  | 0, _ => none
  | n + 1, '"' :: cs => do
    let (k, rest) ← readString cs
    match skip rest with
    | ':' :: rest => do
      let (v, rest) ← readValue n (skip rest)
      match skip rest with
      | '\x7d' :: rest => return ([(k, v)], rest)
      | ',' :: rest => do
        let (fields, rest) ← readMembers n (skip rest)
        return ((k, v) :: fields, rest)
      | _ => none
    | _ => none
  | _ + 1, _ => none

end

/-- `json.loads`. -/
def read (text : String) : Option Json := do
  let cs := skip text.toList
  let (j, rest) ← readValue float (2 * cs.length) cs
  guard (skip rest = [])
  return j

end Read

section Strings

theorem hexDigit_digitChar : ∀ n < 16, hexDigit (Nat.digitChar n) = some n := by decide

theorem readCodeUnit_digits {n : Nat} (h : n < 0x10000) :
    readCodeUnit (Nat.digitChar (n / 4096 % 16)) (Nat.digitChar (n / 256 % 16))
      (Nat.digitChar (n / 16 % 16)) (Nat.digitChar (n % 16)) = some n := by
  have hdigit (m : Nat) : hexDigit (Nat.digitChar (m % 16)) = some (m % 16) :=
    hexDigit_digitChar _ (Nat.mod_lt _ (by omega))
  simp only [readCodeUnit, hdigit, Option.bind_eq_bind, Option.bind_some, Option.pure_def, Option.some.injEq]
  omega

theorem readUnits_codeUnit {n : Nat} (h : n < 0x10000) (cs : List Char) :
    readUnits (codeUnit n ++ cs) = prepend n (readUnits cs) := by
  simp only [codeUnit, List.map_cons, List.map_nil, List.cons_append, List.nil_append, readUnits,
    readCodeUnit_digits h, Option.bind_some]

theorem readUnits_codeUnits (ns : List Nat) (h : ∀ n ∈ ns, n < 0x10000) (cs : List Char) :
    readUnits (ns.flatMap codeUnit ++ cs) = ns.foldr prepend (readUnits cs) := by
  induction ns with
  | nil => rfl
  | cons n ns ih =>
    rw [List.flatMap_cons, List.append_assoc, readUnits_codeUnit (h n (List.mem_cons_self ..)),
      ih fun m hm => h m (List.mem_cons_of_mem _ hm)]
    rfl

/-- No character is a surrogate. -/
theorem toNat_valid (c : Char) : c.toNat < 0xd800 ∨ 0xdfff < c.toNat ∧ c.toNat < 0x110000 := c.valid

theorem codeUnits_lt (c : Char) : ∀ n ∈ codeUnits c, n < 0x10000 := by
  have hc := toNat_valid c
  unfold codeUnits
  split
  · simpa
  · simp only [List.mem_cons, List.not_mem_nil, or_false, forall_eq_or_imp, forall_eq]
    omega

theorem readUnits_plain {c : Char} (hquote : c ≠ '"') (hback : c ≠ '\\') (hc : ' ' ≤ c ∧ c ≤ '~')
    (cs : List Char) : readUnits (c :: cs) = (codeUnits c).foldr prepend (readUnits cs) := by
  have hlow : 32 ≤ c.toNat := UInt32.le_iff_toNat_le.mp hc.1
  have hhigh : c.toNat ≤ 126 := UInt32.le_iff_toNat_le.mp hc.2
  rw [readUnits, if_neg (by omega), codeUnits, if_pos (by omega)]
  · rfl
  · exact hquote
  · exact fun _ _ _ _ _ h _ => hback h
  · exact fun _ _ h _ => hback h

/-- What is written for a character reads as its code units. -/
theorem readUnits_escape (c : Char) (cs : List Char) :
    readUnits (escape c ++ cs) = (codeUnits c).foldr prepend (readUnits cs) := by
  unfold escape
  split
  · rfl
  · rfl
  · rfl
  · rfl
  · rfl
  · rfl
  · rfl
  · rename_i hquote hback _ _ _ _ _
    split
    · rename_i hc
      exact readUnits_plain hquote hback hc cs
    · exact readUnits_codeUnits _ (codeUnits_lt c) cs

theorem foldr_prepend (ns units : List Nat) (rest : List Char) :
    ns.foldr prepend (some (units, rest)) = some (ns ++ units, rest) := by
  induction ns with
  | nil => rfl
  | cons n ns ih =>
    rw [List.foldr_cons, ih]
    rfl

theorem readUnits_quoted (cs rest : List Char) :
    readUnits (cs.flatMap escape ++ '"' :: rest) = some (cs.flatMap codeUnits, rest) := by
  induction cs with
  | nil => rfl
  | cons c cs ih =>
    rw [List.flatMap_cons, List.append_assoc, readUnits_escape, ih, foldr_prepend, List.flatMap_cons]

/-- The code units of a character join to it. -/
theorem join_codeUnits (c : Char) (units : List Nat) :
    join (codeUnits c ++ units) = (join units).map (c :: ·) := by
  have hc := toNat_valid c
  unfold codeUnits
  split
  · have hhigh : isHigh c.toNat = false := by
      simp only [isHigh, Bool.and_eq_false_iff, decide_eq_false_iff_not]
      omega
    have hlow : isLow c.toNat = false := by
      simp only [isLow, Bool.and_eq_false_iff, decide_eq_false_iff_not]
      omega
    cases units <;> simp [join, hhigh, hlow, Char.ofNat_toNat]
  · have hhigh : isHigh (0xd800 + (c.toNat - 0x10000) / 0x400) = true := by
      simp only [isHigh, Bool.and_eq_true, decide_eq_true_eq]
      omega
    have hlow : isLow (0xdc00 + (c.toNat - 0x10000) % 0x400) = true := by
      simp only [isLow, Bool.and_eq_true, decide_eq_true_eq]
      omega
    have hcode : 0x10000 + (0x400 * (0xd800 + (c.toNat - 0x10000) / 0x400 - 0xd800) +
        (0xdc00 + (c.toNat - 0x10000) % 0x400 - 0xdc00)) = c.toNat := by omega
    simp only [List.cons_append, List.nil_append, join, hhigh, hlow, if_true, hcode, Char.ofNat_toNat]

theorem join_flatMap (cs : List Char) : join (cs.flatMap codeUnits) = some cs := by
  induction cs with
  | nil => rfl
  | cons c cs ih =>
    rw [List.flatMap_cons, join_codeUnits, ih]
    rfl

/-- Reading a quoted string gives the string. -/
theorem readString_quote (s : String) (rest : List Char) :
    readString (s.toList.flatMap escape ++ '"' :: rest) = some (s, rest) := by
  simp only [readString, readUnits_quoted, Option.bind_eq_bind, Option.bind_some, join_flatMap,
    Option.pure_def, String.ofList_toList]

end Strings

section Numbers

def AllDigits (ds : List Char) : Prop := ∀ c ∈ ds, c.isDigit = true

inductive Whole : List Char → Prop
  | zero : Whole ['0']
  | digits (c : Char) (ds : List Char) : c.isDigit = true → c ≠ '0' → AllDigits ds → Whole (c :: ds)

inductive Integer : List Char → Prop
  | plain {ds : List Char} : Whole ds → Integer ds
  | minus {ds : List Char} : Whole ds → Integer ('-' :: ds)

inductive Fraction : List Char → Prop
  | none : Fraction []
  | digits (ds : List Char) : ds ≠ [] → AllDigits ds → Fraction ('.' :: ds)

inductive Exponent : List Char → Prop
  | none : Exponent []
  | digits (e : Char) (sign ds : List Char) : e = 'e' ∨ e = 'E' → sign ∈ [[], ['+'], ['-']] →
      ds ≠ [] → AllDigits ds → Exponent (e :: (sign ++ ds))

/-- What follows a value in a text. -/
def Stops (cs : List Char) : Prop := ∀ c ∈ cs.head?, c ∈ [',', ']', '\x7d']

def NoDigit (cs : List Char) : Prop := ∀ c ∈ cs.head?, c.isDigit = false

theorem Stops.noDigit {cs : List Char} (h : Stops cs) : NoDigit cs := by
  intro c hc
  have hmem := h c hc
  simp only [List.mem_cons, List.not_mem_nil, or_false] at hmem
  rcases hmem with rfl | rfl | rfl <;> rfl

theorem scanDigits {ds rest : List Char} (hds : AllDigits ds) (hrest : NoDigit rest) :
    (ds ++ rest).takeWhile Char.isDigit = ds ∧ (ds ++ rest).dropWhile Char.isDigit = rest := by
  rw [List.takeWhile_append_of_pos hds, List.dropWhile_append_of_pos hds]
  cases rest with
  | nil => simp
  | cons c rest =>
    have hc : c.isDigit = false := hrest c rfl
    simp [hc]

theorem scanWhole_append {ds rest : List Char} (h : Whole ds) (hrest : NoDigit rest) :
    scanWhole (ds ++ rest) = some (ds, rest) := by
  cases h with
  | zero => rfl
  | digits c ds hc hzero hds =>
    obtain ⟨htake, hdrop⟩ := scanDigits hds hrest
    rw [List.cons_append, scanWhole, if_pos hc, htake, hdrop]
    exact hzero

theorem Whole.digit {ds : List Char} (h : Whole ds) : ∃ c cs, ds = c :: cs ∧ c.isDigit = true := by
  cases h with
  | zero => exact ⟨'0', [], rfl, rfl⟩
  | digits c ds hc => exact ⟨c, ds, rfl, hc⟩

theorem scanInteger_append {ds rest : List Char} (h : Integer ds) (hrest : NoDigit rest) :
    scanInteger (ds ++ rest) = some (ds, rest) := by
  cases h with
  | plain h =>
    obtain ⟨c, cs, rfl, hc⟩ := h.digit
    rw [List.cons_append, scanInteger]
    · exact scanWhole_append h hrest
    · rintro cs ⟨⟩
      cases hc
  | minus h => simp only [List.cons_append, scanInteger, scanWhole_append h hrest, Option.map_some]

theorem scanFraction_append {ds rest : List Char} (h : Fraction ds) (hrest : NoDigit rest)
    (hdot : rest.head? ≠ some '.') : scanFraction (ds ++ rest) = (ds, rest) := by
  cases h with
  | none =>
    rw [List.nil_append, scanFraction]
    rintro cs rfl
    exact hdot rfl
  | digits ds hne hds =>
    obtain ⟨htake, hdrop⟩ := scanDigits hds hrest
    rw [List.cons_append, scanFraction, htake, hdrop, if_neg hne]

theorem scanSign_append {sign ds : List Char} (h : sign ∈ [[], ['+'], ['-']]) (hne : ds ≠ [])
    (hds : AllDigits ds) (rest : List Char) : scanSign (sign ++ (ds ++ rest)) = (sign, ds ++ rest) := by
  simp only [List.mem_cons, List.not_mem_nil, or_false] at h
  rcases h with rfl | rfl | rfl
  · obtain ⟨c, cs, rfl⟩ := List.exists_cons_of_ne_nil hne
    have hc := hds c (List.mem_cons_self ..)
    rw [List.nil_append, List.cons_append, scanSign]
    · rintro cs ⟨⟩
      cases hc
    · rintro cs ⟨⟩
      cases hc
  · rfl
  · rfl

theorem scanExponent_append {es rest : List Char} (h : Exponent es) (hrest : Stops rest) :
    scanExponent (es ++ rest) = (es, rest) := by
  cases h with
  | none =>
    cases rest with
    | nil => rfl
    | cons c rest =>
      have hmem := hrest c rfl
      rw [List.nil_append, scanExponent, if_neg]
      rintro ⟨rfl | rfl, _⟩ <;> simp at hmem
  | digits e sign ds he hsign hne hds =>
    obtain ⟨htake, hdrop⟩ := scanDigits hds hrest.noDigit
    rw [List.cons_append, List.append_assoc, scanExponent, scanSign_append hsign hne hds]
    simp only [htake, hdrop]
    rw [if_pos ⟨he, hne⟩]

theorem Exponent.head {es rest : List Char} (h : Exponent es) (hrest : Stops rest) :
    NoDigit (es ++ rest) ∧ (es ++ rest).head? ≠ some '.' := by
  cases h with
  | none =>
    refine ⟨hrest.noDigit, fun hdot => ?_⟩
    have hmem := hrest '.' hdot
    simp at hmem
  | digits e sign ds he =>
    constructor
    · rintro c ⟨⟩
      rcases he with rfl | rfl <;> rfl
    · rintro ⟨⟩
      rcases he with h | h <;> cases h

theorem Fraction.head {fs rest : List Char} (h : Fraction fs) (hrest : NoDigit rest) :
    NoDigit (fs ++ rest) := by
  cases h with
  | none => exact hrest
  | digits ds =>
    rintro c ⟨⟩
    rfl

variable {float : String → PyFloat}

/-- A numeral is read as a whole. -/
theorem readNumber_append {is fs es rest : List Char} (hi : Integer is) (hf : Fraction fs) (he : Exponent es)
    (hrest : Stops rest) : readNumber float (is ++ (fs ++ (es ++ rest))) =
      some (if fs = [] ∧ es = [] then .int (toInt is) else .float (float (String.ofList (is ++ fs ++ es))),
        rest) := by
  obtain ⟨hdigit, hdot⟩ := he.head hrest
  simp only [readNumber, scanInteger_append hi (hf.head hdigit), scanFraction_append hf hdigit hdot,
    scanExponent_append he hrest, Option.bind_eq_bind, Option.bind_some, Option.pure_def]
  split <;> rfl

theorem digitChar_pos : ∀ n < 10, n ≠ 0 → (Nat.digitChar n).isDigit = true ∧ Nat.digitChar n ≠ '0' := by decide

theorem toDigits_pos {n : Nat} (h : n ≠ 0) :
    ∃ c ds, Nat.toDigits 10 n = c :: ds ∧ c.isDigit = true ∧ c ≠ '0' := by
  induction n using Nat.strongRecOn with
  | ind n ih =>
    by_cases hn : n < 10
    · obtain ⟨hdigit, hzero⟩ := digitChar_pos n hn h
      exact ⟨_, [], Nat.toDigits_of_lt_base hn, hdigit, hzero⟩
    · obtain ⟨c, ds, hds, hc⟩ := ih (n / 10) (by omega) (by omega)
      refine ⟨c, ds ++ [Nat.digitChar (n % 10)], ?_, hc⟩
      rw [Nat.toDigits_of_base_le (by omega) (by omega), hds, List.cons_append]

/-- A number is written without leading zeros. -/
theorem whole_toDigits (n : Nat) : Whole (Nat.toDigits 10 n) := by
  have hdigits : AllDigits (Nat.toDigits 10 n) := fun c hc =>
    Nat.isDigit_of_mem_toDigits (by omega) (by omega) hc
  by_cases hn : n = 0
  · subst hn
    exact .zero
  · obtain ⟨c, ds, hds, hc, hzero⟩ := toDigits_pos hn
    rw [hds] at hdigits ⊢
    exact .digits c ds hc hzero fun d hd => hdigits d (List.mem_cons_of_mem _ hd)

theorem toInt_plain {ds : List Char} (h : Whole ds) : toInt ds = (Nat.ofDigitChars 10 ds 0 : Nat) := by
  obtain ⟨c, cs, rfl, hc⟩ := h.digit
  rw [toInt]
  rintro cs ⟨⟩
  cases hc

/-- The text of an int is a numeral, and it is that of the int. -/
theorem integer_toString (i : Int) : Integer (toString i).toList ∧ toInt (toString i).toList = i := by
  cases i with
  | ofNat n =>
    have htext : (toString (Int.ofNat n)).toList = Nat.toDigits 10 n := Nat.toList_repr
    rw [htext, toInt_plain (whole_toDigits n), Nat.ofDigitChars_ten_toDigits]
    exact ⟨.plain (whole_toDigits n), rfl⟩
  | negSucc n =>
    have htext : (toString (Int.negSucc n)).toList = '-' :: Nat.toDigits 10 (n + 1) := by
      rw [← Nat.toList_repr]
      exact String.toList_append
    rw [htext, toInt, Nat.ofDigitChars_ten_toDigits]
    exact ⟨.minus (whole_toDigits (n + 1)), rfl⟩

end Numbers

end NoblePort.JsonText
