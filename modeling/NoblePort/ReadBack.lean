import Mathlib.Data.List.Induction
import NoblePort.JsonText

/-!
# JSON text is read back

Reading what was written for a tree gives the tree.
-/
namespace NoblePort.JsonText

open NoblePort.Values

variable (float : String → PyFloat)

/-- The repr of a finite float is a numeral with a fraction or an exponent, and
the float of that text is the float again. -/
def Exact : PyFloat → Prop
  | .finite val repr => ∃ is fs es, Integer is ∧ Fraction fs ∧ Exponent es ∧ (fs = [] → es ≠ []) ∧
      repr.toList = is ++ (fs ++ es) ∧ float repr = .finite val repr
  | _ => True

mutual

/-- Exact floats, and no key twice in one object. -/
def Readable : Json → Prop
  | .float x => Exact float x
  | .arr xs => ReadableList xs
  | .obj fields => (fields.map Prod.fst).Nodup ∧ ReadableFields fields
  | _ => True

def ReadableList : List Json → Prop
  | [] => True
  | x :: xs => Readable x ∧ ReadableList xs

def ReadableFields : JsonObject → Prop
  | [] => True
  | (_, v) :: fields => Readable v ∧ ReadableFields fields

end

variable {float} {n : Nat} {rest : List Char}

theorem skip_cons {c : Char} (h : isSpace c = false) (cs : List Char) : skip (c :: cs) = c :: cs := by
  rw [skip, List.dropWhile_cons_of_neg]
  rw [h]
  nofun

theorem skip_space (cs : List Char) : skip (' ' :: cs) = skip cs := rfl

/-- A value begins with something that is neither a space nor a closing bracket. -/
def Opens (cs : List Char) : Prop := ∃ c t, cs = c :: t ∧ isSpace c = false ∧ c ≠ ']'

theorem Opens.skip {cs : List Char} (h : Opens cs) : skip cs = cs := by
  obtain ⟨c, t, rfl, hc, _⟩ := h
  exact skip_cons hc t

theorem Opens.append {cs : List Char} (h : Opens cs) (rest : List Char) : Opens (cs ++ rest) := by
  obtain ⟨c, t, rfl, hc⟩ := h
  exact ⟨c, t ++ rest, rfl, hc⟩

/-- A numeral begins with a digit or a minus. -/
theorem Integer.head {is : List Char} (h : Integer is) :
    ∃ c cs, is = c :: cs ∧ (c.isDigit = true ∨ c = '-') := by
  cases h with
  | plain h =>
    obtain ⟨c, cs, rfl, hc⟩ := h.digit
    exact ⟨c, cs, rfl, .inl hc⟩
  | minus h => exact ⟨'-', _, rfl, .inr rfl⟩

theorem opens_of_numeral {c : Char} (h : c.isDigit = true ∨ c = '-') (cs : List Char) : Opens (c :: cs) := by
  refine ⟨c, cs, rfl, ?_, ?_⟩
  · cases hs : isSpace c with
    | false => rfl
    | true =>
      simp only [isSpace, Bool.or_eq_true, decide_eq_true_eq] at hs
      rcases hs with ((rfl | rfl) | rfl) | rfl <;> simp at h
  · rintro rfl
    simp at h

/-- Anything that begins like a number is read as one. -/
theorem readValue_numeral {c : Char} (h : c.isDigit = true ∨ c = '-') (cs : List Char) :
    readValue float (n + 1) (c :: cs) = (readNumber float (c :: cs)).or (readConstant (c :: cs)) := by
  rw [readValue]
  · rintro cs ⟨⟩; simp at h
  · rintro cs ⟨⟩; simp at h
  · rintro cs ⟨⟩; simp at h

theorem readValue_elements {cs : List Char} (h : Opens cs) :
    readValue float (n + 1) ('[' :: cs) = (readElements float n cs).map fun p => (.arr p.1, p.2) := by
  have hskip := h.skip
  obtain ⟨c, t, rfl, _, hclose⟩ := h
  simp only [readValue, hskip]
  split
  · rename_i heq
    cases heq
    exact absurd rfl hclose
  · rfl

theorem quote_append (s : String) (rest : List Char) :
    quote s ++ rest = '"' :: (s.toList.flatMap escape ++ '"' :: rest) := by
  rw [quote, List.cons_append, List.append_assoc]
  rfl

theorem readValue_members (k : String) (cs : List Char) : readValue float (n + 1) ('\x7b' :: (quote k ++ cs)) =
    (readMembers float n (quote k ++ cs)).map fun p => (.obj (ofPairs p.1), p.2) := by
  rw [quote_append]
  rfl

/-- Everything that one call for the elements of an array reads. -/
theorem readElements_iff {cs : List Char} {xs : List Json} :
    readElements float (n + 1) cs = some (xs, rest) ↔
    ∃ x more, readValue float n cs = some (x, more) ∧
      ((skip more = ']' :: rest ∧ xs = [x]) ∨ ∃ others ys, skip more = ',' :: others ∧
        readElements float n (skip others) = some (ys, rest) ∧ xs = x :: ys) := by
  constructor
  · intro h
    simp only [readElements, Option.bind_eq_bind, Option.bind_eq_some_iff, Option.pure_def] at h
    obtain ⟨⟨x, more⟩, hx, h⟩ := h
    refine ⟨x, more, hx, ?_⟩
    split at h
    · rename_i hskip
      cases h
      exact .inl ⟨hskip, rfl⟩
    · rename_i others hskip
      obtain ⟨⟨ys, rest'⟩, hys, h⟩ := Option.bind_eq_some_iff.mp h
      cases h
      exact .inr ⟨others, ys, hskip, hys, rfl⟩
    · cases h
  · rintro ⟨x, more, hx, ⟨hclose, rfl⟩ | ⟨others, ys, hcomma, hys, rfl⟩⟩
    · simp only [readElements, hx, hclose, Option.bind_eq_bind, Option.bind_some, Option.pure_def]
    · simp only [readElements, hx, hcomma, hys, Option.bind_eq_bind, Option.bind_some, Option.pure_def]

/-- Everything that one call for the members of an object reads. -/
theorem readMembers_iff {cs : List Char} {fields : JsonObject} :
    readMembers float (n + 1) cs = some (fields, rest) ↔
    ∃ t k more value v after, cs = '"' :: t ∧ readString t = some (k, more) ∧ skip more = ':' :: value ∧
      readValue float n (skip value) = some (v, after) ∧
      ((skip after = '\x7d' :: rest ∧ fields = [(k, v)]) ∨ ∃ others pairs, skip after = ',' :: others ∧
        readMembers float n (skip others) = some (pairs, rest) ∧ fields = (k, v) :: pairs) := by
  constructor
  · intro h
    unfold readMembers at h
    split at h
    · cases h
    · rename_i t heq
      cases heq
      obtain ⟨⟨k, more⟩, hk, h⟩ := Option.bind_eq_some_iff.mp h
      simp only at h
      split at h
      · rename_i value hcolon
        obtain ⟨⟨v, after⟩, hv, h⟩ := Option.bind_eq_some_iff.mp h
        refine ⟨t, k, more, value, v, after, rfl, hk, hcolon, hv, ?_⟩
        simp only at h
        split at h
        · rename_i hclose
          cases h
          exact .inl ⟨hclose, rfl⟩
        · rename_i others hcomma
          obtain ⟨⟨pairs, rest'⟩, hpairs, h⟩ := Option.bind_eq_some_iff.mp h
          cases h
          exact .inr ⟨others, pairs, hcomma, hpairs, rfl⟩
        · cases h
      · cases h
    · cases h
  · rintro ⟨t, k, more, value, v, after, rfl, hk, hcolon, hv, ⟨hclose, rfl⟩ | ⟨others, pairs, hcomma, hpairs, rfl⟩⟩
    · simp only [readMembers, hk, hcolon, hv, hclose, Option.bind_eq_bind, Option.bind_some, Option.pure_def]
    · simp only [readMembers, hk, hcolon, hv, hcomma, hpairs, Option.bind_eq_bind, Option.bind_some,
        Option.pure_def]

/-- Everything that one call for a value reads. -/
theorem readValue_cases {cs : List Char} {x : Json}
    (h : readValue float (n + 1) cs = some (x, rest)) :
    (∃ t s, cs = '"' :: t ∧ readString t = some (s, rest) ∧ x = .str s) ∨
    (∃ t, cs = '[' :: t ∧ ((skip t = ']' :: rest ∧ x = .arr []) ∨
      ∃ xs, readElements float n (skip t) = some (xs, rest) ∧ x = .arr xs)) ∨
    (∃ t, cs = '\x7b' :: t ∧ ((skip t = '\x7d' :: rest ∧ x = .obj []) ∨
      ∃ pairs, readMembers float n (skip t) = some (pairs, rest) ∧ x = .obj (ofPairs pairs))) ∨
    (readNumber float cs).or (readConstant cs) = some (x, rest) := by
  unfold readValue at h
  split at h
  · rename_i t
    obtain ⟨⟨s, more⟩, hs, h⟩ := Option.map_eq_some_iff.mp h
    cases h
    exact .inl ⟨t, s, rfl, hs, rfl⟩
  · rename_i t
    refine .inr (.inl ⟨t, rfl, ?_⟩)
    split at h
    · rename_i hclose
      cases h
      exact .inl ⟨hclose, rfl⟩
    · obtain ⟨⟨xs, more⟩, hxs, h⟩ := Option.map_eq_some_iff.mp h
      cases h
      exact .inr ⟨xs, hxs, rfl⟩
  · rename_i t
    refine .inr (.inr (.inl ⟨t, rfl, ?_⟩))
    split at h
    · rename_i hclose
      cases h
      exact .inl ⟨hclose, rfl⟩
    · obtain ⟨⟨pairs, more⟩, hpairs, h⟩ := Option.map_eq_some_iff.mp h
      cases h
      exact .inr ⟨pairs, hpairs, rfl⟩
  · exact .inr (.inr (.inr h))

/-- Where no key comes twice, the pairs are the object. -/
theorem ofPairs_nodup {pairs : JsonObject} (h : (pairs.map Prod.fst).Nodup) : ofPairs pairs = pairs := by
  induction pairs using List.reverseRecOn with
  | nil => rfl
  | append_singleton pairs pair ih =>
    rw [List.map_append, List.nodup_append] at h
    obtain ⟨hpairs, _, hnew⟩ := h
    rw [ofPairs, List.foldl_append, ← ofPairs, ih hpairs, List.foldl_cons, List.foldl_nil, setField, if_neg]
    intro hmem
    exact hnew _ hmem pair.1 (List.mem_singleton_self _) rfl

theorem opens_spell (x : Json) (h : Readable float x) : Opens (spell x) := by
  cases x with
  | null => exact ⟨_, _, rfl, rfl, by decide⟩
  | bool b => cases b <;> exact ⟨_, _, rfl, rfl, by decide⟩
  | int i =>
    obtain ⟨c, cs, htext, hc⟩ := (integer_toString i).1.head
    rw [spell, htext]
    exact opens_of_numeral hc cs
  | float x => cases x with
    | finite val repr =>
      obtain ⟨is, fs, es, his, _, _, _, hrepr, _⟩ := h
      obtain ⟨c, cs, htext, hc⟩ := his.head
      rw [spell, PyFloat.text, hrepr, htext]
      exact opens_of_numeral hc _
    | _ => exact ⟨_, _, rfl, rfl, by decide⟩
  | str s => exact ⟨_, _, rfl, rfl, by decide⟩
  | arr xs => cases xs <;> exact ⟨_, _, rfl, rfl, by decide⟩
  | obj fields => cases fields <;> exact ⟨_, _, rfl, rfl, by decide⟩

theorem readValue_int (i : Int) (hrest : Stops rest) :
    readValue float (n + 1) (spell (.int i) ++ rest) = some (.int i, rest) := by
  obtain ⟨hinteger, hvalue⟩ := integer_toString i
  obtain ⟨c, cs, htext, hc⟩ := hinteger.head
  have hread : readNumber float (spell (.int i) ++ rest) = some (.int i, rest) := by
    have hscan := @readNumber_append float _ _ _ _ hinteger .none .none hrest
    rwa [if_pos ⟨rfl, rfl⟩, hvalue, List.nil_append, List.nil_append] at hscan
  rw [spell, htext, List.cons_append] at hread ⊢
  rw [readValue_numeral hc, hread, Option.some_or]

theorem readValue_finite {val : Rat} {repr : String} (h : Exact float (.finite val repr)) (hrest : Stops rest) :
    readValue float (n + 1) (repr.toList ++ rest) = some (.float (.finite val repr), rest) := by
  obtain ⟨is, fs, es, his, hfs, hes, hne, hrepr, hfloat⟩ := h
  obtain ⟨c, cs, htext, hc⟩ := his.head
  have hread : readNumber float (repr.toList ++ rest) = some (.float (.finite val repr), rest) := by
    rw [hrepr, List.append_assoc, List.append_assoc, readNumber_append his hfs hes hrest,
      if_neg fun hnone => hne hnone.1 hnone.2, List.append_assoc, ← hrepr, String.ofList_toList, hfloat]
  rw [hrepr, htext, List.cons_append, List.cons_append] at hread ⊢
  rw [readValue_numeral hc, hread, Option.some_or]

theorem stops_elements (xs : List Json) (rest : List Char) : Stops (spellElements xs ++ rest) := by
  rintro c hc
  cases xs <;> cases hc <;> decide

theorem stops_members (fields : JsonObject) (rest : List Char) : Stops (spellMembers fields ++ rest) := by
  rintro c hc
  match fields with
  | [] => cases hc; decide
  | _ :: _ => cases hc; decide

theorem spellElements_append (x : Json) (xs : List Json) (rest : List Char) :
    spellElements (x :: xs) ++ rest = ',' :: ' ' :: (spell x ++ (spellElements xs ++ rest)) := by
  simp only [spellElements, List.cons_append, List.append_assoc]

theorem spellMembers_append (k : String) (v : Json) (fields : JsonObject) (rest : List Char) :
    spellMembers ((k, v) :: fields) ++ rest =
      ',' :: ' ' :: (quote k ++ (':' :: ' ' :: (spell v ++ (spellMembers fields ++ rest)))) := by
  simp only [spellMembers, List.cons_append, List.append_assoc]

theorem spell_long {x : Json} (h : Readable float x) : ¬ 2 * (spell x).length ≤ 0 := by
  obtain ⟨c, cs, htext, _⟩ := opens_spell x h
  simp [htext]

/-- Reading what was written for `x` gives `x`. -/
def ReadsBack (float : String → PyFloat) (x : Json) : Prop :=
  ∀ n rest, 2 * (spell x).length ≤ n → Stops rest → readValue float n (spell x ++ rest) = some (x, rest)

mutual

theorem readsBack : ∀ x : Json, Readable float x → ReadsBack float x
  | .null, _, n + 1, _, _, _ => rfl
  | .bool true, _, n + 1, _, _, _ => rfl
  | .bool false, _, n + 1, _, _, _ => rfl
  | .int i, h, 0, _, hn, _ => absurd hn (spell_long h)
  | .int i, _, n + 1, _, _, hrest => readValue_int i hrest
  | .float (.finite val repr), h, 0, _, hn, _ => absurd hn (spell_long h)
  | .float (.finite val repr), h, n + 1, _, _, hrest => readValue_finite h hrest
  | .float .nan, _, n + 1, _, _, _ => rfl
  | .float .inf, _, n + 1, _, _, _ => rfl
  | .float .negInf, _, n + 1, _, _, _ => rfl
  | .str s, _, n + 1, rest, _, _ => by
    simp only [spell, quote, List.cons_append, List.append_assoc]
    rw [readValue, readString_quote]
    rfl
  | .arr [], _, n + 1, _, _, _ => rfl
  | .arr (x :: xs), h, n + 1, rest, hn, _ => by
    simp only [spell, List.length_cons, List.length_append] at hn
    have hread := elements_readBack xs h.2 x (readsBack x h.1) n rest (by omega)
    rw [spell, List.cons_append, List.append_assoc, readValue_elements ((opens_spell x h.1).append _), hread]
    rfl
  | .obj [], _, n + 1, _, _, _ => rfl
  | .obj ((k, v) :: fields), h, n + 1, rest, hn, _ => by
    simp only [spell, List.length_cons, List.length_append] at hn
    have hread := members_readBack fields h.2.2 k v h.2.1 (readsBack v h.2.1) n rest (by omega)
    rw [spell, List.cons_append, List.append_assoc, List.cons_append, List.cons_append, List.append_assoc,
      readValue_members, hread, Option.map_some, ofPairs_nodup h.1]

theorem elements_readBack : ∀ xs : List Json, ReadableList float xs → ∀ x, ReadsBack float x →
    ∀ n rest, 2 * ((spell x).length + (spellElements xs).length) ≤ n →
      readElements float n (spell x ++ (spellElements xs ++ rest)) = some (x :: xs, rest)
  | [], _, x, hx, n + 1, rest, hn => by
    simp only [spellElements, List.length_cons, List.length_nil] at hn
    have hread := hx n (spellElements [] ++ rest) (by omega) (stops_elements [] rest)
    exact readElements_iff.mpr ⟨x, _, hread, .inl ⟨rfl, rfl⟩⟩
  | y :: xs, h, x, hx, n + 1, rest, hn => by
    simp only [spellElements, List.length_cons, List.length_append] at hn
    have hread := hx n (spellElements (y :: xs) ++ rest) (by omega) (stops_elements (y :: xs) rest)
    have hmore := elements_readBack xs h.2 y (readsBack y h.1) n rest (by omega)
    rw [spellElements_append] at hread ⊢
    refine readElements_iff.mpr ⟨x, _, hread, .inr ⟨_, y :: xs, rfl, ?_, rfl⟩⟩
    rwa [skip_space, ((opens_spell y h.1).append _).skip]

theorem members_readBack : ∀ fields : JsonObject, ReadableFields float fields → ∀ k v, Readable float v →
    ReadsBack float v → ∀ n rest, 2 * ((quote k).length + (spell v).length + (spellMembers fields).length) ≤ n →
      readMembers float n (quote k ++ (':' :: ' ' :: (spell v ++ (spellMembers fields ++ rest)))) =
        some ((k, v) :: fields, rest)
  | [], _, k, v, hv, hback, n + 1, rest, hn => by
    simp only [quote, spellMembers, List.length_cons, List.length_nil] at hn
    have hread := hback n (spellMembers [] ++ rest) (by omega) (stops_members [] rest)
    rw [← ((opens_spell v hv).append _).skip, ← skip_space] at hread
    rw [quote_append]
    exact readMembers_iff.mpr ⟨_, k, _, _, v, _, rfl, readString_quote k _, rfl, hread, .inl ⟨rfl, rfl⟩⟩
  | (l, u) :: fields, h, k, v, hv, hback, n + 1, rest, hn => by
    simp only [quote, spellMembers, List.length_cons, List.length_append] at hn
    have hread := hback n (spellMembers ((l, u) :: fields) ++ rest) (by omega)
      (stops_members ((l, u) :: fields) rest)
    have hmore := members_readBack fields h.2 l u h.1 (readsBack u h.1) n rest
      (by simp only [quote, List.length_cons, List.length_append]; omega)
    rw [spellMembers_append] at hread ⊢
    rw [← ((opens_spell v hv).append _).skip, ← skip_space] at hread
    rw [quote_append k]
    refine readMembers_iff.mpr ⟨_, k, _, _, v, _, rfl, readString_quote k _, rfl, hread,
      .inr ⟨_, (l, u) :: fields, rfl, ?_, rfl⟩⟩
    rw [quote_append] at hmore ⊢
    exact hmore

end

theorem read_spell {x : Json} (h : Readable float x) : read float (String.ofList (spell x)) = some x := by
  have hback := readsBack x h (2 * (spell x).length) [] (Nat.le_refl _) nofun
  rw [List.append_nil] at hback
  simp only [read, String.toList_ofList, (opens_spell x h).skip, hback, Option.bind_eq_bind, Option.bind_some]
  rfl

end NoblePort.JsonText
