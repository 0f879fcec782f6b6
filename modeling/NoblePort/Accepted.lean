import NoblePort.ReadBack

/-!
# What is read

Every text that is read gives a tree that can be written and read again.
-/
namespace NoblePort.JsonText

open NoblePort.Values

variable {float : String → PyFloat} {n : Nat} {rest : List Char}

/-- Whatever the reader calls a float is one that Python writes as it reads it. -/
def Floats (float : String → PyFloat) : Prop := ∀ text, Exact float (float text)

theorem readable_number (hfloat : Floats float) {cs rest : List Char} {x : Json}
    (h : readNumber float cs = some (x, rest)) : Readable float x := by
  simp only [readNumber, Option.bind_eq_bind, Option.bind_eq_some_iff, Option.pure_def] at h
  obtain ⟨p, _, h⟩ := h
  split at h
  · cases h
    trivial
  · cases h
    exact hfloat _

theorem readable_constant {cs rest : List Char} {x : Json} (h : readConstant cs = some (x, rest)) :
    Readable float x := by
  unfold readConstant at h
  split at h <;> cases h <;> trivial

theorem keys_setField (fields : JsonObject) (k : String) (v : Json) (h : (fields.map Prod.fst).Nodup) :
    ((setField fields k v).map Prod.fst).Nodup := by
  unfold setField
  split
  · have hkeys : (fields.map fun field => if field.1 = k then (k, v) else field).map Prod.fst =
        fields.map Prod.fst := by
      rw [List.map_map]
      refine List.map_congr_left fun field _ => ?_
      by_cases hk : field.1 = k <;> simp [hk]
    rwa [hkeys]
  · rename_i hnew
    rw [List.map_append, List.nodup_append]
    refine ⟨h, List.nodup_singleton k, fun a ha b hb => ?_⟩
    rintro rfl
    have hk : a = k := List.mem_singleton.mp hb
    exact hnew (hk ▸ ha)

theorem readableFields_iff {fields : JsonObject} :
    ReadableFields float fields ↔ ∀ field ∈ fields, Readable float field.2 := by
  induction fields with
  | nil => simp [ReadableFields]
  | cons field fields ih => simp [ReadableFields, ih]

theorem readable_ofPairs {pairs : JsonObject} (h : ReadableFields float pairs) :
    Readable float (.obj (ofPairs pairs)) := by
  rw [readableFields_iff] at h
  have hboth : ((ofPairs pairs).map Prod.fst).Nodup ∧ ∀ field ∈ ofPairs pairs, Readable float field.2 := by
    induction pairs using List.reverseRecOn with
    | nil => exact ⟨List.nodup_nil, List.forall_mem_nil _⟩
    | append_singleton pairs pair ih =>
      obtain ⟨hnodup, hall⟩ := ih fun field hfield => h field (List.mem_append_left _ hfield)
      have hlast := h pair (List.mem_append_right _ (List.mem_singleton_self _))
      rw [ofPairs, List.foldl_append, ← ofPairs, List.foldl_cons, List.foldl_nil]
      refine ⟨keys_setField _ _ _ hnodup, fun field hfield => ?_⟩
      unfold setField at hfield
      split at hfield
      · obtain ⟨old, hold, rfl⟩ := List.mem_map.mp hfield
        split
        · exact hlast
        · exact hall old hold
      · rcases List.mem_append.mp hfield with hfield | hfield
        · exact hall field hfield
        · rw [List.mem_singleton.mp hfield]
          exact hlast
  exact ⟨hboth.1, readableFields_iff.mpr hboth.2⟩

/-- What is read is readable, whatever the text. -/
theorem readable_of_read (hfloat : Floats float) (n : Nat) :
    (∀ cs x rest, readValue float n cs = some (x, rest) → Readable float x) ∧
    (∀ cs xs rest, readElements float n cs = some (xs, rest) → ReadableList float xs) ∧
    ∀ cs pairs rest, readMembers float n cs = some (pairs, rest) → ReadableFields float pairs := by
  induction n with
  | zero => exact ⟨nofun, nofun, nofun⟩
  | succ n ih =>
    obtain ⟨hvalue, helements, hmembers⟩ := ih
    refine ⟨fun cs x rest h => ?_, fun cs xs rest h => ?_, fun cs pairs rest h => ?_⟩
    · rcases readValue_cases h with ⟨_, s, _, _, rfl⟩ | ⟨_, _, ⟨_, rfl⟩ | ⟨xs, hxs, rfl⟩⟩ |
        ⟨_, _, ⟨_, rfl⟩ | ⟨pairs, hpairs, rfl⟩⟩ | hscalar
      · trivial
      · trivial
      · exact helements _ _ _ hxs
      · exact ⟨List.nodup_nil, trivial⟩
      · exact readable_ofPairs (hmembers _ _ _ hpairs)
      · rcases Option.or_eq_some_iff.mp hscalar with hnumber | ⟨_, hconstant⟩
        · exact readable_number hfloat hnumber
        · exact readable_constant hconstant
    · obtain ⟨x, more, hx, ⟨_, rfl⟩ | ⟨others, ys, _, hys, rfl⟩⟩ := readElements_iff.mp h
      · exact ⟨hvalue _ _ _ hx, trivial⟩
      · exact ⟨hvalue _ _ _ hx, helements _ _ _ hys⟩
    · obtain ⟨t, k, more, value, v, after, rfl, _, _, hv, ⟨_, rfl⟩ | ⟨others, rest', _, hrest', rfl⟩⟩ :=
        readMembers_iff.mp h
      · exact ⟨hvalue _ _ _ hv, trivial⟩
      · exact ⟨hvalue _ _ _ hv, hmembers _ _ _ hrest'⟩

theorem skip_length (cs : List Char) : (skip cs).length ≤ cs.length := (List.dropWhile_suffix _).length_le

theorem readUnits_length {cs : List Char} {units : List Nat} (h : readUnits cs = some (units, rest)) :
    rest.length < cs.length := by
  have hprepend {n : Nat} {r : Option (List Nat × List Char)} {p : List Nat × List Char}
      (hp : prepend n r = some p) : ∃ units, r = some (units, p.2) := by
    obtain ⟨q, hq, rfl⟩ := Option.map_eq_some_iff.mp hp
    exact ⟨q.1, hq⟩
  fun_induction readUnits cs generalizing units with
  | case1 => cases h
  | case2 cs =>
    cases h
    exact Nat.lt_succ_self _
  | case3 a b c d cs ih =>
    obtain ⟨n, _, h⟩ := Option.bind_eq_some_iff.mp h
    obtain ⟨units', h'⟩ := hprepend h
    have hlt := ih h'
    simp only [List.length_cons]
    omega
  | case4 c cs _ ih =>
    obtain ⟨c', _, h⟩ := Option.bind_eq_some_iff.mp h
    obtain ⟨units', h'⟩ := hprepend h
    exact Nat.lt_of_lt_of_le (ih h') (by simp only [List.length_cons]; omega)
  | case5 => cases h
  | case6 c cs _ _ _ _ ih =>
    obtain ⟨units', h'⟩ := hprepend h
    exact Nat.lt_succ_of_lt (ih h')

theorem readString_length {cs : List Char} {s : String} (h : readString cs = some (s, rest)) :
    rest.length < cs.length := by
  simp only [readString, Option.bind_eq_bind, Option.bind_eq_some_iff, Option.pure_def] at h
  obtain ⟨⟨units, more⟩, hunits, s', _, h⟩ := h
  cases h
  exact readUnits_length hunits

theorem scanWhole_length {cs ds : List Char} (h : scanWhole cs = some (ds, rest)) :
    rest.length < cs.length := by
  unfold scanWhole at h
  split at h
  · cases h
  · cases h
    exact Nat.lt_succ_self _
  · rename_i c cs _
    split at h
    · cases h
      exact Nat.lt_succ_of_le (List.dropWhile_suffix _).length_le
    · cases h

theorem scanInteger_length {cs ds : List Char} (h : scanInteger cs = some (ds, rest)) :
    rest.length < cs.length := by
  unfold scanInteger at h
  split at h
  · obtain ⟨⟨ds', rest'⟩, hwhole, h⟩ := Option.map_eq_some_iff.mp h
    cases h
    exact Nat.lt_succ_of_lt (scanWhole_length hwhole)
  · exact scanWhole_length h

theorem scanFraction_length (cs : List Char) : (scanFraction cs).2.length ≤ cs.length := by
  unfold scanFraction
  split
  · split
    · exact Nat.le_refl _
    · exact Nat.le_succ_of_le (List.dropWhile_suffix _).length_le
  · exact Nat.le_refl _

theorem scanSign_length (cs : List Char) : (scanSign cs).2.length ≤ cs.length := by
  unfold scanSign
  split
  · exact Nat.le_succ _
  · exact Nat.le_succ _
  · exact Nat.le_refl _

theorem scanExponent_length (cs : List Char) : (scanExponent cs).2.length ≤ cs.length := by
  unfold scanExponent
  split
  · exact Nat.le_refl _
  · rename_i c cs
    simp only
    split
    · exact Nat.le_succ_of_le ((List.dropWhile_suffix _).length_le.trans (scanSign_length cs))
    · exact Nat.le_refl _

theorem readNumber_length {cs : List Char} {x : Json} (h : readNumber float cs = some (x, rest)) :
    rest.length < cs.length := by
  simp only [readNumber, Option.bind_eq_bind, Option.bind_eq_some_iff, Option.pure_def] at h
  obtain ⟨⟨is, more⟩, hinteger, h⟩ := h
  have hrest : rest = (scanExponent (scanFraction more).2).2 := by
    split at h <;> cases h <;> rfl
  have hfraction := scanFraction_length more
  have hexponent := scanExponent_length (scanFraction more).2
  have hlt := scanInteger_length hinteger
  rw [hrest]
  omega

theorem readConstant_length {cs : List Char} {x : Json} (h : readConstant cs = some (x, rest)) :
    rest.length < cs.length := by
  unfold readConstant at h
  split at h <;> cases h <;> simp only [List.length_cons] <;> omega

/-- With more calls left, what is inside brackets is read alike. -/
theorem readValue_mono {n m : Nat} {cs : List Char} {r : Json × List Char}
    (helements : ∀ t r, cs = '[' :: t → readElements float n (skip t) = some r →
      readElements float m (skip t) = some r)
    (hmembers : ∀ t r, cs = '\x7b' :: t → readMembers float n (skip t) = some r →
      readMembers float m (skip t) = some r)
    (h : readValue float (n + 1) cs = some r) : readValue float (m + 1) cs = some r := by
  unfold readValue at h ⊢
  split at h
  · exact h
  · rename_i t
    split at h
    · exact h
    · obtain ⟨p, hp, rfl⟩ := Option.map_eq_some_iff.mp h
      rw [helements t p rfl hp, Option.map_some]
  · rename_i t
    split at h
    · exact h
    · obtain ⟨p, hp, rfl⟩ := Option.map_eq_some_iff.mp h
      rw [hmembers t p rfl hp, Option.map_some]
  · exact h

/-- What `n` calls can read is read with two calls for each character, and it
takes up some of them. -/
structure Enough (float : String → PyFloat) (n : Nat) : Prop where
  value : ∀ cs x rest, readValue float n cs = some (x, rest) → rest.length < cs.length ∧
    ∀ m, 2 * cs.length ≤ m → readValue float m cs = some (x, rest)
  elements : ∀ cs xs rest, readElements float n cs = some (xs, rest) → rest.length < cs.length ∧
    ∀ m, 2 * cs.length + 1 ≤ m → readElements float m cs = some (xs, rest)
  members : ∀ cs pairs rest, readMembers float n cs = some (pairs, rest) → rest.length < cs.length ∧
    ∀ m, 2 * cs.length + 1 ≤ m → readMembers float m cs = some (pairs, rest)

namespace Enough

theorem value_length (hn : Enough float n) {cs : List Char} {x : Json}
    (h : readValue float (n + 1) cs = some (x, rest)) : rest.length < cs.length := by
  rcases readValue_cases h with ⟨t, s, rfl, hs, _⟩ | ⟨t, rfl, ht⟩ | ⟨t, rfl, ht⟩ | hscalar
  · exact Nat.lt_succ_of_lt (readString_length hs)
  · have hskip := skip_length t
    rcases ht with ⟨hclose, _⟩ | ⟨xs, hxs, _⟩
    · rw [hclose, List.length_cons] at hskip
      exact Nat.lt_succ_of_lt hskip
    · exact Nat.lt_succ_of_lt (Nat.lt_of_lt_of_le (hn.elements _ _ _ hxs).1 hskip)
  · have hskip := skip_length t
    rcases ht with ⟨hclose, _⟩ | ⟨pairs, hpairs, _⟩
    · rw [hclose, List.length_cons] at hskip
      exact Nat.lt_succ_of_lt hskip
    · exact Nat.lt_succ_of_lt (Nat.lt_of_lt_of_le (hn.members _ _ _ hpairs).1 hskip)
  · rcases Option.or_eq_some_iff.mp hscalar with hnumber | ⟨_, hconstant⟩
    · exact readNumber_length hnumber
    · exact readConstant_length hconstant

theorem value_again (hn : Enough float n) {cs : List Char} {x : Json}
    (h : readValue float (n + 1) cs = some (x, rest)) {m : Nat} (hm : 2 * cs.length ≤ m) :
    readValue float m cs = some (x, rest) := by
  have hlength := hn.value_length h
  obtain ⟨m, rfl⟩ : ∃ k, m = k + 1 := ⟨m - 1, by omega⟩
  refine readValue_mono ?_ ?_ h
  · rintro t ⟨xs, more⟩ rfl hxs
    have hskip := skip_length t
    rw [List.length_cons] at hm
    exact (hn.elements _ _ _ hxs).2 m (by omega)
  · rintro t ⟨pairs, more⟩ rfl hpairs
    have hskip := skip_length t
    rw [List.length_cons] at hm
    exact (hn.members _ _ _ hpairs).2 m (by omega)

theorem elements_succ (hn : Enough float n) {cs : List Char} {xs : List Json}
    (h : readElements float (n + 1) cs = some (xs, rest)) : rest.length < cs.length ∧
      ∀ m, 2 * cs.length + 1 ≤ m → readElements float m cs = some (xs, rest) := by
  obtain ⟨x, more, hx, hrest⟩ := readElements_iff.mp h
  obtain ⟨hlt, hagain⟩ := hn.value _ _ _ hx
  have hskip := skip_length more
  rcases hrest with ⟨hclose, rfl⟩ | ⟨others, ys, hcomma, hys, rfl⟩
  · rw [hclose, List.length_cons] at hskip
    refine ⟨by omega, fun m hm => ?_⟩
    obtain ⟨m, rfl⟩ : ∃ k, m = k + 1 := ⟨m - 1, by omega⟩
    exact readElements_iff.mpr ⟨x, more, hagain m (by omega), .inl ⟨hclose, rfl⟩⟩
  · rw [hcomma, List.length_cons] at hskip
    have hothers := skip_length others
    obtain ⟨hlt', hagain'⟩ := hn.elements _ _ _ hys
    refine ⟨by omega, fun m hm => ?_⟩
    obtain ⟨m, rfl⟩ : ∃ k, m = k + 1 := ⟨m - 1, by omega⟩
    exact readElements_iff.mpr ⟨x, more, hagain m (by omega),
      .inr ⟨others, ys, hcomma, hagain' m (by omega), rfl⟩⟩

theorem members_succ (hn : Enough float n) {cs : List Char} {pairs : JsonObject}
    (h : readMembers float (n + 1) cs = some (pairs, rest)) : rest.length < cs.length ∧
      ∀ m, 2 * cs.length + 1 ≤ m → readMembers float m cs = some (pairs, rest) := by
  obtain ⟨t, k, more, value, v, after, rfl, hk, hcolon, hv, hrest⟩ := readMembers_iff.mp h
  have hkey := readString_length hk
  have hmore := skip_length more
  rw [hcolon, List.length_cons] at hmore
  have hvalue := skip_length value
  obtain ⟨hlt, hagain⟩ := hn.value _ _ _ hv
  have hafter := skip_length after
  rw [List.length_cons]
  rcases hrest with ⟨hclose, rfl⟩ | ⟨others, ys, hcomma, hys, rfl⟩
  · rw [hclose, List.length_cons] at hafter
    refine ⟨by omega, fun m hm => ?_⟩
    obtain ⟨m, rfl⟩ : ∃ k, m = k + 1 := ⟨m - 1, by omega⟩
    exact readMembers_iff.mpr ⟨t, k, more, value, v, after, rfl, hk, hcolon, hagain m (by omega),
      .inl ⟨hclose, rfl⟩⟩
  · rw [hcomma, List.length_cons] at hafter
    have hothers := skip_length others
    obtain ⟨hlt', hagain'⟩ := hn.members _ _ _ hys
    refine ⟨by omega, fun m hm => ?_⟩
    obtain ⟨m, rfl⟩ : ∃ k, m = k + 1 := ⟨m - 1, by omega⟩
    exact readMembers_iff.mpr ⟨t, k, more, value, v, after, rfl, hk, hcolon, hagain m (by omega),
      .inr ⟨others, ys, hcomma, hagain' m (by omega), rfl⟩⟩

end Enough

theorem enough (n : Nat) : Enough float n := by
  induction n with
  | zero => exact ⟨nofun, nofun, nofun⟩
  | succ n ih =>
    exact ⟨fun _ _ _ h => ⟨ih.value_length h, fun _ => ih.value_again h⟩, fun _ _ _ => ih.elements_succ,
      fun _ _ _ => ih.members_succ⟩

/-- A text is read if any number of calls would read it. -/
theorem read_iff {text : String} {x : Json} : read float text = some x ↔
    ∃ n rest, readValue float n (skip text.toList) = some (x, rest) ∧ skip rest = [] := by
  simp only [read, Option.bind_eq_bind, Option.bind_eq_some_iff, Option.pure_def]
  constructor
  · rintro ⟨⟨y, rest⟩, hread, u, hend, h⟩
    cases h
    exact ⟨_, rest, hread, by simpa [guard] using hend⟩
  · rintro ⟨n, rest, hread, hend⟩
    refine ⟨(x, rest), ((enough n).value _ _ _ hread).2 _ (Nat.le_refl _), (), ?_, rfl⟩
    rw [hend]
    rfl


end NoblePort.JsonText
