import NoblePort.Accepted
import NoblePort.RoundTrip

/-!
# The text that is stored

`PostgresCheckpointer.put`, `insert_audit` and `RedisEventBus.publish` hand over
the JSON text of a dict, and `get_latest`, `list_all` and `list_audit` read it.
-/
namespace NoblePort.StoredText

open NoblePort.Values NoblePort.JsonText NoblePort.JsonStates

/-- `json.dumps(d, default=str, sort_keys=True)`. -/
def dumpsText (d : Dict) : Except Exc String :=
  (dumps d).map fun fields => String.ofList (spell (.obj fields))

variable (float : String → PyFloat)

/-- `json.loads(text)`. -/
def loadsText (text : String) : Option PyVal := (read float text).map decode

def ExactKey : Key → Prop
  | .float x => Exact float x
  | _ => True

mutual

/-- As Python has it, with strings without surrogate code points: the floats are
exact, and no dict has a key twice. -/
def Genuine : PyVal → Prop
  | .float x => Exact float x
  | .list xs => GenuineList xs
  | .tuple xs => GenuineList xs
  | .dict items => (items.map Prod.fst).Nodup ∧ GenuineItems items
  | _ => True

def GenuineList : List PyVal → Prop
  | [] => True
  | x :: xs => Genuine x ∧ GenuineList xs

def GenuineItems : Dict → Prop
  | [] => True
  | (k, v) :: items => ExactKey float k ∧ Genuine v ∧ GenuineItems items

end

variable {float}

section Keys

/-- A key that is a number, as a value. -/
def keyJson : Key → Json
  | .bool b => .bool b
  | .int i => .int i
  | .float x => .float x
  | _ => .null

theorem text_number {k : Key} (h : k.isNumber = true) : k.text = .ok (String.ofList (spell (keyJson k))) := by
  cases k with
  | bool b => cases b <;> rfl
  | int i => rw [Key.text, keyJson, spell, String.ofList_toList]
  | float x => rw [Key.text, keyJson, spell, String.ofList_toList]
  | _ => cases h

theorem readable_keyJson {k : Key} (h : ExactKey float k) : Readable float (keyJson k) := by
  cases k with
  | float x => exact h
  | _ => trivial

def jsonKey : Json → Key
  | .bool b => .bool b
  | .int i => .int i
  | .float x => .float x
  | _ => .none

theorem jsonKey_keyJson {k : Key} (h : k.isNumber = true) : jsonKey (keyJson k) = k := by
  cases k <;> first | rfl | cases h

/-- Numbers with one text are one key. -/
theorem text_number_inj {k k' : Key} {s : String} (hk : k.isNumber = true) (hk' : k'.isNumber = true)
    (he : ExactKey float k) (he' : ExactKey float k') (h : k.text = .ok s) (h' : k'.text = .ok s) : k = k' := by
  rw [text_number hk] at h
  rw [text_number hk'] at h'
  have hread := read_spell (readable_keyJson he)
  rw [Except.ok.inj h, ← Except.ok.inj h', read_spell (readable_keyJson he')] at hread
  rw [← jsonKey_keyJson hk, ← jsonKey_keyJson hk', Option.some.inj hread]

/-- Keys that can be sorted together are told apart by their texts. -/
theorem text_inj {keys : List Key} (hsort : sortable keys = true) (hexact : ∀ k ∈ keys, ExactKey float k)
    {k k' : Key} (hk : k ∈ keys) (hk' : k' ∈ keys) {s : String} (h : k.text = .ok s) (h' : k'.text = .ok s) :
    k = k' := by
  simp only [sortable, Bool.or_eq_true, decide_eq_true_eq, List.all_eq_true] at hsort
  rcases hsort with (hone | hstr) | hnumber
  · obtain ⟨l, rfl⟩ := List.length_eq_one_iff.mp (Nat.le_antisymm hone (List.length_pos_of_mem hk))
    rw [List.mem_singleton.mp hk, List.mem_singleton.mp hk']
  · have htext {l : Key} (hl : l ∈ keys) (ht : l.text = .ok s) : l = .str s := by
      have hl := hstr l hl
      cases l with
      | str t => rw [Except.ok.inj ht]
      | _ => cases hl
    rw [htext hk h, htext hk' h']
  · exact text_number_inj (hnumber k hk) (hnumber k' hk') (hexact k hk) (hexact k' hk') h h'

end Keys

section Encode

/-- An item of a dict with the field that it becomes. -/
def Becomes (item : Key × Except Exc Json) (field : String × Json) : Prop :=
  item.1.text = .ok field.1 ∧ item.2 = .ok field.2

theorem exists_item {items : List (Key × Except Exc Json)} {fields : JsonObject}
    (h : List.Forall₂ Becomes items fields) : ∀ field ∈ fields, ∃ item ∈ items, Becomes item field := by
  induction h with
  | nil => exact List.forall_mem_nil _
  | @cons item field items fields hfirst _ ih =>
    intro f hf
    rcases List.mem_cons.mp hf with rfl | hf
    · exact ⟨item, List.mem_cons_self .., hfirst⟩
    · obtain ⟨i, hi, hbecomes⟩ := ih f hf
      exact ⟨i, List.mem_cons_of_mem _ hi, hbecomes⟩

theorem nodup_fields {items : List (Key × Except Exc Json)} {fields : JsonObject}
    (h : List.Forall₂ Becomes items fields) (hnodup : (items.map Prod.fst).Nodup)
    (hinj : ∀ i ∈ items, ∀ j ∈ items, ∀ s, i.1.text = .ok s → j.1.text = .ok s → i.1 = j.1) :
    (fields.map Prod.fst).Nodup := by
  induction h with
  | nil => exact List.nodup_nil
  | @cons item field items fields hfirst hrest ih =>
    rw [List.map_cons, List.nodup_cons] at hnodup ⊢
    refine ⟨fun hmem => ?_, ih hnodup.2 fun i hi j hj =>
      hinj i (List.mem_cons_of_mem _ hi) j (List.mem_cons_of_mem _ hj)⟩
    obtain ⟨f, hf, hsame⟩ := List.mem_map.mp hmem
    obtain ⟨i, hi, htext, _⟩ := exists_item hrest f hf
    have hkey := hinj item (List.mem_cons_self ..) i (List.mem_cons_of_mem _ hi) _ hfirst.1 (hsame ▸ htext)
    exact hnodup.1 (hkey ▸ List.mem_map_of_mem hi)

/-- The object of a genuine dict is readable where its values are. -/
theorem readable_object {items : Dict} {fields : JsonObject} (hnodup : (items.map Prod.fst).Nodup)
    (hitems : ∀ item ∈ encodeItems items, ExactKey float item.1 ∧ ∀ j, item.2 = .ok j → Readable float j)
    (h : encodeObject (encodeItems items) = .ok fields) : Readable float (.obj fields) := by
  have hkeys : (encodeItems items).map Prod.fst = items.map Prod.fst := by
    rw [RoundTrip.encodeItems_eq, List.map_map]
    rfl
  have hperm : (sortItems (encodeItems items)).Perm (encodeItems items) := List.perm_insertionSort _ _
  unfold encodeObject at h
  split at h
  case isFalse => cases h
  rename_i hsort
  have hfields : List.Forall₂ Becomes (sortItems (encodeItems items)) fields := RoundTrip.encodeFields_ok h
  constructor
  · refine nodup_fields hfields ?_ fun i hi j hj s => ?_
    · rwa [(hperm.map Prod.fst).nodup_iff, hkeys]
    · have hexact : ∀ k ∈ (encodeItems items).map Prod.fst, ExactKey float k := fun k hk => by
        obtain ⟨item, hitem, rfl⟩ := List.mem_map.mp hk
        exact (hitems item hitem).1
      exact text_inj hsort hexact (List.mem_map_of_mem (hperm.mem_iff.mp hi))
        (List.mem_map_of_mem (hperm.mem_iff.mp hj))
  · refine readableFields_iff.mpr fun field hfield => ?_
    obtain ⟨item, hitem, _, hvalue⟩ := exists_item hfields field hfield
    exact (hitems item (hperm.mem_iff.mp hitem)).2 _ hvalue

mutual

/-- The tree of a genuine value is readable. -/
theorem readable_encode : ∀ (v : PyVal) (j : Json), Genuine float v → encode v = .ok j → Readable float j
  | .none, _, _, h => by cases h; trivial
  | .bool b, _, _, h => by cases h; trivial
  | .int i, _, _, h => by cases h; trivial
  | .float x, _, hv, h => by cases h; exact hv
  | .str s, _, _, h => by cases h; trivial
  | .list xs, j, hv, h => by
    rw [encode] at h
    obtain ⟨js, hjs, rfl⟩ := RoundTrip.ok_of_map h
    exact readable_list xs js hv hjs
  | .tuple xs, j, hv, h => by
    rw [encode] at h
    obtain ⟨js, hjs, rfl⟩ := RoundTrip.ok_of_map h
    exact readable_list xs js hv hjs
  | .dict items, j, hv, h => by
    rw [encode] at h
    obtain ⟨fields, hfields, rfl⟩ := RoundTrip.ok_of_map h
    exact readable_object hv.1 (readable_items items hv.2) hfields
  | .obj _ str, j, _, h => by
    cases str with
    | error e => cases h
    | ok s => cases h; trivial
  | .cycle, _, _, h => by cases h

theorem readable_list : ∀ (xs : List PyVal) (js : List Json), GenuineList float xs →
    encodeList xs = .ok js → ReadableList float js
  | [], _, _, h => by cases h; trivial
  | x :: xs, js, hv, h => by
    rw [encodeList] at h
    obtain ⟨j, hj, h⟩ := RoundTrip.ok_of_bind h
    obtain ⟨rest, hrest, h⟩ := RoundTrip.ok_of_bind h
    cases h
    exact ⟨readable_encode x j hv.1 hj, readable_list xs rest hv.2 hrest⟩

theorem readable_items : ∀ items : Dict, GenuineItems float items → ∀ item ∈ encodeItems items,
    ExactKey float item.1 ∧ ∀ j, item.2 = .ok j → Readable float j
  | [], _ => List.forall_mem_nil _
  | (k, v) :: items, hv => by
    intro item hitem
    rcases List.mem_cons.mp hitem with rfl | hitem
    · exact ⟨hv.1, fun j => readable_encode v j hv.2.1⟩
    · exact readable_items items hv.2.2 item hitem

end

end Encode

section Printable

/-- A printable character of ASCII. -/
def Printable (c : Char) : Prop := ' ' ≤ c ∧ c ≤ '~'

instance (c : Char) : Decidable (Printable c) := inferInstanceAs (Decidable (_ ∧ _))

/-- A constant text, checked by evaluation. -/
theorem printable_of_all {cs : List Char} (h : cs.all (fun c => decide (Printable c)) = true) :
    ∀ c ∈ cs, Printable c := by
  simpa using h

theorem printable_digit {c : Char} (h : c.isDigit = true) : Printable c := by
  simp only [Char.isDigit, Bool.and_eq_true, decide_eq_true_eq] at h
  exact ⟨UInt32.le_trans (by decide) h.1, UInt32.le_trans h.2 (by decide)⟩

theorem printable_hex : ∀ n < 16, Printable (Nat.digitChar n) := by decide

theorem printable_codeUnit (n : Nat) : ∀ c ∈ codeUnit n, Printable c := by
  have hdigit (m : Nat) : Printable (Nat.digitChar (m % 16)) := printable_hex _ (Nat.mod_lt _ (by omega))
  intro c hc
  simp only [codeUnit, List.map_cons, List.map_nil, List.mem_cons, List.not_mem_nil, or_false] at hc
  rcases hc with rfl | rfl | rfl | rfl | rfl | rfl
  · decide
  · decide
  all_goals exact hdigit _

theorem printable_escape (c : Char) : ∀ d ∈ escape c, Printable d := by
  unfold escape
  split
  all_goals first | exact printable_of_all (by decide) | skip
  split
  · rename_i hc
    intro d hd
    rw [List.mem_singleton.mp hd]
    exact hc
  · intro d hd
    obtain ⟨n, _, hd⟩ := List.mem_flatMap.mp hd
    exact printable_codeUnit n d hd

theorem printable_quote (s : String) : ∀ c ∈ quote s, Printable c := by
  intro c hc
  simp only [quote, List.mem_cons, List.mem_append, List.not_mem_nil, or_false] at hc
  rcases hc with rfl | hc | rfl
  · decide
  · obtain ⟨d, _, hc⟩ := List.mem_flatMap.mp hc
    exact printable_escape d c hc
  · decide

theorem printable_whole {ds : List Char} (h : Whole ds) : ∀ c ∈ ds, Printable c := by
  cases h with
  | zero => exact printable_of_all (by decide)
  | digits c ds hc _ hds =>
    intro d hd
    rcases List.mem_cons.mp hd with rfl | hd
    · exact printable_digit hc
    · exact printable_digit (hds d hd)

theorem printable_integer {is : List Char} (h : Integer is) : ∀ c ∈ is, Printable c := by
  cases h with
  | plain h => exact printable_whole h
  | minus h => exact List.forall_mem_cons.mpr ⟨by decide, printable_whole h⟩

theorem printable_fraction {fs : List Char} (h : Fraction fs) : ∀ c ∈ fs, Printable c := by
  cases h with
  | none => exact List.forall_mem_nil _
  | digits ds _ hds => exact List.forall_mem_cons.mpr ⟨by decide, fun c hc => printable_digit (hds c hc)⟩

theorem printable_exponent {es : List Char} (h : Exponent es) : ∀ c ∈ es, Printable c := by
  cases h with
  | none => exact List.forall_mem_nil _
  | digits e sign ds he hsign _ hds =>
    have hsigned : ∀ c ∈ sign, Printable c := by
      simp only [List.mem_cons, List.not_mem_nil, or_false] at hsign
      rcases hsign with rfl | rfl | rfl <;> exact printable_of_all (by decide)
    refine List.forall_mem_cons.mpr ⟨?_, fun c hc => ?_⟩
    · rcases he with rfl | rfl <;> decide
    · rcases List.mem_append.mp hc with hc | hc
      · exact hsigned c hc
      · exact printable_digit (hds c hc)

theorem printable_float {x : PyFloat} (h : Exact float x) : ∀ c ∈ x.text.toList, Printable c := by
  cases x with
  | finite val repr =>
    obtain ⟨is, fs, es, his, hfs, hes, _, hrepr, _⟩ := h
    rw [PyFloat.text, hrepr]
    intro c hc
    rcases List.mem_append.mp hc with hc | hc
    · exact printable_integer his c hc
    · rcases List.mem_append.mp hc with hc | hc
      · exact printable_fraction hfs c hc
      · exact printable_exponent hes c hc
  | nan => exact printable_of_all (by decide)
  | inf => exact printable_of_all (by decide)
  | negInf => exact printable_of_all (by decide)

theorem printable_pair {v : Json} {fields : JsonObject} (hv : ∀ c ∈ spell v, Printable c)
    (hfields : ∀ c ∈ spellMembers fields, Printable c) :
    ∀ c ∈ ':' :: ' ' :: (spell v ++ spellMembers fields), Printable c :=
  List.forall_mem_cons.mpr ⟨by decide, List.forall_mem_cons.mpr ⟨by decide,
    List.forall_mem_append.mpr ⟨hv, hfields⟩⟩⟩

mutual

theorem printable_spell : ∀ x : Json, Readable float x → ∀ c ∈ spell x, Printable c
  | .null, _ => printable_of_all (by decide)
  | .bool true, _ => printable_of_all (by decide)
  | .bool false, _ => printable_of_all (by decide)
  | .int i, _ => printable_integer (integer_toString i).1
  | .float _, h => printable_float h
  | .str s, _ => printable_quote s
  | .arr [], _ => printable_of_all (by decide)
  | .arr (x :: xs), h => by
    rw [spell]
    refine List.forall_mem_cons.mpr ⟨by decide, List.forall_mem_append.mpr ?_⟩
    exact ⟨printable_spell x h.1, printable_elements xs h.2⟩
  | .obj [], _ => printable_of_all (by decide)
  | .obj ((k, v) :: fields), h => by
    rw [spell]
    refine List.forall_mem_cons.mpr ⟨by decide, List.forall_mem_append.mpr ⟨printable_quote k, ?_⟩⟩
    exact printable_pair (printable_spell v h.2.1) (printable_members fields h.2.2)

theorem printable_elements : ∀ xs : List Json, ReadableList float xs → ∀ c ∈ spellElements xs, Printable c
  | [], _ => printable_of_all (by decide)
  | x :: xs, h => by
    rw [spellElements]
    refine List.forall_mem_cons.mpr ⟨by decide, List.forall_mem_cons.mpr ⟨by decide, ?_⟩⟩
    exact List.forall_mem_append.mpr ⟨printable_spell x h.1, printable_elements xs h.2⟩

theorem printable_members : ∀ fields : JsonObject, ReadableFields float fields →
    ∀ c ∈ spellMembers fields, Printable c
  | [], _ => printable_of_all (by decide)
  | (k, v) :: fields, h => by
    rw [spellMembers]
    refine List.forall_mem_cons.mpr ⟨by decide, List.forall_mem_cons.mpr ⟨by decide, ?_⟩⟩
    refine List.forall_mem_append.mpr ⟨printable_quote k, ?_⟩
    exact printable_pair (printable_spell v h.1) (printable_members fields h.2)

end

end Printable

/-- For every dict as Python has it, but for surrogate code points in its strings:
its text, if it has one, is printable ASCII and reads as the tree of the dict. A
JSON state comes back with its keys sorted. -/
theorem text_round_trip (float : String → PyFloat) (d : Dict) (h : Genuine float (.dict d)) (text : String)
    (htext : dumpsText d = .ok text) :
    (∃ fields, dumps d = .ok fields ∧ loadsText float text = some (.dict (loads fields))) ∧
    (IsState d → loadsText float text = some (.dict (canonDict d))) ∧ ∀ c ∈ text.toList, Printable c := by
  obtain ⟨fields, hfields, rfl⟩ := RoundTrip.ok_of_map htext
  have hreadable : Readable float (.obj fields) := readable_object h.1 (readable_items d h.2) hfields
  have hload : loadsText float (String.ofList (spell (.obj fields))) = some (.dict (loads fields)) := by
    rw [loadsText, read_spell hreadable, Option.map_some, decode]
  refine ⟨⟨fields, hfields, hload⟩, fun hstate => ?_, ?_⟩
  · obtain ⟨fields', hfields', hcanon⟩ := loads_dumps hstate
    cases hfields.symm.trans hfields'
    rw [hload, hcanon]
  · rw [String.toList_ofList]
    exact printable_spell _ hreadable

/-- `float` on the only two numerals there are below. -/
def oneAndAHalf (text : String) : PyFloat :=
  if text = "1.5" ∨ text = "1.50" then .finite (3 / 2) "1.5" else .nan

theorem exact_oneAndAHalf : Floats oneAndAHalf := by
  intro text
  unfold oneAndAHalf
  split
  · refine ⟨['1'], ['.', '5'], [], .plain ?_, .digits ['5'] (by decide) ?_, .none, nofun, rfl, rfl⟩
    · exact .digits '1' [] rfl (by decide) (List.forall_mem_nil _)
    · exact List.forall_mem_singleton.mpr rfl
  · trivial

/-- A state with a float, and a character that takes two code units. -/
def smile : Dict := [(.str "score", .float (.finite (3 / 2) "1.5")), (.str "input", .str "😀")]

def smileText : String := "\x7b\"input\": \"\\ud83d\\ude00\", \"score\": 1.5\x7d"

theorem dumpsText_smile : dumpsText smile = .ok smileText := by
  have htree : dumps smile = .ok [("input", .str "😀"), ("score", .float (.finite (3 / 2) "1.5"))] := rfl
  have hspell : spell (.obj [("input", .str "😀"), ("score", .float (.finite (3 / 2) "1.5"))]) =
      smileText.toList := by decide +kernel
  rw [dumpsText, htree, Except.map, hspell, String.ofList_toList]

theorem text_round_trip_smile : loadsText oneAndAHalf smileText = some (.dict (canonDict smile)) := by
  have hgenuine : Genuine oneAndAHalf (.dict smile) :=
    ⟨by decide, trivial, exact_oneAndAHalf "1.5", trivial, trivial, trivial⟩
  have hstate : IsState smile := .dict smile (by decide) (by decide)
    (List.forall_mem_cons.mpr ⟨.scalar _ rfl, List.forall_mem_singleton.mpr (.scalar _ rfl)⟩)
  exact (text_round_trip oneAndAHalf smile hgenuine _ dumpsText_smile).2.1 hstate

section Load

theorem loads_named (fields : JsonObject) : ∀ item ∈ loads fields, item.1.isStr = true := by
  rw [loads_eq]
  intro item hitem
  obtain ⟨field, _, rfl⟩ := List.mem_map.mp hitem
  rfl

mutual

/-- What was read can be written, and is read again with its keys sorted. -/
theorem encode_decode : ∀ x : Json, ∃ j, encode (decode x) = .ok j ∧ decode j = canon (decode x)
  | .null => ⟨.null, rfl, rfl⟩
  | .bool b => ⟨.bool b, rfl, rfl⟩
  | .int i => ⟨.int i, rfl, rfl⟩
  | .float x => ⟨.float x, rfl, rfl⟩
  | .str s => ⟨.str s, rfl, rfl⟩
  | .arr xs => by
    obtain ⟨js, hjs, hdecode⟩ := encodeList_ok (encode_decodeList xs)
    exact ⟨.arr js, by rw [decode, encode, hjs]; rfl, by rw [decode, decode, canon, hdecode]⟩
  | .obj fields => by
    obtain ⟨texts, hitems, hdecode⟩ := encodeItems_ok (loads_named fields) (encode_loads fields)
    refine ⟨.obj (sortFields texts), by rw [decode, encode, hitems, encodeObject_named]; rfl, ?_⟩
    rw [decode, decode, canon, loads_eq, ← sortFields_map, ← sortItems_named, hdecode]

theorem encode_decodeList : ∀ xs : List Json, ∀ v ∈ decodeList xs, ∃ j, encode v = .ok j ∧ decode j = canon v
  | [] => List.forall_mem_nil _
  | x :: xs => List.forall_mem_cons.mpr ⟨encode_decode x, encode_decodeList xs⟩

theorem encode_loads : ∀ fields : JsonObject, ∀ item ∈ loads fields,
    ∃ j, encode item.2 = .ok j ∧ decode j = canon item.2
  | [] => List.forall_mem_nil _
  | (_, v) :: fields => List.forall_mem_cons.mpr ⟨encode_decode v, encode_loads fields⟩

end

theorem nodup_loads {fields : JsonObject} (h : (fields.map Prod.fst).Nodup) :
    ((loads fields).map Prod.fst).Nodup := by
  have hkeys : (loads fields).map Prod.fst = (fields.map Prod.fst).map Key.str := by
    rw [loads_eq, named, List.map_map, List.map_map, List.map_map]
    rfl
  rw [hkeys]
  exact h.map fun _ _ => Key.str.inj

mutual

theorem genuine_decode : ∀ x : Json, Readable float x → Genuine float (decode x)
  | .null, _ => trivial
  | .bool _, _ => trivial
  | .int _, _ => trivial
  | .float _, h => h
  | .str _, _ => trivial
  | .arr xs, h => genuine_decodeList xs h
  | .obj fields, h => ⟨nodup_loads h.1, genuine_loads fields h.2⟩

theorem genuine_decodeList : ∀ xs : List Json, ReadableList float xs → GenuineList float (decodeList xs)
  | [], _ => trivial
  | x :: xs, h => ⟨genuine_decode x h.1, genuine_decodeList xs h.2⟩

theorem genuine_loads : ∀ fields : JsonObject, ReadableFields float fields → GenuineItems float (loads fields)
  | [], _ => trivial
  | (_, v) :: fields, h => ⟨trivial, genuine_decode v h.1, genuine_loads fields h.2⟩

end

end Load

/-- Whatever text is loaded, its value can be dumped, and loading what was
dumped gives the value again, with the keys of every dict sorted. -/
theorem loaded_again (float : String → PyFloat) (hfloat : Floats float) (text : String) (v : PyVal)
    (h : loadsText float text = some v) : ∃ j, encode v = .ok j ∧
      loadsText float (String.ofList (spell j)) = some (canon v) ∧ ∀ c ∈ spell j, Printable c := by
  obtain ⟨x, hx, rfl⟩ := Option.map_eq_some_iff.mp h
  obtain ⟨n, rest, hread, _⟩ := read_iff.mp hx
  have hreadable : Readable float x := (readable_of_read hfloat n).1 _ _ _ hread
  obtain ⟨j, hj, hcanon⟩ := encode_decode x
  have hagain : Readable float j := readable_encode _ j (genuine_decode x hreadable) hj
  refine ⟨j, hj, ?_, printable_spell j hagain⟩
  rw [loadsText, read_spell hagain, Option.map_some, hcanon]

/-- A text with spaces, a key that comes twice and a float that is written otherwise. -/
theorem loaded_again_spaced : ∃ v j,
    loadsText oneAndAHalf "[ \x7b\"k\" : [], \"k\":1.50 \x7d\n, null ]" = some v ∧ encode v = .ok j ∧
      loadsText oneAndAHalf (String.ofList (spell j)) = some (canon v) := by
  have hloaded : (loadsText oneAndAHalf "[ \x7b\"k\" : [], \"k\":1.50 \x7d\n, null ]").isSome = true := by
    decide +kernel
  obtain ⟨v, hv⟩ := Option.isSome_iff_exists.mp hloaded
  obtain ⟨j, hj, hagain, _⟩ := loaded_again oneAndAHalf exact_oneAndAHalf _ v hv
  exact ⟨v, j, hv, hj, hagain⟩

end NoblePort.StoredText
