import NoblePort.Values

/-!
# JSON states

The states that `json.dumps` and `json.loads` carry over: dicts with distinct
string keys and JSON values. Two of them are the same finite map when they are
equal with the keys sorted at every level, which is what comes back.
-/
namespace NoblePort.JsonStates

open NoblePort.Values

variable {β γ : Type}

def isScalar : PyVal → Bool
  | .none | .bool _ | .int _ | .str _ | .float (.finite _ _) => true
  | _ => false

inductive IsJson : PyVal → Prop
  | scalar (v : PyVal) : isScalar v = true → IsJson v
  | list (xs : List PyVal) : (∀ x ∈ xs, IsJson x) → IsJson (.list xs)
  | dict (items : Dict) : (∀ item ∈ items, item.1.isStr = true) → (items.map Prod.fst).Nodup →
      (∀ item ∈ items, IsJson item.2) → IsJson (.dict items)

abbrev IsState (s : Dict) : Prop := IsJson (.dict s)

mutual

/-- The value with the keys of every dict sorted. -/
def canon : PyVal → PyVal
  | .list xs => .list (canonList xs)
  | .dict items => .dict (sortItems (canonItems items))
  | v => v

def canonList : List PyVal → List PyVal
  | [] => []
  | x :: xs => canon x :: canonList xs

def canonItems : Dict → Dict
  | [] => []
  | (k, v) :: items => (k, canon v) :: canonItems items

end

def canonDict (s : Dict) : Dict := sortItems (canonItems s)

/-- The same finite map, and so for the dicts inside. -/
def Same (s s' : Dict) : Prop := canonDict s = canonDict s'

theorem canonList_eq (xs : List PyVal) : canonList xs = xs.map canon := by
  induction xs with
  | nil => rfl
  | cons x xs ih => rw [canonList, ih, List.map_cons]

theorem canonItems_eq (items : Dict) : canonItems items = items.map fun item => (item.1, canon item.2) := by
  induction items with
  | nil => rfl
  | cons item items ih => rw [canonItems, ih, List.map_cons]

theorem canon_scalar {v : PyVal} (h : isScalar v = true) : canon v = v := by
  cases v <;> first | rfl | cases h

/-- Items under string keys. -/
def named (fields : List (String × β)) : List (Key × β) := fields.map fun x => (.str x.1, x.2)

def sortFields (fields : List (String × β)) : List (String × β) :=
  fields.insertionSort fun a b => a.1 ≤ b.1

theorem exists_named {items : List (Key × β)} (h : ∀ item ∈ items, item.1.isStr = true) :
    ∃ fields, items = named fields := by
  induction items with
  | nil => exact ⟨[], rfl⟩
  | cons item items ih =>
    obtain ⟨fields, rfl⟩ := ih fun item hitem => h item (List.mem_cons_of_mem _ hitem)
    obtain ⟨k, v⟩ := item
    have hk : k.isStr = true := h (k, v) (List.mem_cons_self ..)
    cases k with
    | str key => exact ⟨(key, v) :: fields, rfl⟩
    | _ => cases hk

theorem sortItems_named (fields : List (String × β)) :
    sortItems (named fields) = named (sortFields fields) := by
  refine (List.map_insertionSort _ _ _ fields ?_).symm
  intro a _ b _
  simp [Key.le]

theorem sortItems_map (f : β → γ) (items : List (Key × β)) :
    sortItems (items.map fun item => (item.1, f item.2)) =
      (sortItems items).map fun item => (item.1, f item.2) := by
  refine (List.map_insertionSort _ _ _ items ?_).symm
  exact fun _ _ _ _ => Iff.rfl

theorem sortFields_sortFields (fields : List (String × β)) :
    sortFields (sortFields fields) = sortFields fields := by
  have hsorted : (sortFields fields).Pairwise (fun a b => a.1 ≤ b.1) :=
    @List.pairwise_insertionSort _ (fun a b : String × β => a.1 ≤ b.1) _
      ⟨fun a b => String.le_total a.1 b.1⟩ ⟨fun _ _ _ hab hbc => String.le_trans hab hbc⟩ fields
  exact hsorted.insertionSort_eq

theorem sortFields_map (f : β → γ) (fields : List (String × β)) :
    sortFields (fields.map fun x => (x.1, f x.2)) = (sortFields fields).map fun x => (x.1, f x.2) := by
  refine (List.map_insertionSort _ _ _ fields ?_).symm
  exact fun _ _ _ _ => Iff.rfl

theorem sortItems_sortItems {items : List (Key × β)} (h : ∀ item ∈ items, item.1.isStr = true) :
    sortItems (sortItems items) = sortItems items := by
  obtain ⟨fields, rfl⟩ := exists_named h
  rw [sortItems_named, sortItems_named, sortFields_sortFields]

theorem loads_eq (fields : JsonObject) : loads fields = named (fields.map fun x => (x.1, decode x.2)) := by
  induction fields with
  | nil => rfl
  | cons x fields ih =>
    rw [loads, ih]
    rfl

theorem encodeFields_named (fields : JsonObject) :
    encodeFields (named (fields.map fun x => (x.1, .ok x.2))) = .ok fields := by
  induction fields with
  | nil => rfl
  | cons x fields ih =>
    change encodeFields ((.str x.1, .ok x.2) :: named (fields.map fun x => (x.1, .ok x.2))) = _
    rw [encodeFields, ih]
    rfl

theorem encodeObject_named (fields : JsonObject) :
    encodeObject (named (fields.map fun x => (x.1, .ok x.2))) = .ok (sortFields fields) := by
  have hsortable : sortable ((named (fields.map fun x => (x.1, (.ok x.2 : Except Exc Json)))).map
      Prod.fst) = true := by
    simp [sortable, named, Key.isStr]
  rw [encodeObject, if_pos hsortable, sortItems_named, sortFields_map, encodeFields_named]

/-- Every value of the list goes to JSON and comes back canonical. -/
theorem encodeList_ok {xs : List PyVal} (h : ∀ x ∈ xs, ∃ j, encode x = .ok j ∧ decode j = canon x) :
    ∃ js, encodeList xs = .ok js ∧ decodeList js = canonList xs := by
  induction xs with
  | nil => exact ⟨[], rfl, rfl⟩
  | cons x xs ih =>
    obtain ⟨j, hj, hdecode⟩ := h x (List.mem_cons_self ..)
    obtain ⟨js, hjs, hrest⟩ := ih fun x hx => h x (List.mem_cons_of_mem _ hx)
    refine ⟨j :: js, ?_, by rw [decodeList, canonList, hdecode, hrest]⟩
    rw [encodeList, hj, hjs]
    rfl

theorem encodeItems_ok {items : Dict} (hstr : ∀ item ∈ items, item.1.isStr = true)
    (h : ∀ item ∈ items, ∃ j, encode item.2 = .ok j ∧ decode j = canon item.2) :
    ∃ fields : JsonObject, encodeItems items = named (fields.map fun x => (x.1, .ok x.2)) ∧
      named (fields.map fun x => (x.1, decode x.2)) = canonItems items := by
  induction items with
  | nil => exact ⟨[], rfl, rfl⟩
  | cons item items ih =>
    obtain ⟨k, v⟩ := item
    obtain ⟨j, hj, hdecode⟩ := h (k, v) (List.mem_cons_self ..)
    obtain ⟨fields, hitems, hrest⟩ := ih (fun item hitem => hstr item (List.mem_cons_of_mem _ hitem))
      fun item hitem => h item (List.mem_cons_of_mem _ hitem)
    have hk : k.isStr = true := hstr (k, v) (List.mem_cons_self ..)
    cases k with
    | str key =>
      refine ⟨(key, j) :: fields, ?_, ?_⟩
      · rw [encodeItems, hj, hitems]
        rfl
      · rw [canonItems, ← hdecode, ← hrest]
        rfl
    | _ => cases hk

/-- A JSON value goes to JSON, and comes back with its keys sorted. -/
theorem encode_ok {v : PyVal} (h : IsJson v) : ∃ j, encode v = .ok j ∧ decode j = canon v := by
  induction h with
  | scalar v hv =>
    cases v with
    | none => exact ⟨.null, rfl, rfl⟩
    | bool b => exact ⟨.bool b, rfl, rfl⟩
    | int i => exact ⟨.int i, rfl, rfl⟩
    | float x => exact ⟨.float x, rfl, rfl⟩
    | str s => exact ⟨.str s, rfl, rfl⟩
    | _ => cases hv
  | list xs _ ih =>
    obtain ⟨js, hjs, hdecode⟩ := encodeList_ok ih
    exact ⟨.arr js, by rw [encode, hjs]; rfl, by rw [decode, canon, hdecode]⟩
  | dict items hstr _ _ ih =>
    obtain ⟨fields, hitems, hdecode⟩ := encodeItems_ok hstr ih
    refine ⟨.obj (sortFields fields), by rw [encode, hitems, encodeObject_named]; rfl, ?_⟩
    rw [decode, canon, loads_eq, ← sortFields_map, ← sortItems_named, hdecode]

/-- `json.loads(json.dumps(s)) == s`. -/
theorem loads_dumps {s : Dict} (h : IsState s) : ∃ text, dumps s = .ok text ∧ loads text = canonDict s := by
  obtain ⟨j, hj, hdecode⟩ := encode_ok h
  change (dumps s).map Json.obj = _ at hj
  cases hd : dumps s with
  | error e =>
    rw [hd] at hj
    cases hj
  | ok text =>
    rw [hd] at hj
    cases hj
    exact ⟨text, rfl, PyVal.dict.inj hdecode⟩

mutual

theorem decode_injective : ∀ j j' : Json, decode j = decode j' → j = j'
  | .null, j', h => by cases j' <;> first | rfl | cases h
  | .bool b, j', h => by cases j' <;> cases h; rfl
  | .int i, j', h => by cases j' <;> cases h; rfl
  | .float x, j', h => by cases j' <;> cases h; rfl
  | .str s, j', h => by cases j' <;> cases h; rfl
  | .arr xs, j', h => by
    cases j' with
    | arr xs' => rw [decodeList_injective xs xs' (PyVal.list.inj h)]
    | _ => cases h
  | .obj fields, j', h => by
    cases j' with
    | obj fields' => rw [loads_injective fields fields' (PyVal.dict.inj h)]
    | _ => cases h

theorem decodeList_injective : ∀ xs xs' : List Json, decodeList xs = decodeList xs' → xs = xs'
  | [], xs', h => by cases xs' <;> first | rfl | cases h
  | x :: xs, xs', h => by
    cases xs' with
    | nil => cases h
    | cons x' xs' =>
      obtain ⟨hx, hxs⟩ := List.cons.inj h
      rw [decode_injective x x' hx, decodeList_injective xs xs' hxs]

theorem loads_injective : ∀ fields fields' : JsonObject, loads fields = loads fields' → fields = fields'
  | [], fields', h => by cases fields' <;> first | rfl | cases h
  | (k, j) :: fields, fields', h => by
    cases fields' with
    | nil => cases h
    | cons x' fields' =>
      obtain ⟨hx, hfields⟩ := List.cons.inj h
      obtain ⟨hk, hj⟩ := Prod.mk.inj hx
      rw [loads_injective fields fields' hfields, decode_injective j x'.2 hj, Key.str.inj hk]

end

/-- Two JSON states that are the same finite map have the same JSON text. -/
theorem Same.dumps_eq {s s' : Dict} (h : Same s s') (hs : IsState s) (hs' : IsState s') :
    dumps s = dumps s' := by
  obtain ⟨text, htext, hloads⟩ := loads_dumps hs
  obtain ⟨text', htext', hloads'⟩ := loads_dumps hs'
  have hsame : loads text = loads text' := hloads.trans (h.trans hloads'.symm)
  rw [htext, htext', loads_injective text text' hsame]

theorem mem_canonDict {s : Dict} {item : Key × PyVal} (h : item ∈ canonDict s) :
    ∃ v, (item.1, v) ∈ s ∧ item.2 = canon v := by
  rw [canonDict, sortItems, List.mem_insertionSort, canonItems_eq] at h
  obtain ⟨original, horiginal, rfl⟩ := List.mem_map.mp h
  exact ⟨original.2, horiginal, rfl⟩

theorem keys_canonItems (s : Dict) : (canonItems s).map Prod.fst = s.map Prod.fst := by
  rw [canonItems_eq, List.map_map]
  rfl

theorem keys_canonDict (s : Dict) : ((canonDict s).map Prod.fst).Perm (s.map Prod.fst) := by
  have hperm : (canonDict s).Perm (canonItems s) := List.perm_insertionSort _ _
  rw [← keys_canonItems s]
  exact hperm.map _

theorem isJson_canon {v : PyVal} (h : IsJson v) : IsJson (canon v) := by
  induction h with
  | scalar v hv =>
    rw [canon_scalar hv]
    exact .scalar v hv
  | list xs _ ih =>
    rw [canon, canonList_eq]
    refine .list _ fun y hy => ?_
    obtain ⟨x, hx, rfl⟩ := List.mem_map.mp hy
    exact ih x hx
  | dict items hstr hnodup _ ih =>
    refine .dict (canonDict items) (fun item hitem => ?_) ?_ fun item hitem => ?_
    · obtain ⟨v, hv, _⟩ := mem_canonDict hitem
      exact hstr (item.1, v) hv
    · exact (keys_canonDict items).nodup_iff.mpr hnodup
    · obtain ⟨v, hv, hcanon⟩ := mem_canonDict hitem
      rw [hcanon]
      exact ih (item.1, v) hv

theorem canon_canon {v : PyVal} (h : IsJson v) : canon (canon v) = canon v := by
  induction h with
  | scalar v hv => rw [canon_scalar hv, canon_scalar hv]
  | list xs _ ih =>
    rw [canon, canon, canonList_eq, canonList_eq, List.map_map]
    exact congrArg _ (List.map_congr_left ih)
  | dict items hstr _ _ ih =>
    have hitems : canonItems (canonItems items) = canonItems items := by
      rw [canonItems_eq, canonItems_eq, List.map_map]
      exact List.map_congr_left fun item hitem => by rw [Function.comp, ih item hitem]
    have hkeys : ∀ item ∈ canonItems items, item.1.isStr = true := by
      intro item hitem
      rw [canonItems_eq] at hitem
      obtain ⟨original, horiginal, rfl⟩ := List.mem_map.mp hitem
      exact hstr original horiginal
    rw [canon, canon, canonItems_eq (sortItems _), ← sortItems_map, ← canonItems_eq, hitems,
      sortItems_sortItems hkeys]

theorem same_canon {s : Dict} (h : IsState s) : Same (canonDict s) s := PyVal.dict.inj (canon_canon h)

theorem isState_canon {s : Dict} (h : IsState s) : IsState (canonDict s) := isJson_canon h

theorem truthy_canon (v : PyVal) : (canon v).truthy = v.truthy := by
  cases v with
  | list xs => rw [canon, canonList_eq]; cases xs <;> rfl
  | dict items =>
    have hlength : (canonDict items).length = items.length := by
      rw [canonDict, sortItems, List.length_insertionSort, canonItems_eq, List.length_map]
    have hempty : (canonDict items).isEmpty = items.isEmpty := by
      rw [Bool.eq_iff_iff, List.isEmpty_iff_length_eq_zero, List.isEmpty_iff_length_eq_zero, hlength]
    exact congrArg (!·) hempty
  | _ => rfl

/-- A key is looked up alike in any order of the items. -/
theorem get?_perm {d d' : Dict} (h : d.Perm d') (hnodup : (d.map Prod.fst).Nodup) (key : String) :
    Dict.get? d key = Dict.get? d' key := by
  induction h with
  | nil => rfl
  | cons item _ ih =>
    obtain ⟨k, v⟩ := item
    rw [Dict.get?_cons, Dict.get?_cons, ih (List.nodup_cons.mp hnodup).2]
  | swap item item' d =>
    obtain ⟨k, v⟩ := item
    obtain ⟨k', v'⟩ := item'
    have hne : k' ≠ k := by
      rintro rfl
      simp at hnodup
    by_cases hk : k = .str key
    · subst hk
      simp [hne]
    · simp [hk]
  | trans h₁ _ ih₁ ih₂ =>
    rw [ih₁ hnodup]
    exact ih₂ ((h₁.map _).nodup_iff.mp hnodup)

theorem get?_canonItems (s : Dict) (key : String) :
    Dict.get? (canonItems s) key = (Dict.get? s key).map canon := by
  induction s with
  | nil => rfl
  | cons item s ih =>
    obtain ⟨k, v⟩ := item
    rw [canonItems, Dict.get?_cons, Dict.get?_cons, ih]
    split <;> rfl

theorem get?_canon {s : Dict} (h : (s.map Prod.fst).Nodup) (key : String) :
    Dict.get? (canonDict s) key = (Dict.get? s key).map canon := by
  rw [← get?_canonItems]
  refine get?_perm (List.perm_insertionSort _ _) ?_ key
  exact (keys_canonDict s).nodup_iff.mpr h

theorem keys_nodup {s : Dict} (h : IsState s) : (s.map Prod.fst).Nodup := by
  cases h with
  | scalar v hv => cases hv
  | dict items _ hnodup _ => exact hnodup

theorem truthyAt_canon {s : Dict} (h : IsState s) (key : String) :
    Dict.truthyAt (canonDict s) key = Dict.truthyAt s key := by
  rw [Dict.truthyAt, get?_canon (keys_nodup h), Dict.truthyAt]
  cases Dict.get? s key with
  | none => rfl
  | some v => exact truthy_canon v

theorem Same.truthyAt_eq {s s' : Dict} (h : Same s s') (hs : IsState s) (hs' : IsState s') (key : String) :
    Dict.truthyAt s key = Dict.truthyAt s' key := by
  rw [← truthyAt_canon hs, ← truthyAt_canon hs', show canonDict s = canonDict s' from h]

/-- Assigning the value that is there changes nothing. -/
theorem set_self {d : Dict} {key : String} {v : PyVal} (h : Dict.get? d key = some v) :
    Dict.set d key v = d := by
  induction d with
  | nil => cases h
  | cons item d ih =>
    obtain ⟨k, u⟩ := item
    rw [Dict.get?_cons] at h
    by_cases hk : k = .str key
    · rw [if_pos hk] at h
      cases h
      rw [Dict.set, if_pos hk]
    · rw [if_neg hk] at h
      rw [Dict.set, if_neg hk, ih h]

end NoblePort.JsonStates
