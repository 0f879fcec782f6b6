import NoblePort.JsonStates
import NoblePort.Serial

/-!
# What a checkpoint keeps of a state

`put` stores `json.dumps(state, default=str, sort_keys=True)` and `get_latest`
gives back `json.loads` of it. The state that comes back is compared with the
one that went in as Python compares them. The column gives back the text that
was stored, as SQLite's TEXT does; jsonb spells some numbers anew (1e23 comes
back as an int).
-/
namespace NoblePort.RoundTrip

open Coroutine NoblePort.Values NoblePort.Store NoblePort.Records NoblePort.System

inductive Number where
  | rat (q : Rat) | nan | inf | negInf
  deriving DecidableEq, Repr

/-- Numbers are compared by value: `True == 1 == 1.0`. -/
def number : PyVal → Option Number
  | .bool b => some (.rat (if b then 1 else 0))
  | .int i => some (.rat i)
  | .float (.finite val _) => some (.rat val)
  | .float .nan => some .nan
  | .float .inf => some .inf
  | .float .negInf => some .negInf
  | _ => none

/-- A NaN counts as itself. An object is none of the values that `json.loads` makes. -/
def eqScalar : PyVal → PyVal → Bool
  | .none, .none => true
  | .str s, .str s' => s == s'
  | v, v' =>
    match number v, number v' with
    | some x, some y => x == y
    | _, _ => false

def eqKey (k k' : Key) : Bool := eqScalar k.toVal k'.toVal

/-- `d.get(k)`. -/
def lookup (k : Key) : Dict → Option PyVal
  | [] => none
  | (k', v) :: d => if eqKey k k' then some v else lookup k d

mutual

/-- `v == v'`: a list is no tuple, and a dict is a finite map. -/
def eq : PyVal → PyVal → Bool
  | .list xs, .list ys => eqList xs ys
  | .tuple xs, .tuple ys => eqList xs ys
  | .dict items, .dict items' => items.length == items'.length && eqItems items items'
  | v, v' => eqScalar v v'

def eqList : List PyVal → List PyVal → Bool
  | [], [] => true
  | x :: xs, y :: ys => eq x y && eqList xs ys
  | _, _ => false

def eqItems : Dict → Dict → Bool
  | [], _ => true
  | (k, v) :: items, items' =>
    (match lookup k items' with
      | some v' => eq v v'
      | none => false) && eqItems items items'

end

mutual

/-- Only string keys, and neither a tuple nor an object, at any level. -/
def plain : PyVal → Bool
  | .list xs => plainList xs
  | .dict items => plainItems items
  | .tuple _ | .obj _ _ | .cycle => false
  | _ => true

def plainList : List PyVal → Bool
  | [] => true
  | x :: xs => plain x && plainList xs

def plainItems : Dict → Bool
  | [] => true
  | (k, v) :: items => k.isStr && plain v && plainItems items

end

mutual

/-- Every dict in the value has each string key once. -/
def Distinct : PyVal → Prop
  | .list xs | .tuple xs => DistinctList xs
  | .dict items => ((items.map Prod.fst).filter Key.isStr).Nodup ∧ DistinctItems items
  | _ => True

def DistinctList : List PyVal → Prop
  | [] => True
  | x :: xs => Distinct x ∧ DistinctList xs

def DistinctItems : Dict → Prop
  | [] => True
  | (_, v) :: items => Distinct v ∧ DistinctItems items

end

/-- A state dict as Python has it, with no surrogate code point in its strings:
a pair of them, in two characters, would come back as one character. -/
structure State where
  items : Dict
  distinct : Distinct (.dict items)

theorem encodeItems_eq (items : Dict) :
    encodeItems items = items.map fun item => (item.1, encode item.2) := by
  induction items with
  | nil => rfl
  | cons item items ih => simp [encodeItems, ih]

theorem ok_of_bind {α β : Type} {r : Except Exc α} {f : α → Except Exc β} {b : β}
    (h : (r >>= f) = .ok b) : ∃ a, r = .ok a ∧ f a = .ok b := by
  cases r with
  | error e => cases h
  | ok a => exact ⟨a, rfl, h⟩

theorem ok_of_map {α β : Type} {r : Except Exc α} {f : α → β} {b : β} (h : r.map f = .ok b) :
    ∃ a, r = .ok a ∧ f a = b := by
  cases r with
  | error e => cases h
  | ok a => exact ⟨a, rfl, Except.ok.inj h⟩

/-- Every item is written under the text of its key. -/
theorem encodeFields_ok {items : List (Key × Except Exc Json)} {fields : JsonObject}
    (h : encodeFields items = .ok fields) :
    List.Forall₂ (fun item field => item.1.text = .ok field.1 ∧ item.2 = .ok field.2) items fields := by
  induction items generalizing fields with
  | nil =>
    cases h
    exact .nil
  | cons item items ih =>
    obtain ⟨k, r⟩ := item
    rw [encodeFields] at h
    obtain ⟨key, hkey, h⟩ := ok_of_bind h
    obtain ⟨value, hvalue, h⟩ := ok_of_bind h
    obtain ⟨rest, hrest, h⟩ := ok_of_bind h
    cases h
    exact .cons ⟨hkey, hvalue⟩ (ih hrest)

/-- String keys are written as they are. -/
theorem keys_of_fields {items : List (Key × Except Exc Json)} {fields : JsonObject}
    (h : List.Forall₂ (fun item field => item.1.text = .ok field.1 ∧ item.2 = .ok field.2) items fields)
    (hstr : ∀ item ∈ items, item.1.isStr = true) :
    items.map Prod.fst = (fields.map Prod.fst).map Key.str := by
  induction h with
  | nil => rfl
  | @cons item field items fields hfield _ ih =>
    obtain ⟨k, r⟩ := item
    have hk : k.isStr = true := hstr (k, r) (List.mem_cons_self ..)
    have hrest := ih fun item hitem => hstr item (List.mem_cons_of_mem _ hitem)
    cases k with
    | str s =>
      have hs : s = field.1 := Except.ok.inj hfield.1
      simp [hs, hrest]
    | _ => cases hk

/-- Where keys can be sorted, one string key is among string keys only. -/
theorem isStr_of_sortable {keys : List Key} {s : String} (h : sortable keys = true)
    (hs : .str s ∈ keys) : ∀ k ∈ keys, k.isStr = true := by
  simp only [sortable, Bool.or_eq_true, decide_eq_true_eq, List.all_eq_true] at h
  rcases h with (hone | hstr) | hnumber
  · obtain ⟨k, rfl⟩ := List.length_eq_one_iff.mp
      (Nat.le_antisymm hone (List.length_pos_of_mem hs))
    simp only [List.mem_singleton] at hs ⊢
    rintro k' rfl
    rw [← hs]
    rfl
  · exact hstr
  · cases hnumber _ hs

@[simp] theorem eqKey_str (s s' : String) : eqKey (.str s) (.str s') = (s == s') := rfl

theorem eqKey_other {k : Key} (h : k.isStr = false) (s : String) : eqKey k (.str s) = false := by
  cases k with
  | str s' => cases h
  | float x => cases x <;> rfl
  | _ => rfl

theorem lookup_other {k : Key} (h : k.isStr = false) (fields : JsonObject) :
    lookup k (loads fields) = none := by
  induction fields with
  | nil => rfl
  | cons field fields ih => simp [loads, lookup, eqKey_other h, ih]

theorem lookup_str {s : String} {j : Json} {fields : JsonObject} (hnodup : (fields.map Prod.fst).Nodup)
    (h : (s, j) ∈ fields) : lookup (.str s) (loads fields) = some (decode j) := by
  induction fields with
  | nil => cases h
  | cons field fields ih =>
    obtain ⟨s', j'⟩ := field
    rw [List.map_cons, List.nodup_cons] at hnodup
    rcases List.mem_cons.mp h with heq | hmem
    · cases heq
      simp [loads, lookup]
    · have hne : s ≠ s' := by
        rintro rfl
        exact hnodup.1 (List.mem_map.mpr ⟨_, hmem, rfl⟩)
      simpa [loads, lookup, hne] using ih hnodup.2 hmem

/-- The value under `k` has a text, and what it spells is found under the same
key if that is a string. -/
def Found (fields : JsonObject) (item : Key × PyVal) : Prop :=
  ∃ j, encode item.2 = .ok j ∧
    lookup item.1 (loads fields) = if item.1.isStr then some (decode j) else none

theorem found {items : Dict} {fields : JsonObject} (h : encodeObject (encodeItems items) = .ok fields)
    (hnodup : ((items.map Prod.fst).filter Key.isStr).Nodup) :
    fields.length = items.length ∧ ∀ item ∈ items, Found fields item := by
  have hkeys : (encodeItems items).map Prod.fst = items.map Prod.fst := by
    simp [encodeItems_eq]
  unfold encodeObject at h
  rw [hkeys] at h
  split at h
  case isFalse => cases h
  rename_i hsortable
  have hfields := encodeFields_ok h
  have hperm : (sortItems (encodeItems items)).Perm (encodeItems items) := List.perm_insertionSort _ _
  refine ⟨?_, ?_⟩
  · rw [← hfields.length_eq, hperm.length_eq, encodeItems_eq, List.length_map]
  · rintro ⟨k, v⟩ hitem
    have hmem : (k, encode v) ∈ sortItems (encodeItems items) := by
      rw [hperm.mem_iff, encodeItems_eq]
      exact List.mem_map.mpr ⟨_, hitem, rfl⟩
    obtain ⟨i, hi, hget⟩ := List.getElem_of_mem hmem
    have hi' : i < fields.length := hfields.length_eq ▸ hi
    have hfield := List.forall₂_iff_get.mp hfields |>.2 i hi hi'
    simp only [List.get_eq_getElem, hget] at hfield
    obtain ⟨htext, hvalue⟩ := hfield
    refine ⟨fields[i].2, hvalue, ?_⟩
    cases hk : k.isStr with
    | false => simpa using lookup_other hk fields
    | true =>
      cases k with
      | str s =>
        have hall := isStr_of_sortable hsortable (List.mem_map.mpr ⟨_, hitem, rfl⟩)
        have hs : s = fields[i].1 := Except.ok.inj htext
        have hsorted : ((sortItems (encodeItems items)).map Prod.fst).Perm (items.map Prod.fst) :=
          hkeys ▸ hperm.map Prod.fst
        have hstr : ∀ item ∈ sortItems (encodeItems items), item.1.isStr = true :=
          fun item hitem => hall _ (hsorted.mem_iff.mp (List.mem_map_of_mem hitem))
        rw [List.filter_eq_self.mpr hall, ← hsorted.nodup_iff, keys_of_fields hfields hstr] at hnodup
        rw [if_pos rfl]
        refine lookup_str (List.Nodup.of_map _ hnodup) ?_
        rw [hs]
        exact List.getElem_mem hi'
      | _ => cases hk

mutual

/-- What comes back equals what went in just when that was plain. -/
theorem eq_decode : ∀ (v : PyVal) (j : Json), Distinct v → encode v = .ok j → eq v (decode j) = plain v
  | .none, _, _, h => by cases h; rfl
  | .bool b, _, _, h => by cases h; simp [decode, eq, eqScalar, number, plain]
  | .int i, _, _, h => by cases h; simp [decode, eq, eqScalar, number, plain]
  | .float x, _, _, h => by cases h; cases x <;> simp [decode, eq, eqScalar, number, plain]
  | .str s, _, _, h => by cases h; simp [decode, eq, eqScalar, plain]
  | .list xs, j, hv, h => by
    rw [encode] at h
    obtain ⟨js, hjs, rfl⟩ := ok_of_map h
    simpa [decode, eq, plain] using eqList_decode xs js (by simpa [Distinct] using hv) hjs
  | .tuple xs, j, _, h => by
    rw [encode] at h
    obtain ⟨js, _, rfl⟩ := ok_of_map h
    rfl
  | .dict items, j, hv, h => by
    rw [encode] at h
    obtain ⟨fields, hfields, rfl⟩ := ok_of_map h
    simp only [Distinct] at hv
    obtain ⟨hlength, hfound⟩ := found hfields hv.1
    have hloads : (loads fields).length = items.length := by
      rw [← hlength, JsonStates.loads_eq]
      simp [JsonStates.named]
    simpa [decode, eq, plain, hloads] using eqItems_decode items fields hv.2 hfound
  | .obj _ str, j, _, h => by
    cases str with
    | error e => cases h
    | ok s => cases h; rfl
  | .cycle, _, _, h => by cases h

theorem eqList_decode : ∀ (xs : List PyVal) (js : List Json), DistinctList xs → encodeList xs = .ok js →
    eqList xs (decodeList js) = plainList xs
  | [], _, _, h => by cases h; rfl
  | x :: xs, js, hv, h => by
    rw [encodeList] at h
    obtain ⟨j, hj, h⟩ := ok_of_bind h
    obtain ⟨rest, hrest, h⟩ := ok_of_bind h
    cases h
    rw [decodeList, eqList, plainList, eq_decode x j hv.1 hj, eqList_decode xs rest hv.2 hrest]

theorem eqItems_decode : ∀ (items : Dict) (fields : JsonObject), DistinctItems items →
    (∀ item ∈ items, Found fields item) → eqItems items (loads fields) = plainItems items
  | [], _, _, _ => rfl
  | (k, v) :: items, fields, hv, h => by
    obtain ⟨j, hj, hfound⟩ := h (k, v) (List.mem_cons_self ..)
    have hrest := eqItems_decode items fields hv.2 fun item hitem => h item (List.mem_cons_of_mem _ hitem)
    rw [eqItems, plainItems, hfound, hrest]
    cases hk : k.isStr with
    | false => simp
    | true => simp [eq_decode v j hv.1 hj]

end

/-- A statement that violates a constraint raises and stores nothing. -/
theorem alone_refused {st : Stmt} {w : World} (h : w.violates st = true) :
    alone (.execute st) w = (.error (.exception .integrityError "constraint failed"), w) := by
  simp [alone, Interp.entry, Interp.settle, interp, World.answer, h]

/-- A `put` by itself raises and leaves the store as it was, or adds the text of the state. -/
theorem call_put (db : Dialect) (t : String) (state : Dict) (parent cid : Option String) (uuid : String)
    (w : World) :
    (∃ e, call (PostgresCheckpointer.put db t state parent cid uuid) w = (.error e, w)) ∨
    ∃ text, dumps state = .ok text ∧ call (PostgresCheckpointer.put db t state parent cid uuid) w =
      (.ok ⟨t, pyOr cid uuid, parent, state⟩,
        w.apply (.insertCheckpoint (db = .postgres) ⟨t, pyOr cid uuid, parent, text⟩)) := by
  have hdumps : alone (.jsonDumps state) w = (dumps state, w) := rfl
  unfold call PostgresCheckpointer.put
  rw [Prog.run_bind, Prog.run_call, hdumps]
  cases htext : dumps state with
  | error e => exact .inl ⟨e, rfl⟩
  | ok text =>
    cases hv : w.violates (.insertCheckpoint (db = .postgres) ⟨t, pyOr cid uuid, parent, text⟩) with
    | false =>
      refine .inr ⟨text, rfl, ?_⟩
      simp [Prog.run_bind, Prog.run_call, Serial.alone_execute hv]
    | true =>
      refine .inl ⟨.exception .integrityError "constraint failed", ?_⟩
      simp [Prog.run_bind, Prog.run_call, alone_refused hv]

/-- What an added row reads back as. -/
theorem checkpoints_insert (w : World) (jsonb : Bool) (row : CheckpointRow) :
    (w.apply (.insertCheckpoint jsonb row)).checkpoints row.threadId =
      w.checkpoints row.threadId ++ [row] := by
  simp [World.apply, World.checkpoints]

/-- Either `put` raises and stores nothing, or it hands the state on, and until
the thread gets another checkpoint the latest one and the last of the list hold
a state that equals it just when it was plain. The strings of the state, its
keys and those `str` makes of its objects have no surrogates. -/
theorem put_keeps_plain (db : Dialect) (t : String) (s : State) (parent cid : Option String)
    (uuid : String) (w : World) :
    (∃ e, call (PostgresCheckpointer.put db t s.items parent cid uuid) w = (.error e, w)) ∨
    ∃ w' latest earlier,
      call (PostgresCheckpointer.put db t s.items parent cid uuid) w =
        (.ok ⟨t, pyOr cid uuid, parent, s.items⟩, w') ∧
      (∀ later : World, later.checkpoints t = w'.checkpoints t →
        call (PostgresCheckpointer.getLatest t) later = (.ok (some latest), later) ∧
        call (PostgresCheckpointer.listAll t) later = (.ok (earlier ++ [latest]), later)) ∧
      eq (.dict s.items) (.dict latest.state) = plain (.dict s.items) := by
  rcases call_put db t s.items parent cid uuid w with hraise | ⟨text, htext, hput⟩
  · exact .inl hraise
  · have hrows := checkpoints_insert w (db = .postgres) ⟨t, pyOr cid uuid, parent, text⟩
    refine .inr ⟨_, .ofRow ⟨t, pyOr cid uuid, parent, text⟩,
      (w.checkpoints t).map CheckpointTuple.ofRow, hput, fun later hlater => ?_, ?_⟩
    · rw [hrows] at hlater
      rw [call_getLatest, call_listAll, hlater]
      simp
    · refine eq_decode (.dict s.items) (.obj text) s.distinct ?_
      change (dumps s.items).map Json.obj = _
      rw [htext]
      rfl

/-- A state with a tuple in it. -/
def windowed : State where
  items := [(.str "window", .tuple [.int 1, .int 2])]
  distinct := by
    simp [Distinct, DistinctItems, DistinctList]
    decide

/-- It is stored, and a list comes back. -/
theorem tuple_comes_back_as_list :
    ∃ w' latest,
      call (PostgresCheckpointer.put .sqlite "t" windowed.items none none "c") World.empty =
        (.ok ⟨"t", "c", none, windowed.items⟩, w') ∧
      call (PostgresCheckpointer.getLatest "t") w' = (.ok (some latest), w') ∧
      latest.state = [(.str "window", .list [.int 1, .int 2])] ∧
      eq (.dict windowed.items) (.dict latest.state) = false :=
  ⟨_, ⟨"t", "c", none, [(.str "window", .list [.int 1, .int 2])]⟩, rfl, rfl, rfl, rfl⟩

end NoblePort.RoundTrip
