import NoblePort.RoundTrip

/-!
# Payloads that cannot be encoded

`json.dumps` with the interpreter's recursion limit, the exception that ends it,
and `insert_audit` around it. `order` is how `sorted` arranges the items of a
dict, `limit` how many values may enclose one another, and `str` what `str(e)`
gives for an exception or raises.
-/
namespace NoblePort.Payload

open Coroutine NoblePort.Values NoblePort.Store NoblePort.Records NoblePort.System

def tooDeep : Exc := .exception .recursionError "maximum recursion depth exceeded"

def circular : Exc := .exception .valueError "Circular reference detected"

def unsortable : Exc := .exception .typeError "'<' not supported between instances of the keys"

section Encoder

variable (order : Dict → Dict)

def encodeMember (enc : PyVal → Except Exc Json) (item : Key × PyVal) : Except Exc (String × Json) := do
  let key ← item.1.text
  let value ← enc item.2
  return (key, value)

def encodeMembers (enc : PyVal → Except Exc Json) (items : Dict) : Except Exc JsonObject :=
  if sortable (items.map Prod.fst) then (order items).mapM (encodeMember enc) else .error unsortable

/-- Every container takes a level, and so does the text that `default` returns. -/
def encodeWithin : Nat → PyVal → Except Exc Json
  | _, .none => .ok .null
  | _, .bool b => .ok (.bool b)
  | _, .int i => .ok (.int i)
  | _, .float x => .ok (.float x)
  | _, .str s => .ok (.str s)
  | _, .obj _ (.error e) => .error e
  | 0, _ => .error tooDeep
  | limit + 1, .list xs => (xs.mapM (encodeWithin limit)).map .arr
  | limit + 1, .tuple xs => (xs.mapM (encodeWithin limit)).map .arr
  | limit + 1, .dict items => (encodeMembers order (encodeWithin limit) items).map .obj
  | _ + 1, .obj _ (.ok s) => .ok (.str s)
  | _ + 1, .cycle => .error circular

/-- `json.dumps(d, default=str, sort_keys=True)` with so many levels left. -/
def dumpsWithin : Nat → Dict → Except Exc JsonObject
  | 0, _ => .error tooDeep
  | limit + 1, d => encodeMembers order (encodeWithin order limit) d

/-- What is wrong with a key. -/
def keyTroubles (k : Key) : List Exc :=
  match k.text with
  | .ok _ => []
  | .error e => [e]

/-- The parts that have no JSON text, by what each raises, in the order in
which they are met. -/
def troubles : Nat → PyVal → List Exc
  | _, .none | _, .bool _ | _, .int _ | _, .float _ | _, .str _ => []
  | _, .obj _ (.error e) => [e]
  | 0, _ => [tooDeep]
  | limit + 1, .list xs => xs.flatMap (troubles limit)
  | limit + 1, .tuple xs => xs.flatMap (troubles limit)
  | limit + 1, .dict items =>
    if sortable (items.map Prod.fst) then
      (order items).flatMap fun item => keyTroubles item.1 ++ troubles limit item.2
    else [unsortable]
  | _ + 1, .obj _ (.ok _) => []
  | _ + 1, .cycle => [circular]

end Encoder

def raisedBy {α : Type} : Except Exc α → Option Exc
  | .ok _ => none
  | .error e => some e

@[simp] theorem raisedBy_ok {α : Type} (a : α) : raisedBy (.ok a) = none := rfl

@[simp] theorem raisedBy_error {α : Type} (e : Exc) : raisedBy (.error e : Except Exc α) = some e := rfl

@[simp] theorem raisedBy_map {α β : Type} (f : α → β) (r : Except Exc α) :
    raisedBy (r.map f) = raisedBy r := by
  cases r <;> rfl

theorem raisedBy_bind {α β : Type} (r : Except Exc α) (f : α → Except Exc β) :
    raisedBy (r >>= f) =
      match r with
      | .ok a => raisedBy (f a)
      | .error e => some e := by
  cases r <;> rfl

/-- A list is encoded up to its first trouble. -/
theorem raisedBy_mapM {α β : Type} (f : α → Except Exc β) (t : α → List Exc)
    (h : ∀ x, raisedBy (f x) = (t x).head?) (xs : List α) :
    raisedBy (xs.mapM f) = (xs.flatMap t).head? := by
  induction xs with
  | nil => rfl
  | cons x xs ih =>
    have hx := h x
    rw [List.mapM_cons, raisedBy_bind, List.flatMap_cons, List.head?_append, ← hx, ← ih]
    cases f x with
    | error e => rfl
    | ok y => cases xs.mapM f <;> rfl

theorem raisedBy_member {enc : PyVal → Except Exc Json} {t : PyVal → List Exc}
    (h : ∀ v, raisedBy (enc v) = (t v).head?) (item : Key × PyVal) :
    raisedBy (encodeMember enc item) = (keyTroubles item.1 ++ t item.2).head? := by
  have hv := h item.2
  rw [encodeMember, raisedBy_bind, keyTroubles]
  cases item.1.text with
  | error e => rfl
  | ok key =>
    rw [List.nil_append, ← hv]
    cases enc item.2 <;> rfl

variable (order : Dict → Dict)

/-- What the encoder raises is the first trouble of the value. -/
theorem raisedBy_encodeWithin (limit : Nat) (v : PyVal) :
    raisedBy (encodeWithin order limit v) = (troubles order limit v).head? := by
  induction limit generalizing v with
  | zero =>
    cases v with
    | obj truth text => cases text <;> simp [encodeWithin, troubles]
    | _ => simp [encodeWithin, troubles]
  | succ limit ih =>
    cases v with
    | list xs => simpa [encodeWithin, troubles] using raisedBy_mapM _ _ ih xs
    | tuple xs => simpa [encodeWithin, troubles] using raisedBy_mapM _ _ ih xs
    | dict items =>
      simp only [encodeWithin, troubles, raisedBy_map, encodeMembers]
      split
      · exact raisedBy_mapM _ _ (raisedBy_member ih) _
      · rfl
    | obj truth text => cases text <;> simp [encodeWithin, troubles]
    | _ => simp [encodeWithin, troubles]

theorem dumpsWithin_eq (limit : Nat) (d : Dict) :
    (dumpsWithin order limit d).map .obj = encodeWithin order limit (.dict d) := by
  cases limit <;> simp [dumpsWithin, encodeWithin, Except.map]

/-- How the database fails: the exception, and whether the statement took effect all the same. -/
structure Failure where
  cls : ErrorClass
  text : String
  landed : Bool

def Failure.choice (failure : Option Failure) : Choice :=
  { fault := failure.map fun f => (.exception f.cls f.text, f.landed) }

/-- Calls are answered at once, the encoder with its limit and the database with the failure. -/
def answerWithin (limit : Nat) (failure : Option Failure) :
    (op : Op) → World → Except Exc op.Resp × World
  | .jsonDumps d, w => (dumpsWithin order limit d, w)
  | op, w =>
    let entry := interp.entry (Failure.choice failure) w op
    (entry.result, interp.settle w entry)

/-- The audit row that stands for the record. -/
def rowOf (record : AuditRecord) (text : JsonObject) : AuditRow :=
  ⟨record.id, record.eventType, text, record.threadId, record.message, record.createdAt⟩

/-- The record is returned with its one row stored, or AuditError is raised and
nothing is stored, the database's own failure after the fact excepted. -/
def Audited (limit : Nat) (failure : Option Failure) (record : AuditRecord) (w : World) :
    Except Exc AuditRecord × World → Prop
  | (.ok r, w') => r = record ∧ ∃ text, dumpsWithin order limit record.payload = .ok text ∧
      w' = { w with auditLog := w.auditLog ++ [rowOf record text] }
  | (.error e, w') => (∃ s, e = .exception .auditError s) ∧
      (w' = w ∨ ∃ f, failure = some f ∧ f.landed = true)

def isAuditError : Exc → Bool
  | .exception .auditError _ => true
  | _ => false

/-- An AuditError can spell this exception out: its `__str__` gives a text, or
raises an AuditError itself. -/
def spelled (str : Exc → Except Exc String) (e : Exc) : Bool :=
  match str e with
  | .ok _ => true
  | .error e' => isAuditError e'

/-- `insert_audit` does not make an AuditError of this one of `json.dumps`. -/
def escapes (str : Exc → Except Exc String) (e : Exc) : Bool :=
  match e with
  | .exception .typeError _ | .exception .valueError _ => !spelled str e
  | e => !isAuditError e

/-- The first part of the payload without a JSON text is an object whose
`__str__` raises anything else than a TypeError, a ValueError or an AuditError,
or a value that lies too deep, or it raises one that cannot be spelled out. -/
def Foul (str : Exc → Except Exc String) (limit : Nat) (payload : Dict) : Prop :=
  ∃ e ∈ (troubles order limit (.dict payload)).head?, escapes str e = true

/-- What the database raises in answer to an INSERT under this id. -/
def refusal (failure : Option Failure) (id : String) (w : World) : Option Exc :=
  match failure with
  | some f => some (.exception f.cls f.text)
  | none =>
    if w.auditLog.any fun row => row.id == id then
      some (.exception .integrityError "constraint failed")
    else none

/-- The payload has a text, and what the database raises cannot be spelled out. -/
def Unspelled (str : Exc → Except Exc String) (limit : Nat) (failure : Option Failure) (payload : Dict)
    (id : String) (w : World) : Prop :=
  troubles order limit (.dict payload) = [] ∧ ∃ e ∈ refusal failure id w, spelled str e = false

theorem raisedBy_dumpsWithin (limit : Nat) (d : Dict) :
    raisedBy (dumpsWithin order limit d) = (troubles order limit (.dict d)).head? := by
  rw [← raisedBy_encodeWithin, ← dumpsWithin_eq, raisedBy_map]

/-- What the insertion does: it takes effect, or the database raises. -/
theorem answer_insert (limit : Nat) (failure : Option Failure) (jsonb : Bool) (row : AuditRow) (w : World) :
    (refusal failure row.id w = none ∧
      answerWithin order limit failure (.execute (.insertAuditLog jsonb row)) w =
        (.ok (), { w with auditLog := w.auditLog ++ [row] })) ∨
      ∃ cls s w', refusal failure row.id w = some (.exception cls s) ∧
        answerWithin order limit failure (.execute (.insertAuditLog jsonb row)) w =
          (.error (.exception cls s), w') ∧ (w' = w ∨ ∃ f, failure = some f ∧ f.landed = true) := by
  cases failure with
  | none =>
    cases hv : w.violates (.insertAuditLog jsonb row) with
    | true =>
      exact .inr ⟨.integrityError, "constraint failed", w, if_pos hv, by
        simp [answerWithin, Interp.entry, Interp.settle, interp, World.answer, hv, Failure.choice], .inl rfl⟩
    | false =>
      refine .inl ⟨if_neg (by simpa [World.violates] using hv), ?_⟩
      simp [answerWithin, Interp.entry, Interp.settle, interp, World.answer, World.effect, World.apply, hv,
        Choice.strike, Failure.choice]
  | some f =>
    refine .inr ⟨f.cls, f.text, interp.settle w (interp.entry (Failure.choice (some f)) w
      (.execute (.insertAuditLog jsonb row))), rfl, ?_, ?_⟩
    · cases hv : w.violates (.insertAuditLog jsonb row) <;>
        simp [answerWithin, Interp.entry, interp, World.answer, hv, Choice.strike, Failure.choice]
    · cases hl : f.landed with
      | true => exact .inr ⟨f, rfl, hl⟩
      | false =>
        left
        cases hv : w.violates (.insertAuditLog jsonb row) <;>
          simp [Interp.entry, Interp.settle, interp, World.answer, hv, Choice.strike, Failure.choice, hl]

/-- What is raised from an exception is an AuditError just when that can be spelled out. -/
theorem run_raiseAuditError {α : Type} (str : Exc → Except Exc String) (limit : Nat)
    (failure : Option Failure) (e : Exc) (message : String → String) (w : World) :
    ∃ e', (raiseAuditError str e message : Async α).run (answerWithin order limit failure) w =
        (.error e', w) ∧ (spelled str e = true ↔ ∃ s, e' = .exception .auditError s) := by
  unfold raiseAuditError spelled
  rw [Prog.run_bind]
  cases str e with
  | ok s => exact ⟨_, rfl, by simp⟩
  | error e' =>
    refine ⟨e', rfl, ?_⟩
    cases e' with
    | cancelled => simp [isAuditError]
    | exception cls s => cases cls <;> simp [isAuditError]

section Insert

variable (str : Exc → Except Exc String) (db : Dialect) (limit : Nat) (failure : Option Failure)
  (eventType : String) (payload : Dict) (threadId message auditId : Option String) (uuid now : String)
  (w : World)

/-- Where the payload has a text, what the database raises decides. -/
theorem audited_iff_of_text {text : JsonObject} (htext : dumpsWithin order limit payload = .ok text) :
    Audited order limit failure ⟨pyOr auditId uuid, eventType, payload, threadId, message, now⟩ w
      ((insertAuditWith str db eventType payload threadId message auditId uuid now).run
        (answerWithin order limit failure) w) ↔
      ¬ ∃ e ∈ refusal failure (pyOr auditId uuid) w, spelled str e = false := by
  have hdumps : answerWithin order limit failure (.jsonDumps payload) w = (.ok text, w) := by
    rw [← htext]
    rfl
  rcases answer_insert order limit failure (db = .postgres)
    ⟨pyOr auditId uuid, eventType, text, threadId, message, now⟩ w with
    ⟨hnone, hok⟩ | ⟨cls, s, w', hsome, herror, hw⟩
  · simp only [insertAuditWith, Prog.run_bind, Prog.run_tryExcept, Prog.run_call, hdumps, hok,
      Prog.run_pure]
    rw [show refusal failure (pyOr auditId uuid) w = none from hnone]
    exact iff_of_true ⟨rfl, text, htext, rfl⟩ (by simp)
  · obtain ⟨e', hrun, hspelled⟩ := run_raiseAuditError (α := Unit) order str limit failure
      (.exception cls s) (fun s => s!"failed to insert audit record: {s}") w'
    simp only [insertAuditWith, Prog.run_bind, Prog.run_tryExcept, Prog.run_call, hdumps, herror, hrun]
    rw [show refusal failure (pyOr auditId uuid) w = some (.exception cls s) from hsome]
    simp only [Option.mem_some_iff, exists_eq_left', Bool.not_eq_false, hspelled]
    exact ⟨fun h => h.1, fun h => ⟨h, hw⟩⟩

/-- Where it has none, what the encoder raises decides. -/
theorem run_of_trouble {e : Exc} (he : dumpsWithin order limit payload = .error e) :
    ∃ e', (insertAuditWith str db eventType payload threadId message auditId uuid now).run
        (answerWithin order limit failure) w = (.error e', w) ∧
      (escapes str e = false ↔ ∃ s, e' = .exception .auditError s) := by
  have hdumps : answerWithin order limit failure (.jsonDumps payload) w = (.error e, w) := by
    rw [← he]
    rfl
  obtain ⟨e', hrun, hspelled⟩ := run_raiseAuditError (α := JsonObject) order str limit failure e
    (fun s => s!"audit payload is not JSON-serialisable: {s}") w
  simp only [insertAuditWith, Prog.run_bind, Prog.run_tryExcept, Prog.run_call, hdumps]
  cases e with
  | cancelled => exact ⟨.cancelled, rfl, by simp [escapes, isAuditError]⟩
  | exception cls s =>
    cases cls with
    | typeError => exact ⟨e', by rw [hrun], by simpa [escapes] using hspelled⟩
    | valueError => exact ⟨e', by rw [hrun], by simpa [escapes] using hspelled⟩
    | _ => exact ⟨_, rfl, by simp [escapes, isAuditError]⟩

end Insert

/-- A note whose `__str__` raises. -/
def noted : Dict := [(.str "note", .obj true (.error (.exception (.other "RuntimeError") "boom")))]

section Shallow

mutual

def depth : PyVal → Nat
  | .list xs | .tuple xs => depthList xs + 1
  | .dict items => depthItems items + 1
  | .obj _ _ | .cycle => 1
  | _ => 0

def depthList : List PyVal → Nat
  | [] => 0
  | x :: xs => max (depth x) (depthList xs)

def depthItems : Dict → Nat
  | [] => 0
  | (_, v) :: items => max (depth v) (depthItems items)

end

theorem encodeFields_map (enc : PyVal → Except Exc Json) (items : Dict) :
    encodeFields (items.map fun item => (item.1, enc item.2)) = items.mapM (encodeMember enc) := by
  induction items with
  | nil => rfl
  | cons item items ih =>
    rw [List.map_cons, encodeFields, ih, List.mapM_cons, encodeMember]
    cases item.1.text with
    | error e => rfl
    | ok key => cases enc item.2 <;> rfl

theorem mapM_congr {α β : Type} {f g : α → Except Exc β} {xs : List α} (h : ∀ x ∈ xs, f x = g x) :
    xs.mapM f = xs.mapM g := by
  induction xs with
  | nil => rfl
  | cons x xs ih =>
    rw [List.mapM_cons, List.mapM_cons, h x (List.mem_cons_self ..),
      ih fun y hy => h y (List.mem_cons_of_mem _ hy)]

theorem encodeMembers_eq {enc : PyVal → Except Exc Json} {items : Dict}
    (h : ∀ item ∈ items, enc item.2 = encode item.2) :
    encodeMembers sortItems enc items = encodeObject (encodeItems items) := by
  have hkeys : (encodeItems items).map Prod.fst = items.map Prod.fst := by
    simp [RoundTrip.encodeItems_eq]
  have hmem : ∀ item ∈ sortItems items, encodeMember enc item = encodeMember encode item := by
    intro item hitem
    rw [encodeMember, encodeMember, h item ((List.perm_insertionSort _ _).mem_iff.mp hitem)]
  rw [encodeMembers, encodeObject, hkeys, mapM_congr hmem, RoundTrip.encodeItems_eq,
    JsonStates.sortItems_map, encodeFields_map]
  rfl

mutual

/-- A value that is not too deep is encoded as without a limit. -/
theorem encodeWithin_eq : ∀ (v : PyVal) (limit : Nat), depth v ≤ limit →
    encodeWithin sortItems limit v = encode v
  | .none, _, _ | .bool _, _, _ | .int _, _, _ | .float _, _, _ | .str _, _, _ => by
    simp [encodeWithin, encode]
  | .list xs, 0, h | .tuple xs, 0, h => by simp [depth] at h
  | .dict items, 0, h => by simp [depth] at h
  | .list xs, limit + 1, h => by
    simp only [depth, Nat.add_le_add_iff_right] at h
    rw [encodeWithin, encode, mapM_encodeWithin xs limit h]
  | .tuple xs, limit + 1, h => by
    simp only [depth, Nat.add_le_add_iff_right] at h
    rw [encodeWithin, encode, mapM_encodeWithin xs limit h]
  | .dict items, limit + 1, h => by
    simp only [depth, Nat.add_le_add_iff_right] at h
    rw [encodeWithin, encode, encodeMembers_eq (encodeWithin_item items limit h)]
  | .obj _ text, limit, h => by
    cases text with
    | error e => cases limit <;> rfl
    | ok s =>
      cases limit with
      | zero => simp [depth] at h
      | succ limit => rfl
  | .cycle, 0, h => by simp [depth] at h
  | .cycle, _ + 1, _ => rfl

theorem mapM_encodeWithin : ∀ (xs : List PyVal) (limit : Nat), depthList xs ≤ limit →
    xs.mapM (encodeWithin sortItems limit) = encodeList xs
  | [], _, _ => rfl
  | x :: xs, limit, h => by
    rw [depthList, Nat.max_le] at h
    rw [List.mapM_cons, encodeList, encodeWithin_eq x limit h.1, mapM_encodeWithin xs limit h.2]

theorem encodeWithin_item : ∀ (items : Dict) (limit : Nat), depthItems items ≤ limit →
    ∀ item ∈ items, encodeWithin sortItems limit item.2 = encode item.2
  | [], _, _, _, hitem => by cases hitem
  | (k, v) :: items, limit, h, item, hitem => by
    rw [depthItems, Nat.max_le] at h
    rcases List.mem_cons.mp hitem with rfl | hrest
    · exact encodeWithin_eq v limit h.1
    · exact encodeWithin_item items limit h.2 item hrest

end

/-- On a payload that is not too deep, with a database that does not fail,
`insert_audit` runs as it does by itself. -/
theorem run_insertAudit (db : Dialect) (limit : Nat) (eventType : String) (payload : Dict)
    (threadId message auditId : Option String) (uuid now : String) (w : World)
    (h : depthItems payload < limit) :
    (insertAudit db eventType payload threadId message auditId uuid now).run
        (answerWithin sortItems limit none) w =
      call (insertAudit db eventType payload threadId message auditId uuid now) w := by
  have hlimit : dumpsWithin sortItems limit payload = dumps payload := by
    cases limit with
    | zero => omega
    | succ limit => exact encodeMembers_eq (encodeWithin_item payload limit (by omega))
  have hdumps : answerWithin sortItems limit none (.jsonDumps payload) w = alone (.jsonDumps payload) w :=
    congrArg (·, w) hlimit
  have hinsert (st : Stmt) (w : World) :
      answerWithin sortItems limit none (.execute st) w = alone (.execute st) w := rfl
  unfold call
  simp only [insertAudit_eq, Prog.run_bind, Prog.run_tryExcept, Prog.run_call, hdumps, hinsert]
  rcases alone (.jsonDumps payload) w with ⟨e | text, w'⟩
  · cases e with
    | cancelled => rfl
    | exception cls s => cases cls <;> rfl
  · simp only
    rcases alone (.execute (.insertAuditLog (db = .postgres)
      ⟨pyOr auditId uuid, eventType, text, threadId, message, now⟩)) w' with ⟨e | r, w''⟩
    · cases e <;> rfl
    · rfl

end Shallow

end NoblePort.Payload
