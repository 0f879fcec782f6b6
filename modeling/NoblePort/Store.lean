import NoblePort.Pool
import NoblePort.Values

/-!
# The store and the bus

The four tables, the published events, and the calls a coroutine of the
supervisor stack awaits. A `Database.execute` or `fetch` is one call. Tables
are lists in insertion order; `langgraph_checkpoints.seq` is the position.
-/
namespace NoblePort.Store

open Coroutine NoblePort.Values

inductive Dialect where
  | sqlite | postgres
  deriving DecidableEq, Repr

/-- The `kill_requested` column: INTEGER in SQLite, BOOLEAN in Postgres. -/
inductive Flag where
  | int (i : Int)
  | bool (b : Bool)
  deriving DecidableEq, Repr

def Flag.truthy : Flag → Bool
  | .int i => i != 0
  | .bool b => b

@[simp] theorem Flag.truthy_bool (b : Bool) : (Flag.bool b).truthy = b := rfl

@[simp] theorem Flag.truthy_zero : (Flag.int 0).truthy = false := rfl

@[simp] theorem Flag.truthy_one : (Flag.int 1).truthy = true := rfl

@[simp] theorem Flag.truthy_ite (b : Bool) : (Flag.int (if b then 1 else 0)).truthy = b := by
  cases b <;> rfl

structure AuditRow where
  id : String
  eventType : String
  payload : JsonObject
  threadId : Option String
  message : Option String
  createdAt : String

structure MetricRow where
  id : String
  threadId : Option String
  eventId : Option String
  metricName : String
  metricMs : PyFloat
  outcome : String
  deriving DecidableEq, Repr

structure CheckpointRow where
  threadId : String
  checkpointId : String
  parentId : Option String
  state : JsonObject

structure ThreadRow where
  threadId : String
  status : String
  killRequested : Flag
  lastEvent : Option String
  updatedAt : String
  deriving DecidableEq, Repr

/-- `agent.invoke.start`, `agent.step.start` and so on to `agent.invoke.end`. -/
inductive EventType where
  | invokeStart | stepStart | stepEnd | invokeKilled | invokeCancelled | invokeError | invokeEnd
  deriving DecidableEq, Repr

structure Event where
  type : EventType
  threadId : String
  payload : Dict
  ts : String

/-- The event carries the request id `r`. -/
def Event.carries (e : Event) (r : String) : Bool :=
  match e.payload.get? "request_id" with
  | some (.str s) => s == r
  | _ => false

def Event.kills (e : Event) : Bool := e.type = .invokeKilled

/-- The SELECT statements, by the text they are written with. -/
inductive Query where
  | threadKillRequested (threadId : String)
  | threadStatus (threadId : String)
  | killRequested (threadId : String)
  | thread (threadId : String)
  | latestCheckpoint (threadId : String)
  | checkpoints (threadId : String)
  | auditLog (threadId : Option String) (limit : Nat)

/-- Rows come back whole; each reader uses only the columns its text selects. -/
@[reducible] def Query.Rows : Query → Type
  | .threadKillRequested _ | .threadStatus _ | .killRequested _ | .thread _ => Option ThreadRow
  | .latestCheckpoint _ => Option CheckpointRow
  | .checkpoints _ => List CheckpointRow
  | .auditLog _ _ => List AuditRow

/-- The INSERT and UPDATE statements with their parameters; `jsonb` tells
whether the text casts the JSON parameter. -/
inductive Stmt where
  | insertAuditLog (jsonb : Bool) (row : AuditRow)
  | insertAgentMetrics (row : MetricRow)
  | insertCheckpoint (jsonb : Bool) (row : CheckpointRow)
  | insertThreadState (row : ThreadRow)
  | updateThreadState (status : String) (killRequested : Flag) (lastEvent : Option String)
      (updatedAt threadId : String)

/-- The calls that can raise: encoding JSON, the database, the bus, the step function. -/
inductive Op where
  | jsonDumps (d : Dict)
  | fetch (q : Query)
  | execute (s : Stmt)
  | publish (channel : String) (event : Event)
  | stepFn (state : Dict)

@[reducible] def Op.Resp : Op → Type
  | .jsonDumps _ => JsonObject
  | .fetch q => q.Rows
  | .execute _ => Unit
  | .publish _ _ => Unit
  | .stepFn _ => Dict

abbrev Async := Prog Op Op.Resp Exc
abbrev Answered := Entry Op Op.Resp Exc

abbrev jsonDumps (d : Dict) : Async JsonObject := .call (Op.jsonDumps d)
abbrev fetch (q : Query) : Async q.Rows := .call (Op.fetch q)
abbrev execute (s : Stmt) : Async Unit := .call (Op.execute s)
abbrev publish (channel : String) (event : Event) : Async Unit := .call (Op.publish channel event)
abbrev stepFn (state : Dict) : Async Dict := .call (Op.stepFn state)

structure World where
  auditLog : List AuditRow
  agentMetrics : List MetricRow
  langgraphCheckpoints : List CheckpointRow
  agentThreadState : List ThreadRow
  published : List Event

/-- Migrated, and nothing stored or published yet. -/
def World.empty : World := ⟨[], [], [], [], []⟩

namespace World

def thread (w : World) (t : String) : Option ThreadRow :=
  w.agentThreadState.find? fun row => row.threadId == t

/-- The threads that have a row. -/
def threads (w : World) : List String := w.agentThreadState.map (·.threadId)

def checkpoints (w : World) (t : String) : List CheckpointRow :=
  w.langgraphCheckpoints.filter fun row => row.threadId == t

/-- `kill_requested` of thread `t`, false when it has no row. -/
def killRequested (w : World) (t : String) : Bool :=
  match w.thread t with
  | some row => row.killRequested.truthy
  | none => false

/-- ORDER BY created_at DESC LIMIT n over the rows in the order `scan` the
database happens to visit them, which decides between equal timestamps. -/
def auditRows (w : World) (scan : List AuditRow → List AuditRow) (t : Option String) (n : Nat) :
    List AuditRow :=
  let rows := w.auditLog.filter fun row => t.isNone || row.threadId == t
  ((scan rows).insertionSort fun a b => b.createdAt ≤ a.createdAt).take n

def rows (w : World) (scan : List AuditRow → List AuditRow) : (q : Query) → q.Rows
  | .threadKillRequested t | .threadStatus t | .killRequested t | .thread t => w.thread t
  | .latestCheckpoint t => (w.checkpoints t).getLast?
  | .checkpoints t => w.checkpoints t
  | .auditLog t n => w.auditRows scan t n

/-- A PRIMARY KEY or UNIQUE constraint forbids the statement. -/
def violates (w : World) : Stmt → Bool
  | .insertAuditLog _ row => w.auditLog.any fun r => r.id == row.id
  | .insertAgentMetrics row => w.agentMetrics.any fun r => r.id == row.id
  | .insertCheckpoint _ row => w.langgraphCheckpoints.any fun r =>
      r.threadId == row.threadId && r.checkpointId == row.checkpointId
  | .insertThreadState row => w.agentThreadState.any fun r => r.threadId == row.threadId
  | .updateThreadState .. => false

def apply (w : World) : Stmt → World
  | .insertAuditLog _ row => { w with auditLog := w.auditLog ++ [row] }
  | .insertAgentMetrics row => { w with agentMetrics := w.agentMetrics ++ [row] }
  | .insertCheckpoint _ row => { w with langgraphCheckpoints := w.langgraphCheckpoints ++ [row] }
  | .insertThreadState row => { w with agentThreadState := w.agentThreadState ++ [row] }
  | .updateThreadState status kill event now t =>
    { w with agentThreadState := w.agentThreadState.map fun row =>
        if row.threadId == t then ⟨row.threadId, status, kill, event, now⟩ else row }

theorem thread_insert (w : World) (row : ThreadRow) (t : String) :
    (w.apply (.insertThreadState row)).thread t =
      (w.thread t).or (if row.threadId == t then some row else none) := by
  cases h : row.threadId == t <;> simp [apply, thread, List.find?_append, h]

theorem thread_update (w : World) (status : String) (flag : Flag) (event : Option String)
    (now t' t : String) :
    (w.apply (.updateThreadState status flag event now t')).thread t =
      (w.thread t).map fun row =>
        if row.threadId == t' then ⟨row.threadId, status, flag, event, now⟩ else row := by
  simp only [apply, thread, List.find?_map]
  congr 2
  funext row
  by_cases h : row.threadId = t' <;> simp [h]

theorem threadId_of_thread {w : World} {t : String} {row : ThreadRow} (h : w.thread t = some row) :
    row.threadId = t := by
  simpa using List.find?_some h

theorem thread_update_same (w : World) (status : String) (flag : Flag) (event : Option String)
    (now t : String) :
    (w.apply (.updateThreadState status flag event now t)).thread t =
      (w.thread t).map fun row => ⟨row.threadId, status, flag, event, now⟩ := by
  rw [thread_update]
  cases h : w.thread t with
  | none => rfl
  | some row => simp [threadId_of_thread h]

theorem thread_update_other (w : World) (status : String) (flag : Flag) (event : Option String)
    (now t' t : String) (ht : t' ≠ t) :
    (w.apply (.updateThreadState status flag event now t')).thread t = w.thread t := by
  rw [thread_update]
  cases h : w.thread t with
  | none => rfl
  | some row => simp [threadId_of_thread h, Ne.symm ht]

theorem threads_update (w : World) (status : String) (flag : Flag) (event : Option String)
    (now t : String) : (w.apply (.updateThreadState status flag event now t)).threads = w.threads := by
  have hrow (row : ThreadRow) : (if row.threadId == t then
      (⟨row.threadId, status, flag, event, now⟩ : ThreadRow) else row).threadId = row.threadId := by
    split <;> rfl
  simp only [threads, apply, List.map_map, Function.comp_def, hrow]

theorem thread_eq_none (w : World) (t : String) : w.thread t = none ↔ t ∉ w.threads := by
  simp [thread, threads]

theorem thread_insert_other (w : World) (row : ThreadRow) (t : String) (ht : row.threadId ≠ t) :
    (w.apply (.insertThreadState row)).thread t = w.thread t := by
  simp [thread_insert, ht]

theorem violates_thread {w : World} {row : ThreadRow}
    (h : w.violates (.insertThreadState row) = false) : w.thread row.threadId = none := by
  simpa [violates, thread] using h

theorem killRequested_insert (w : World) (row : ThreadRow) (t : String)
    (h : w.violates (.insertThreadState row) = false) :
    (w.apply (.insertThreadState row)).killRequested t =
      if row.threadId = t then row.killRequested.truthy else w.killRequested t := by
  by_cases ht : row.threadId = t
  · subst ht
    simp [killRequested, thread_insert, violates_thread h]
  · simp [killRequested, thread_insert, ht]

theorem killRequested_update (w : World) (status : String) (flag : Flag) (event : Option String)
    (now t' t : String) (ht : (w.thread t).isSome) :
    (w.apply (.updateThreadState status flag event now t')).killRequested t =
      if t' = t then flag.truthy else w.killRequested t := by
  obtain ⟨row, hrow⟩ := Option.isSome_iff_exists.mp ht
  have hid := threadId_of_thread hrow
  subst hid
  by_cases h : t' = row.threadId
  · simp [killRequested, thread_update, hrow, h]
  · simp [killRequested, thread_update, hrow, h, Ne.symm h]

theorem killRequested_update_other (w : World) (status : String) (flag : Flag)
    (event : Option String) (now t' t : String) (h : t' ≠ t) :
    (w.apply (.updateThreadState status flag event now t')).killRequested t = w.killRequested t := by
  cases ht : w.thread t with
  | none => simp [killRequested, thread_update, ht]
  | some row => simp [killRequested, thread_update, ht, threadId_of_thread ht, Ne.symm h]

/-- Rows of the thread table are never removed. -/
theorem thread_apply_isSome (w : World) (st : Stmt) (t : String) (h : (w.thread t).isSome) :
    ((w.apply st).thread t).isSome := by
  cases st with
  | insertThreadState row => simp [thread_insert, h]
  | updateThreadState status flag event now t' => simpa [thread_update] using h
  | _ => exact h

def effect (w : World) : Op → World
  | .execute s => w.apply s
  | .publish _ e => { w with published := w.published ++ [e] }
  | _ => w

end World

/-- What the world leaves open at one call: a fault, with whether the effect
took place before it, the answer of the step function, and the visiting order. -/
structure Choice where
  fault : Option (Exc × Bool) := none
  step : Dict → Except Exc Dict := .ok
  scan : List AuditRow → List AuditRow := id

/-- A fault raises in place of the answer. -/
def Choice.strike {α : Type} (c : Choice) (reply : Except Exc α) : Except Exc α × Bool :=
  match c.fault with
  | none => (reply, true)
  | some (e, landed) => (.error e, landed)

/-- Encoding JSON does not suspend, so it is never cancelled. A statement that
violates a constraint raises and never takes effect. -/
def World.answer (c : Choice) (w : World) : (op : Op) → Except Exc op.Resp × Bool
  | .jsonDumps d =>
    match c.fault with
    | some (.exception cls s, _) => (.error (.exception cls s), false)
    | _ => (dumps d, true)
  | .fetch q => c.strike (.ok (w.rows c.scan q))
  | .execute s =>
    if w.violates s then
      (.error ((c.fault.map Prod.fst).getD (.exception .integrityError "constraint failed")), false)
    else c.strike (.ok ())
  | .publish _ _ => c.strike (.ok ())
  | .stepFn state => c.strike (c.step state)

def interp : Interp Op Op.Resp Exc World Choice := ⟨World.answer, World.effect⟩

@[simp] theorem interp_effect : interp.effect = World.effect := rfl

theorem strike_ok {α : Type} {c : Choice} {reply : Except Exc α} {r : α}
    (h : (c.strike reply).1 = .ok r) : c.strike reply = (reply, true) := by
  unfold Choice.strike at h ⊢
  cases hf : c.fault with
  | none => rfl
  | some f => simp [hf] at h

/-- A call that returns has taken effect. -/
theorem landed_of_ok {c : Choice} {w : World} {op : Op} {r : op.Resp}
    (h : (interp.entry c w op).result = .ok r) : (interp.entry c w op).landed = true := by
  simp only [Interp.entry, interp] at h ⊢
  cases op with
  | jsonDumps d =>
    simp only [World.answer] at h ⊢
    split at h
    · cases h
    · rfl
  | fetch q => exact congrArg Prod.snd (strike_ok h)
  | execute s =>
    simp only [World.answer] at h ⊢
    split at h
    · cases h
    · rename_i hv
      rw [if_neg hv]
      exact congrArg Prod.snd (strike_ok h)
  | publish channel event => exact congrArg Prod.snd (strike_ok h)
  | stepFn state => exact congrArg Prod.snd (strike_ok h)

theorem landed_of_not_failed {c : Choice} {w : World} {op : Op}
    (h : (interp.entry c w op).failed = false) : (interp.entry c w op).landed = true := by
  cases hr : (interp.entry c w op).result with
  | ok r => exact landed_of_ok hr
  | error e => simp [Entry.failed, hr] at h

/-- A statement takes effect only where no constraint forbids it. -/
theorem allowed_of_landed {c : Choice} {w : World} {st : Stmt}
    (h : (interp.entry c w (.execute st)).landed = true) : w.violates st = false := by
  simp only [Interp.entry, interp, World.answer] at h
  split at h
  · cases h
  · rename_i hv
    simpa using hv

theorem World.thread_settle_isSome {c : Choice} {w : World} {op : Op} {t : String}
    (h : (w.thread t).isSome) : ((interp.settle w (interp.entry c w op)).thread t).isSome := by
  unfold Interp.settle
  split
  · cases op with
    | execute st => exact World.thread_apply_isSome _ _ _ h
    | _ => exact h
  · exact h

/-- A query that returns gives the rows of the moment. -/
theorem rows_of_ok {c : Choice} {w : World} {q : Query} {r : q.Rows}
    (h : (interp.entry c w (.fetch q)).result = .ok r) : r = w.rows c.scan q := by
  have hs := strike_ok h
  change (c.strike _).1 = _ at h
  rw [hs] at h
  exact (Except.ok.inj h).symm

theorem rows_of_entry {c : Choice} {w : World} {op : Op} {q : Query} {r : q.Rows} {landed : Bool}
    (h : interp.entry c w op = ⟨.fetch q, .ok r, landed⟩) : op = .fetch q ∧ r = w.rows c.scan q := by
  have hop : op = .fetch q := congrArg Entry.op h
  subst hop
  simp only [Interp.entry, Entry.mk.injEq, heq_eq_eq, true_and] at h
  exact ⟨rfl, rows_of_ok (c := c) (w := w) h.1⟩

/-- An encoding that returns is the one `json.dumps` computes. -/
theorem dumps_of_ok {c : Choice} {w : World} {d : Dict} {r : JsonObject}
    (h : (interp.entry c w (.jsonDumps d)).result = .ok r) : dumps d = .ok r := by
  simp only [Interp.entry, interp, World.answer] at h
  split at h
  · cases h
  · exact h

theorem dumps_of_entry {c : Choice} {w : World} {op : Op} {d : Dict} {r : JsonObject} {landed : Bool}
    (h : interp.entry c w op = ⟨.jsonDumps d, .ok r, landed⟩) : dumps d = .ok r := by
  have hop : op = .jsonDumps d := congrArg Entry.op h
  subst hop
  simp only [Interp.entry, Entry.mk.injEq, heq_eq_eq, true_and] at h
  exact dumps_of_ok (c := c) (w := w) h.1

end NoblePort.Store
