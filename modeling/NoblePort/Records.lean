import NoblePort.Store

/-!
# Audit rows, latency metrics and checkpoints

The functions of `app/db/audit.py`, `app/db/metrics.py` (recording) and
`app/agent/checkpointing.py`. Parameters `uuid` and `now` are what `uuid4` and
`_utcnow_iso` give the call.
-/
namespace NoblePort.Records

open Coroutine NoblePort.Values NoblePort.Store

structure AuditRecord where
  id : String
  eventType : String
  payload : Dict
  threadId : Option String
  message : Option String
  createdAt : String

/-- `raise AuditError(message)` with a message that spells out `e`; `str` gives
its text, or raises what `e.__str__` does. -/
def raiseAuditError {α : Type} (str : Exc → Except Exc String) (e : Exc) (message : String → String) :
    Async α := do
  let s ← Prog.ofExcept (str e)
  .raise (.exception .auditError (message s))

/-- `insert_audit` with `str` on exceptions. -/
def insertAuditWith (str : Exc → Except Exc String) (db : Dialect) (eventType : String)
    (payload : Dict) (threadId message auditId : Option String) (uuid now : String) :
    Async AuditRecord := do
  let rid := pyOr auditId uuid
  let payloadText ← Prog.tryExcept (jsonDumps payload) fun e =>
    match e with
    | .exception .typeError _ | .exception .valueError _ =>
      raiseAuditError str e fun s => s!"audit payload is not JSON-serialisable: {s}"
    | e => .raise e
  -- the text casts the payload with ::jsonb on Postgres
  Prog.tryExcept
    (execute (.insertAuditLog (db = .postgres)
      ⟨rid, eventType, payloadText, threadId, message, now⟩)) fun e =>
    match e with
    | .exception _ _ => raiseAuditError str e fun s => s!"failed to insert audit record: {s}"
    | .cancelled => .raise .cancelled
  return ⟨rid, eventType, payload, threadId, message, now⟩

/-- Every exception has its text. -/
def insertAudit (db : Dialect) (eventType : String) (payload : Dict)
    (threadId message auditId : Option String) (uuid now : String) : Async AuditRecord :=
  insertAuditWith Exc.text db eventType payload threadId message auditId uuid now

theorem insertAudit_eq (db : Dialect) (eventType : String) (payload : Dict)
    (threadId message auditId : Option String) (uuid now : String) :
    insertAudit db eventType payload threadId message auditId uuid now = (do
      let payloadText ← Prog.tryExcept (jsonDumps payload) fun e =>
        match e with
        | .exception .typeError s | .exception .valueError s =>
          .raise (.exception .auditError s!"audit payload is not JSON-serialisable: {s}")
        | e => .raise e
      Prog.tryExcept
        (execute (.insertAuditLog (db = .postgres)
          ⟨pyOr auditId uuid, eventType, payloadText, threadId, message, now⟩)) fun e =>
        match e with
        | .exception _ s => .raise (.exception .auditError s!"failed to insert audit record: {s}")
        | .cancelled => .raise .cancelled
      return ⟨pyOr auditId uuid, eventType, payload, threadId, message, now⟩) := by
  refine congrArg₂ (· >>= ·) (congrArg _ (funext fun e => ?_)) (funext fun payloadText =>
    congrArg₂ (· >>= ·) (congrArg _ (funext fun e => ?_)) rfl)
  · cases e with
    | cancelled => rfl
    | exception cls s => cases cls <;> rfl
  · cases e <;> rfl

/-- Payloads come back decoded. -/
def listAudit (threadId : Option String) (limit : Nat) : Async (List AuditRecord) := do
  let rows ← fetch (.auditLog threadId limit)
  return (rows : List AuditRow).map fun row =>
    ⟨row.id, row.eventType, loads row.payload, row.threadId, row.message, row.createdAt⟩

def recordInvokeLatency (threadId eventId : Option String) (metricMs : PyFloat) (outcome : String)
    (metricName uuid : String) : Async String := do
  let mid := uuid
  execute (.insertAgentMetrics ⟨mid, threadId, eventId, metricName, metricMs, outcome⟩)
  return mid

structure CheckpointTuple where
  threadId : String
  checkpointId : String
  parentId : Option String
  state : Dict

def CheckpointTuple.ofRow (row : CheckpointRow) : CheckpointTuple :=
  ⟨row.threadId, row.checkpointId, row.parentId, loads row.state⟩

namespace PostgresCheckpointer

def put (db : Dialect) (threadId : String) (state : Dict) (parentId checkpointId : Option String)
    (uuid : String) : Async CheckpointTuple := do
  let cid := pyOr checkpointId uuid
  let stateText ← jsonDumps state
  execute (.insertCheckpoint (db = .postgres) ⟨threadId, cid, parentId, stateText⟩)
  return ⟨threadId, cid, parentId, state⟩

def getLatest (threadId : String) : Async (Option CheckpointTuple) := do
  let row ← fetch (.latestCheckpoint threadId)
  match (row : Option CheckpointRow) with
  | none => return none
  | some row => return some (.ofRow row)

def listAll (threadId : String) : Async (List CheckpointTuple) := do
  let rows ← fetch (.checkpoints threadId)
  return (rows : List CheckpointRow).map .ofRow

end PostgresCheckpointer

end NoblePort.Records
