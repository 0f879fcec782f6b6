import NoblePort.Store

/-!
# Per-thread runtime state

The functions of `app/agent/state.py`. The parameter `now` is what
`_utcnow_iso` reads.
-/
namespace NoblePort.ThreadState

open Coroutine NoblePort.Values NoblePort.Store

def upsert (db : Dialect) (threadId status : String) (killRequested : Option Bool)
    (lastEvent : Option String) (now : String) : Async Unit := do
  let existing ← fetch (.threadKillRequested threadId)
  match (existing : Option ThreadRow) with
  | none =>
    let kr : Int := if killRequested = some true then 1 else 0
    match db with
    | .postgres =>
      execute (.insertThreadState ⟨threadId, status, .bool (kr != 0), lastEvent, now⟩)
    | .sqlite => execute (.insertThreadState ⟨threadId, status, .int kr, lastEvent, now⟩)
  | some row =>
    -- a kill flag that is not given keeps the value read above
    let kr : Flag :=
      match killRequested, db with
      | none, .sqlite => .int (if row.killRequested.truthy then 1 else 0)
      | none, .postgres => row.killRequested
      | some b, .postgres => .bool b
      | some b, .sqlite => .int (if b then 1 else 0)
    execute (.updateThreadState status kr lastEvent now threadId)

/-- The statement `upsert` runs after its read. -/
def upsertStmt (db : Dialect) (threadId status : String) (killRequested : Option Bool)
    (lastEvent : Option String) (now : String) : Option ThreadRow → Stmt
  | none => .insertThreadState ⟨threadId, status,
      match db with
      | .postgres => .bool (killRequested == some true)
      | .sqlite => .int (if killRequested = some true then 1 else 0), lastEvent, now⟩
  | some row => .updateThreadState status
      (match killRequested, db with
      | none, .sqlite => .int (if row.killRequested.truthy then 1 else 0)
      | none, .postgres => row.killRequested
      | some b, .postgres => .bool b
      | some b, .sqlite => .int (if b then 1 else 0)) lastEvent now threadId

theorem upsert_eq (db : Dialect) (threadId status : String) (killRequested : Option Bool)
    (lastEvent : Option String) (now : String) :
    upsert db threadId status killRequested lastEvent now =
      fetch (.threadKillRequested threadId) >>= fun existing =>
        execute (upsertStmt db threadId status killRequested lastEvent now existing) := by
  unfold upsert
  congr 1
  funext existing
  cases existing with
  | some row => rfl
  | none =>
    cases db with
    | sqlite => rfl
    | postgres => cases killRequested with
      | none => rfl
      | some b => cases b <;> rfl

def setThreadStatus (db : Dialect) (threadId status : String) (lastEvent : Option String)
    (now : String) : Async Unit :=
  upsert db threadId status none lastEvent now

structure KillReply where
  threadId : String
  status : String
  previousStatus : String
  deriving DecidableEq, Repr

def requestKill (db : Dialect) (threadId now : String) : Async KillReply := do
  let existing ← fetch (.threadStatus threadId)
  match (existing : Option ThreadRow) with
  | none =>
    upsert db threadId "kill_requested" (some true) (some "kill_requested") now
    return ⟨threadId, "kill_requested", "unknown"⟩
  | some row =>
    upsert db threadId "kill_requested" (some true) (some "kill_requested") now
    return ⟨threadId, "kill_requested", row.status⟩

def isKillRequested (threadId : String) : Async Bool := do
  let row ← fetch (.killRequested threadId)
  match (row : Option ThreadRow) with
  | none => return false
  | some row => return row.killRequested.truthy

structure ThreadStatus where
  threadId : String
  status : String
  killRequested : Bool
  lastEvent : Option String
  updatedAt : String
  deriving DecidableEq, Repr

def getThreadStatus (threadId : String) : Async (Option ThreadStatus) := do
  let row ← fetch (.thread threadId)
  match (row : Option ThreadRow) with
  | none => return none
  | some row =>
    return some ⟨row.threadId, row.status, row.killRequested.truthy, row.lastEvent, row.updatedAt⟩

end NoblePort.ThreadState
