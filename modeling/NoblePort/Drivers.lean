import NoblePort.Connection
import NoblePort.Refine
import NoblePort.System

/-!
# The calls on the drivers

What a call of the store or the bus awaits itself, when the database is SQLite:
the lock of `Database` and its connection (`app/db/connection.py`), and the
Redis client of `RedisEventBus` (`app/redis_bus/events.py`).
-/
namespace NoblePort.Store

open NoblePort.Values

def EventType.text : EventType → String
  | .invokeStart => "agent.invoke.start"
  | .stepStart => "agent.step.start"
  | .stepEnd => "agent.step.end"
  | .invokeKilled => "agent.invoke.killed"
  | .invokeCancelled => "agent.invoke.cancelled"
  | .invokeError => "agent.invoke.error"
  | .invokeEnd => "agent.invoke.end"

/-- The dict that `_publish` hands to the bus. -/
def Event.dict (e : Event) : Dict :=
  [(.str "type", .str e.type.text), (.str "thread_id", .str e.threadId),
    (.str "payload", .dict e.payload), (.str "ts", .str e.ts)]

/-- The four tables, without the bus. -/
def World.tables (w : World) : World := { w with published := [] }

namespace World

@[simp] theorem tables_tables (w : World) : w.tables.tables = w.tables := rfl

@[simp] theorem tables_published (w : World) : w.tables.published = [] := rfl

theorem tables_apply (w : World) (st : Stmt) : (w.apply st).tables = w.tables.apply st := by
  cases st <;> rfl

@[simp] theorem tables_violates (w : World) (st : Stmt) : w.tables.violates st = w.violates st := by
  cases st <;> rfl

@[simp] theorem tables_rows (w : World) (scan : List AuditRow → List AuditRow) (q : Query) :
    w.tables.rows scan q = w.rows scan q := by
  cases q <;> rfl

end World

end NoblePort.Store

namespace NoblePort.Drivers

open Coroutine NoblePort.Values NoblePort.Store NoblePort.Connection NoblePort.Runtime NoblePort.System

variable {ι : Type} {α : Type}

inductive DriverOp (ι : Type) where
  | acquire (i : ι)
  | release (i : ι)
  | execute (st : Stmt)
  | commit
  | select (q : Query)
  | fetchCursor
  | closeCursor
  | connect
  | send (channel : String) (payload : JsonObject)
  | record (channel : String) (event : Event)
  | jsonDumps (d : Dict)
  | stepFn (i : ι) (state : Dict)

@[reducible] def DriverOp.Resp : DriverOp ι → Type
  | .select q => q.Rows
  | .send _ _ => Int
  | .jsonDumps _ => JsonObject
  | .stepFn _ _ => Dict
  | _ => Unit

/-- The database file with the connection to it, the task that has the lock, the
client, what reached Redis, what the bus lists as published, and the states the
step function was given. -/
structure Machine (ι : Type) where
  db : Sqlite World
  lockedBy : Option ι
  connected : Bool
  delivered : List (String × JsonObject)
  recorded : List (String × Event)
  stepped : List (ι × Dict)

/-- With the number of clients that Redis answers. -/
structure DriverChoice extends Choice where
  receivers : Int := 0

/-- A call that does not suspend is never cancelled. -/
def DriverChoice.inline (c : DriverChoice) : Except Exc Unit × Bool :=
  match c.fault with
  | some (.exception cls s, _) => (.error (.exception cls s), false)
  | _ => (.ok (), true)

def Machine.answer (c : DriverChoice) (m : Machine ι) : (op : DriverOp ι) → Except Exc op.Resp × Bool
  | .acquire _ =>
    match c.fault, m.lockedBy with
    | some (e, _), _ => (.error e, false)
    | none, none => (.ok (), true)
    -- a task that waits for the lock gets nowhere but by being cancelled
    | none, some _ => (.error .cancelled, false)
  | .release _ => (.ok (), true)
  | .execute st => m.db.working.answer c.toChoice (.execute st)
  | .select q => m.db.working.answer c.toChoice (.fetch q)
  | .commit | .fetchCursor | .closeCursor => c.strike (.ok ())
  | .connect => if m.connected then (.ok (), true) else c.inline
  | .send _ _ => c.strike (.ok c.receivers)
  | .record _ _ => (.ok (), true)
  | .jsonDumps d => m.db.working.answer c.toChoice (.jsonDumps d)
  | .stepFn _ state => m.db.working.answer c.toChoice (.stepFn state)

def Machine.effect (m : Machine ι) : DriverOp ι → Machine ι
  | .acquire i => { m with lockedBy := some i }
  | .release _ => { m with lockedBy := none }
  | .execute st => { m with db := { m.db with working := m.db.working.apply st } }
  | .commit => { m with db := { m.db with committed := m.db.working } }
  | .connect => { m with connected := true }
  | .send channel payload => { m with delivered := m.delivered ++ [(channel, payload)] }
  | .record channel event => { m with recorded := m.recorded ++ [(channel, event)] }
  | .stepFn i state => { m with stepped := m.stepped ++ [(i, state)] }
  | .select _ | .fetchCursor | .closeCursor | .jsonDumps _ => m

def drivers : Interp (DriverOp ι) DriverOp.Resp Exc (Machine ι) DriverChoice :=
  ⟨Machine.answer, Machine.effect⟩

abbrev Driver (ι α : Type) := Prog (DriverOp ι) DriverOp.Resp Exc α

/-- Leave `async with self._lock` after what is left of its body. -/
def leaving (i : ι) (body : Driver ι α) : Driver ι α := do
  let r ← body.attempt
  Prog.call (DriverOp.release i)
  Prog.ofExcept r

/-- `async with self._lock: body`. -/
def locked (i : ι) (body : Driver ι α) : Driver ι α := do
  Prog.call (DriverOp.acquire i)
  leaving i body

namespace Database

def execute (i : ι) (st : Stmt) : Driver ι Unit := locked i do
  Prog.call (DriverOp.execute st)
  Prog.call DriverOp.commit

/-- `fetch_one` and `fetch_all`, which ask the cursor for one row or for all. -/
def fetch (i : ι) (q : Query) : Driver ι q.Rows := locked i do
  let rows ← Prog.call (DriverOp.select q)
  Prog.call DriverOp.fetchCursor
  Prog.call DriverOp.closeCursor
  return rows

end Database

inductive EventBus where
  | null | redis
  deriving DecidableEq, Repr

def NullEventBus.publish (channel : String) (event : Event) : Driver ι Int := do
  Prog.call (DriverOp.record channel event)
  return 1

def RedisEventBus.publish (channel : String) (event : Event) : Driver ι Int := do
  Prog.call DriverOp.connect
  let payload ← Prog.call (DriverOp.jsonDumps event.dict)
  let n ← Prog.call (DriverOp.send channel payload)
  Prog.call (DriverOp.record channel event)
  return n

def EventBus.publish : EventBus → (channel : String) → (event : Event) → Driver ι Int
  | .null => NullEventBus.publish
  | .redis => RedisEventBus.publish

/-- The supervisor does not look at the number that `publish` returns. -/
def unread (p : Driver ι Int) : Driver ι Unit := do
  let _ ← p
  return ()

/-- What stands behind each call of task `i`. -/
def behind (bus : EventBus) (i : ι) : (op : Op) → Driver ι op.Resp
  | .jsonDumps d => Prog.call (DriverOp.jsonDumps d)
  | .fetch q => Database.fetch i q
  | .execute st => Database.execute i st
  | .publish channel event => unread (bus.publish channel event)
  | .stepFn state => Prog.call (DriverOp.stepFn i state)

abbrev Deployment (ι : Type) := Pool ι (DriverOp ι) DriverOp.Resp Exc Reply (Machine ι)

/-- A fresh process on a database file. -/
def Machine.boot (file : World) : Machine ι := ⟨⟨file.tables, file.tables⟩, none, false, [], [], []⟩

def deploy (bus : EventBus) (ops : ι → Operation) (file : World) : Deployment ι :=
  ⟨Machine.boot file, fun i => (ops i).program.subst (behind bus i), []⟩

/-- Any step, failing or not. -/
def Unforced (_ : Deployment ι) (_ : ι) (_ : DriverChoice) : Prop := True

instance (s : Deployment ι) (i : ι) (c : DriverChoice) : Decidable (Unforced s i c) := .isTrue trivial

/-- Nothing fails. -/
def smooth : DriverChoice := {}

abbrev Reach [DecidableEq ι] (s₀ s : Deployment ι) : Prop := Pool.Reach drivers Unforced s₀ s

end NoblePort.Drivers
