import Mathlib.Logic.Relation
import NoblePort.Refine
import NoblePort.Startup

/-!
# The lifespan of the application

`lifespan` of `app/api/app.py` over the three singletons it sets up and takes
down: the database, the bus and the supervisor. A process runs any number of
lifespans, one after another, and any of their awaits can fail. Requests are
served between a start that has succeeded and the stop.
-/
namespace NoblePort.Lifespan

open Coroutine NoblePort.Values
open NoblePort.Startup (Start Entered Chance Await)

/-- A bus: whether it is on Redis, whether it holds a client (`_client`), and
whether that client is still to be closed. -/
structure Bus where
  redis : Bool
  client : Bool := false
  live : Bool := false
  deriving DecidableEq, Repr

/-- The `Database` objects with `_db`, those with a connection or pool that is
open, those of them that an await opened which then raised, the settings, all bus
objects with `_bus`, and `_supervisor` with the two it holds. -/
structure World where
  startup : Startup.World
  live : List Nat := []
  orphans : List Nat := []
  enableRedis : Bool
  buses : List Bus := []
  bus : Option Nat := none
  supervisor : Option (Nat × Nat) := none

/-- What the programs below do in one piece, up to their next await or across one:
`database` is an await of `get_database`, `held…` the tests with which a reset
begins, `drop…` the assignment of None once what is held is closed. `query` and
`send` are what requests do on the two. -/
inductive Op where
  | database (op : Startup.Op)
  | getEventBus
  | supervisor
  | assignSupervisor (db bus : Nat)
  | resetSupervisor
  | heldBus
  | aclose (bus : Nat)
  | closeClient (bus : Nat)
  | dropClient (bus : Nat)
  | dropBus
  | heldDatabase
  | closeConnection (db : Nat)
  | dropConnection (db : Nat)
  | dropDatabase
  | query (db : Nat)
  | send (bus : Nat)

@[reducible] def Op.Resp : Op → Type
  | .database op => op.Resp
  | .getEventBus => Nat
  | .supervisor => Option (Nat × Nat)
  | .heldBus | .heldDatabase => Option (Nat × Bool)
  | _ => Unit

abbrev Life := Prog Op Op.Resp Exc

/-- A part of `get_database`, run here. -/
def lift {α : Type} : Start α → Life α
  | .ret a => .ret a
  | .raise e => .raise e
  | .await op k => .await (.database op) fun r => lift (k r)

def getDatabase : Life Nat := lift Startup.getDatabase

def getEventBus : Life Nat := Prog.call Op.getEventBus

def getSupervisor : Life (Nat × Nat) := do
  match ← Prog.call Op.supervisor with
  | some pair => return pair
  | none =>
    let db ← getDatabase
    let bus ← getEventBus
    Prog.call (Op.assignSupervisor db bus)
    return (db, bus)

def resetSupervisor : Life Unit := Prog.call Op.resetSupervisor

/-- An older client has `close` and no `aclose`. -/
def RedisEventBus.close (bus : Nat) : Life Unit := do
  (Prog.call (Op.aclose bus)).tryExcept fun
    | .exception (.other "AttributeError") _ => Prog.call (Op.closeClient bus)
    | e => .raise e
  Prog.call (Op.dropClient bus)

/-- `NullEventBus.close` does nothing, as a bus without a client has nothing to close. -/
def resetEventBus : Life Unit := do
  match ← Prog.call Op.heldBus with
  | none => return ()
  | some (bus, client) =>
    if client then RedisEventBus.close bus
    Prog.call Op.dropBus

/-- Of connection and pool a `Database` has one. -/
def Database.close (db : Nat) : Life Unit := do
  Prog.call (Op.closeConnection db)
  Prog.call (Op.dropConnection db)

def resetDatabase : Life Unit := do
  match ← Prog.call Op.heldDatabase with
  | none => return ()
  | some (db, connected) =>
    if connected then Database.close db
    Prog.call Op.dropDatabase

/-- `lifespan` up to its `yield`. -/
def startup : Life Unit := do
  let _ ← getDatabase
  let _ ← getEventBus
  let _ ← getSupervisor
  return ()

/-- Its finally block. -/
def shutdown : Life Unit := do
  resetSupervisor
  resetEventBus
  resetDatabase

section Requests

/-- What an invocation does on the database and the bus of its supervisor. -/
inductive Use where
  | statement | publish

def Use.on (db bus : Nat) : Use → Life Unit
  | .statement => Prog.call (Op.query db)
  | .publish => Prog.call (Op.send bus)

abbrev Body := Prog Use (fun _ => Unit) Exc Unit

/-- `/health`, `/ready`, `/agent/invoke`, and the endpoints that only go to the
database, whatever they then do there. -/
inductive Request where
  | health
  | ready (enableRedis : Bool)
  | invoke (body : Body)
  | status (body : Prog Unit (fun _ => Unit) Exc Unit)

/-- `except Exception`. -/
def swallow (p : Life Unit) : Life Unit := p.tryExcept fun
  | .cancelled => .raise .cancelled
  | .exception _ _ => return ()

def Request.program : Request → Life Unit
  | .health => do
    let _ ← getSupervisor
    return ()
  | .ready enableRedis => do
    swallow do
      let db ← getDatabase
      Prog.call (Op.query db)
    if enableRedis then
      let bus ← getEventBus
      swallow (Prog.call (Op.send bus))
  | .invoke body => do
    let (db, bus) ← getSupervisor
    body.subst (Use.on db bus)
  | .status body => do
    let db ← getDatabase
    body.subst fun _ => Prog.call (Op.query db)

end Requests

namespace World

def hasClient (w : World) (bus : Nat) : Bool := w.buses[bus]?.any Bus.client

def onRedis (w : World) (bus : Nat) : Bool := w.buses[bus]?.any Bus.redis

/-- The client of the bus is still to be closed. -/
def liveClient (w : World) (bus : Nat) : Bool := w.buses[bus]?.any Bus.live

end World

/-- A fault raises in place of the answer. -/
def strike (c : Chance) : Except Exc Unit × Bool :=
  match c.fault with
  | none => (.ok (), true)
  | some e => (.error e, c.landed)

section Interp

variable (reprOf : String → String)

def answer (c : Chance) (w : World) : (op : Op) → Except Exc op.Resp × Bool
  | .database .enter => Startup.answer reprOf c w.startup .enter
  -- cancelled, `aiosqlite.connect` can have connected already
  | .database (.on id a) => if a.opens then strike c else Startup.answer reprOf c w.startup (.on id a)
  | .getEventBus => (.ok (w.bus.getD w.buses.length), true)
  | .supervisor => (.ok w.supervisor, true)
  | .heldBus => (.ok (w.bus.map fun bus => (bus, w.hasClient bus)), true)
  | .heldDatabase => (.ok (w.startup.db.map fun db => (db, w.startup.connected db)), true)
  | .aclose _ | .closeClient _ | .closeConnection _ => strike c
  | .query db =>
    if w.startup.connected db then strike c else (.error (.exception (.other "AssertionError") ""), false)
  | .send bus => if w.onRedis bus then strike c else (.ok (), true)
  | .assignSupervisor _ _ | .resetSupervisor | .dropClient _ | .dropBus | .dropConnection _ | .dropDatabase =>
    (.ok (), true)

def effect (w : World) : Op → World
  | .database op =>
    let w := { w with startup := Startup.effect reprOf w.startup op }
    match op with
    | .on id a => if a.opens then { w with live := w.live.insert id } else w
    | .enter => w
  | .getEventBus =>
    match w.bus with
    | some _ => w
    | none => { w with buses := w.buses ++ [{ redis := w.enableRedis }], bus := some w.buses.length }
  | .assignSupervisor db bus => { w with supervisor := some (db, bus) }
  | .resetSupervisor => { w with supervisor := none }
  | .aclose bus | .closeClient bus => { w with buses := w.buses.modify bus fun b => { b with live := false } }
  | .dropClient bus => { w with buses := w.buses.modify bus fun b => { b with client := false } }
  | .dropBus => { w with bus := none }
  | .closeConnection db => { w with live := w.live.filter (· ≠ db) }
  | .dropConnection db =>
    { w with startup := { w.startup with
        heap := w.startup.heap.modify db fun d => { d with connected := false } } }
  | .dropDatabase => { w with startup := { w.startup with db := none } }
  -- the client is made before the first command is awaited
  | .send bus =>
    { w with buses := w.buses.modify bus fun b =>
        if b.redis then { b with client := true, live := true } else b }
  | .supervisor | .heldBus | .heldDatabase | .query _ => w

def interp : Interp Op Op.Resp Exc World Chance := ⟨answer reprOf, effect reprOf⟩

/-- The `Database` for which an await has opened what nothing holds, as it then raised. -/
def orphan : Entry Op Op.Resp Exc → Option Nat
  | ⟨.database (.on id a), .error _, true⟩ => if a.opens then some id else none
  | _ => none

/-- What an answered call leaves. -/
def after (w : World) (e : Entry Op Op.Resp Exc) : World :=
  match orphan e with
  | some id => { w with live := w.live.insert id, orphans := w.orphans ++ [id] }
  | none => (interp reprOf).settle w e

/-- One step of a program by itself. -/
def advance (c : Chance) (w : World) : Life Unit → Option (World × Life Unit)
  | .await op k => some (after reprOf w ((interp reprOf).entry c w op), k (answer reprOf c w op).1)
  | _ => none

end Interp

inductive Phase where
  | down | starting | up | stopping
  deriving DecidableEq, Repr

/-- The process: what its lifespan still has to do, and the requests being served. -/
structure Server (κ : Type) where
  phase : Phase
  world : World
  life : Life Unit
  requests : κ → Life Unit

/-- Nothing has run yet. -/
def Server.off {κ : Type} (url : String) (enableRedis : Bool) : Server κ :=
  ⟨.down, { startup := { url }, enableRedis }, .ret (), fun _ => .ret ()⟩

section Steps

variable {κ : Type} [DecidableEq κ] (reprOf : String → String)

/-- How the server goes on. It serves requests only after a start that has
returned, and stops once they are over; `none` stands for a request that never comes. -/
inductive Step : Server κ → Server κ → Prop
  | boot {w p r} : Step ⟨.down, w, p, r⟩ ⟨.starting, w, startup, r⟩
  | starting {w p r c w' p'} : advance reprOf c w p = some (w', p') →
      Step ⟨.starting, w, p, r⟩ ⟨.starting, w', p', r⟩
  | failed {w e r} : Step ⟨.starting, w, .raise e, r⟩ ⟨.down, w, .raise e, r⟩
  | serve {w r} (requests : κ → Option Request) :
      Step ⟨.starting, w, .ret (), r⟩
        ⟨.up, w, .ret (), fun k => ((requests k).map Request.program).getD (.ret ())⟩
  | serving {w p r k c w' p'} : advance reprOf c w (r k) = some (w', p') →
      Step ⟨.up, w, p, r⟩ ⟨.up, w', p, Function.update r k p'⟩
  | stop {w p r} : (∀ k, (r k).awaits = none) → Step ⟨.up, w, p, r⟩ ⟨.stopping, w, shutdown, r⟩
  | stopping {w p r c w' p'} : advance reprOf c w p = some (w', p') →
      Step ⟨.stopping, w, p, r⟩ ⟨.stopping, w', p', r⟩
  | stopped {w p r} : p.awaits = none → Step ⟨.stopping, w, p, r⟩ ⟨.down, w, p, r⟩

abbrev Run (s₀ s : Server κ) : Prop := Relation.ReflTransGen (Step reprOf) s₀ s

end Steps

end NoblePort.Lifespan
