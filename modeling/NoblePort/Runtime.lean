import NoblePort.ThreadState
import NoblePort.Records

/-!
# The supervisor runtime

`Supervisor.invoke` of `app/agent/runtime.py`, with its try statement, its
step loop and its default step function.
-/
namespace NoblePort.Runtime

open Coroutine NoblePort.Values NoblePort.Store NoblePort.ThreadState NoblePort.Records

/-- `f"{v}"`; what `str` does to anything but a string is left to `strOf`. -/
def format (strOf : PyVal → String) : PyVal → String
  | .str s => s
  | v => strOf v

def defaultSupervisorStep (strOf : PyVal → String) (state : Dict) : Except Exc Dict := do
  let step ← ((Dict.get? state "step").getD (.int 0)).toInt
  let nextState := Dict.set state "step" (.int (step + 1))
  let msgs ←
    match Dict.get? state "messages" with
    | some v => if v.truthy then v.toList else .ok []
    | none => .ok []
  let msgs :=
    match Dict.get? state "input" with
    | some v => if v.truthy then msgs ++ [.dict [(.str "role", .str "user"), (.str "content", v)]] else msgs
    | none => msgs
  let input := format strOf ((Dict.get? state "input").getD (.str ""))
  let msgs := msgs ++ [.dict [(.str "role", .str "supervisor"), (.str "content", .str s!"ack:{input}")]]
  let nextState := Dict.set nextState "messages" (.list msgs)
  return Dict.set nextState "completed" (.bool true)

inductive Outcome where
  | ok | killed | maxStepsExceeded | cancelled | error
  deriving DecidableEq, Repr

def Outcome.text : Outcome → String
  | .ok => "ok"
  | .killed => "killed"
  | .maxStepsExceeded => "max_steps_exceeded"
  | .cancelled => "cancelled"
  | .error => "error"

structure Supervisor where
  db : Dialect
  redisChannel : String
  maxSteps : Int
  deriving DecidableEq, Repr

structure Request where
  threadId : Option String
  inputText : String
  metadata : Dict

/-- The places where one call of `invoke` reads the clock. -/
inductive Site where
  | audit
  | status (status : String)
  | event (type : EventType) (iteration : Nat)
  deriving DecidableEq, Repr

/-- What `uuid4`, `_utcnow_iso` and `perf_counter` give one call of `invoke`. -/
structure Draws where
  threadId : String
  requestId : String
  checkpointId : Nat → String
  metricId : String
  now : Site → String
  elapsedMs : PyFloat

structure InvokeResult where
  threadId : String
  requestId : String
  outcome : Outcome
  state : Dict

namespace Supervisor

variable (sup : Supervisor) (req : Request) (d : Draws)

def tid : String := pyOr req.threadId d.threadId

def setStatus (status : String) (lastEvent : String) : Async Unit :=
  setThreadStatus sup.db (tid req d) status (some lastEvent) (d.now (.status status))

/-- `_publish`, in loop iteration `i` where the event has one. -/
def publish (type : EventType) (i : Nat) (payload : Dict) : Async Unit :=
  Store.publish sup.redisChannel ⟨type, tid req d, payload, d.now (.event type i)⟩

def auditPayload : Dict :=
  [(.str "request_id", .str d.requestId), (.str "input", .str req.inputText),
    (.str "metadata", .dict req.metadata)]

def audit : Async AuditRecord :=
  insertAudit sup.db "agent.invoke.requested" (auditPayload req d) (some (tid req d))
    (some s!"agent invoke requested for thread {tid req d}") (some d.requestId) d.requestId
    (d.now .audit)

/-- The value `state.get("step")` puts in an event. -/
def stepOf (state : Dict) : PyVal := (Dict.get? state "step").getD .none

/-- How one iteration of the step loop ends: by `break`, or with the state and
the parent of the next one. -/
inductive Next where
  | stop (outcome : Outcome) (resultState : Dict)
  | again (state : Dict) (parentId : String)

def iteration (i : Nat) (state : Dict) (parentId : Option String) : Async Next := do
  if ← isKillRequested (tid req d) then
    publish sup req d .invokeKilled i
      [(.str "request_id", .str d.requestId), (.str "reason", .str "cooperative_kill")]
    setStatus sup req d "killed" "agent.invoke.killed"
    return .stop .killed state
  else
    publish sup req d .stepStart i
      [(.str "request_id", .str d.requestId), (.str "step", stepOf state)]
    let state ← stepFn state
    let cp ← PostgresCheckpointer.put sup.db (tid req d) state parentId none (d.checkpointId i)
    publish sup req d .stepEnd i
      [(.str "request_id", .str d.requestId), (.str "step", stepOf state),
        (.str "checkpoint_id", .str cp.checkpointId)]
    if Dict.truthyAt state "completed" then
      return .stop .ok state
    else
      return .again state cp.checkpointId

/-- The step loop from iteration `i` on, with `n` iterations left. -/
def loop : (n i : Nat) → (state : Dict) → (parentId : Option String) → Async (Outcome × Dict)
  | 0, _, state, _ => return (.maxStepsExceeded, state)
  | n + 1, i, state, parentId => do
    match ← iteration sup req d i state parentId with
    | .stop outcome resultState => return (outcome, resultState)
    | .again state parentId => loop n (i + 1) state (some parentId)

/-- The state the loop starts from. -/
def resume (latest : Option CheckpointTuple) : Dict :=
  let state : Dict :=
    match latest with
    | some cp => cp.state
    | none => [(.str "messages", .list []), (.str "step", .int 0)]
  Dict.set (Dict.set state "input" (.str req.inputText)) "thread_id" (.str (tid req d))

def body : Async (Outcome × Dict) := do
  let latest ← PostgresCheckpointer.getLatest (tid req d)
  loop sup req d sup.maxSteps.toNat 0 (resume req d latest) (latest.map (·.checkpointId))

/-- The two except clauses: what each assigns to `outcome`, and its calls before `raise`. -/
def handler : Exc → Outcome × Async Unit
  | .cancelled => (.cancelled, do
    setStatus sup req d "cancelled" "cancelled"
    publish sup req d .invokeCancelled 0 [(.str "request_id", .str d.requestId)])
  | .exception _ s => (.error, do
    setStatus sup req d "error" (String.ofList (s.toList.take 200))
    publish sup req d .invokeError 0
      [(.str "request_id", .str d.requestId), (.str "error", .str s)])

def finallyBlock (outcome : Outcome) : Async Unit := do
  let _ ← recordInvokeLatency (some (tid req d)) (some d.requestId) d.elapsedMs outcome.text
    "agent_invoke_latency_ms" d.metricId

/-- Between the audit row and the try statement. -/
def opening : Async Unit := do
  setStatus sup req d "running" "agent.invoke.start"
  publish sup req d .invokeStart 0
    [(.str "request_id", .str d.requestId), (.str "input", .str req.inputText)]

/-- After the try statement. -/
def conclude (outcome : Outcome) (resultState : Dict) : Async Unit := do
  if outcome = .ok then
    setStatus sup req d "completed" "agent.invoke.end"
    publish sup req d .invokeEnd 0
      [(.str "request_id", .str d.requestId), (.str "step", stepOf resultState)]

def result (outcome : Outcome) (resultState : Dict) : InvokeResult :=
  ⟨tid req d, d.requestId, outcome, resultState⟩

/-- What follows the audit row. -/
def proceed : Async InvokeResult := do
  opening sup req d
  let (outcome, resultState) ←
    (body sup req d).tryFinally (handler sup req d) (finallyBlock req d)
  conclude sup req d outcome resultState
  return result req d outcome resultState

def invoke : Async InvokeResult := do
  let _ ← audit sup req d
  proceed sup req d

end Supervisor

end NoblePort.Runtime
