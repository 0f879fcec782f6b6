import NoblePort.Requests

/-!
# The HTTP surface

The request models of `app/api/models.py` and the endpoints of `app/api/app.py`
that use the supervisor stack. A request that the framework cannot parse into
its model is answered 422 and never reaches its endpoint.
-/
namespace NoblePort.Api

open Coroutine NoblePort.Values NoblePort.Store NoblePort.ThreadState NoblePort.Runtime

/-- A character of `[A-Za-z0-9_\-:.]`. -/
def safeChar (c : Char) : Bool :=
  c.isAlphanum || c == '_' || c == '-' || c == ':' || c == '.'

/-- `re.fullmatch(r"[A-Za-z0-9_\-:.]+", v)`. -/
def fullmatch (v : String) : Bool := !v.isEmpty && v.toList.all safeChar

/-- What `InvokeRequest` asks of a thread id. -/
def SafeThreadId (v : String) : Prop := v.length ≤ 128 ∧ fullmatch v = true

instance (v : String) : Decidable (SafeThreadId v) := inferInstanceAs (Decidable (_ ∧ _))

inductive Problem where
  | jsonInvalid | missing | stringType | stringTooShort | stringTooLong | valueError | dictType
  | modelType
  deriving DecidableEq, Repr

/-- A problem and the field it is about. -/
structure FieldError where
  field : String
  problem : Problem
  deriving DecidableEq, Repr

/-- The body of `POST /agent/invoke`. -/
structure InvokeRequest where
  input : String
  threadId : Option String
  metadata : Dict
  input_length : 1 ≤ input.length ∧ input.length ≤ 32768
  thread_id_safe : ∀ v, threadId = some v → SafeThreadId v

namespace InvokeRequest

/-- A field of a JSON object; of two with one name the later counts. -/
def field (fields : JsonObject) (key : String) : Option Json :=
  (fields.reverse.find? fun f => f.1 == key).map Prod.snd

def validateInput : Option Json →
    Except FieldError { v : String // 1 ≤ v.length ∧ v.length ≤ 32768 }
  | none => .error ⟨"input", .missing⟩
  | some (.str v) =>
    if h : v.length < 1 then .error ⟨"input", .stringTooShort⟩
    else if h' : 32768 < v.length then .error ⟨"input", .stringTooLong⟩
    else .ok ⟨v, by omega, by omega⟩
  | some _ => .error ⟨"input", .stringType⟩

def validateThreadId : Option Json →
    Except FieldError { v : Option String // ∀ t, v = some t → SafeThreadId t }
  | none | some .null => .ok ⟨none, nofun⟩
  | some (.str v) =>
    if h : 128 < v.length then .error ⟨"thread_id", .stringTooLong⟩
    else if h' : fullmatch v = true then
      .ok ⟨some v, by rintro t ht; cases ht; exact ⟨by omega, h'⟩⟩
    else .error ⟨"thread_id", .valueError⟩
  | some _ => .error ⟨"thread_id", .stringType⟩

def validateMetadata : Option Json → Except FieldError Dict
  | none => .ok []
  | some (.obj fields) => .ok (loads fields)
  | some _ => .error ⟨"metadata", .dictType⟩

def problems {α : Type} : Except FieldError α → List FieldError
  | .ok _ => []
  | .error e => [e]

/-- Validate a body, which is `none` when it is not JSON. The errors of all
fields are reported together. -/
def validate : Option Json → Except (List FieldError) InvokeRequest
  | none => .error [⟨"body", .jsonInvalid⟩]
  | some (.obj fields) =>
    match validateInput (field fields "input"), validateThreadId (field fields "thread_id"),
      validateMetadata (field fields "metadata") with
    | .ok input, .ok threadId, .ok metadata =>
      .ok ⟨input.val, threadId.val, metadata, input.property, threadId.property⟩
    | input, threadId, metadata => .error (problems input ++ problems threadId ++ problems metadata)
  | some _ => .error [⟨"body", .modelType⟩]

end InvokeRequest

structure InvokeResponse where
  threadId : String
  requestId : String
  outcome : String
  state : Dict

/-- `InvokeResponse(**result)`: the keys of `state` have to be strings. -/
def InvokeResponse.ofResult (result : InvokeResult) : Except Exc InvokeResponse :=
  if result.state.all fun item => item.1.isStr then
    .ok ⟨result.threadId, result.requestId, result.outcome.text, result.state⟩
  else .error (.exception .valueError "validation error for InvokeResponse")

inductive Response where
  | invoked (response : InvokeResponse)
  | status (response : ThreadStatus)
  | killed (response : KillReply)
  | unknownThread
  | unprocessable (errors : List FieldError)
  | auditFailure (message : String)

def Response.statusCode : Response → Nat
  | .invoked _ | .status _ | .killed _ => 200
  | .unknownThread => 404
  | .unprocessable _ => 422
  | .auditFailure _ => 503

/-- What `invoke` hands to the supervisor. -/
def InvokeRequest.toRequest (req : InvokeRequest) : Request := ⟨req.threadId, req.input, req.metadata⟩

/-- `POST /agent/invoke`. Only an `AuditError` is caught. -/
def invoke (sup : Supervisor) (req : InvokeRequest) (d : Draws) : Async Response := do
  let answer : Except Response InvokeResult ←
    Prog.tryExcept (do
      let result ← sup.invoke req.toRequest d
      return .ok result) fun e =>
      match e with
      | .exception .auditError s => return .error (.auditFailure s)
      | e => .raise e
  match answer with
  | .error response => return response
  | .ok result => Prog.ofExcept ((InvokeResponse.ofResult result).map .invoked)

/-- `GET /agent/status/{thread_id}`. -/
def status (threadId : String) : Async Response := do
  match ← getThreadStatus threadId with
  | none => return .unknownThread
  | some row => return .status row

/-- `POST /agent/kill/{thread_id}`. -/
def kill (db : Dialect) (threadId now : String) : Async Response := do
  let result ← requestKill db threadId now
  return .killed result

/-- A request, with what the call that serves it is given by `uuid4` and the clock. -/
inductive HttpRequest where
  | invoke (body : Option Json) (d : Draws)
  | status (threadId : String)
  | kill (threadId now : String)

def HttpRequest.program (sup : Supervisor) : HttpRequest → Async Response
  | .invoke body d =>
    match InvokeRequest.validate body with
    | .ok req => Api.invoke sup req d
    | .error errors => return .unprocessable errors
  | .status threadId => Api.status threadId
  | .kill threadId now => Api.kill sup.db threadId now

/-- Any number of requests, each suspended at its awaits. -/
abbrev Server (ι : Type) := Pool ι Op Op.Resp Exc Response World

def serve {ι : Type} (sup : Supervisor) (reqs : ι → HttpRequest) (w : World) : Server ι :=
  ⟨w, fun i => (reqs i).program sup, []⟩

abbrev Serves {ι : Type} [DecidableEq ι] (s₀ s : Server ι) : Prop :=
  Pool.Reach interp (fun _ _ _ => True) s₀ s

/-- The response to a request, or the exception that its endpoint let through. -/
def answerTo {ι : Type} (s : Server ι) (i : ι) : Option (Except Exc Response) :=
  match s.task i with
  | .ret r => some (.ok r)
  | .raise e => some (.error e)
  | .await _ _ => none

/-- The status code the client sees; an exception is a 500, a cancelled request gets none. -/
def statusCode : Except Exc Response → Option Nat
  | .ok response => some response.statusCode
  | .error .cancelled => none
  | .error (.exception _ _) => some 500

/-- No other answer has the code 503. -/
theorem statusCode_unavailable {r : Except Exc Response} :
    statusCode r = some 503 ↔ ∃ msg, r = .ok (.auditFailure msg) := by
  constructor
  · intro h
    match r with
    | .ok (.auditFailure msg) => exact ⟨msg, rfl⟩
    | .ok (.invoked _) | .ok (.status _) | .ok (.killed _) | .ok .unknownThread | .ok (.unprocessable _) => cases h
    | .error .cancelled | .error (.exception _ _) => cases h
  · rintro ⟨msg, rfl⟩
    rfl

end NoblePort.Api
