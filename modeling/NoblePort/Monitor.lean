import NoblePort.System
import NoblePort.Invocation

/-!
# What one call has done so far

The answered calls of one task are folded into a summary: the statuses,
events, metric rows and checkpoints it wrote, the answers it was given, and
the calls that raised. Each part of `invoke` has its rule here, the loop
iteration too.
-/
namespace NoblePort.Monitor

open Coroutine Coroutine.Contract NoblePort.Values NoblePort.Store NoblePort.ThreadState
open NoblePort.Records NoblePort.Runtime NoblePort.System

/-- A call that raised. -/
structure Fault where
  op : Op
  exc : Exc

/-- `audited` tells that an audit row went in. `status` is the last status
written; `late` are the faults since an `agent.invoke.killed` event was
published. -/
structure Summary where
  audited : Bool := false
  status : Option String := none
  events : List Event := []
  metrics : List MetricRow := []
  checkpoints : List CheckpointRow := []
  killReads : List Bool := []
  produced : List Dict := []
  faults : List Fault := []
  late : List Fault := []

def Summary.fault (s : Summary) (op : Op) (e : Exc) : Summary :=
  { s with
    faults := s.faults ++ [⟨op, e⟩]
    late := if s.events.any Event.kills then s.late ++ [⟨op, e⟩] else s.late }

def Summary.audit (s : Summary) : Summary := { s with audited := true }

@[simp] theorem Summary.audit_events (s : Summary) : s.audit.events = s.events := rfl

@[simp] theorem Summary.audit_metrics (s : Summary) : s.audit.metrics = s.metrics := rfl

def Summary.answer (s : Summary) : (op : Op) → op.Resp → Summary
  | .publish _ event, _ => { s with events := s.events ++ [event] }
  | .execute (.insertAuditLog _ _), _ => s.audit
  | .execute (.insertThreadState row), _ => { s with status := some row.status }
  | .execute (.updateThreadState status ..), _ => { s with status := some status }
  | .execute (.insertAgentMetrics row), _ => { s with metrics := s.metrics ++ [row] }
  | .execute (.insertCheckpoint _ row), _ =>
    { s with checkpoints := s.checkpoints ++ [row] }
  | .fetch (.killRequested _), row =>
    { s with killReads := s.killReads ++ [((row : Option ThreadRow).map
        (·.killRequested.truthy)).getD false] }
  | .stepFn _, state => { s with produced := s.produced ++ [state] }
  | _, _ => s

def note (s : Summary) (e : Answered) : Summary :=
  match e.result with
  | .ok r => s.answer e.op r
  | .error exc => s.fault e.op exc

/-- Rely on `rely` of the answers, and keep `holds` at every await. -/
def monitor (rely : Summary → Answered → Prop) (holds : Summary → Prop) :
    Contract Op Op.Resp Exc Summary where
  observe := note
  rely := rely
  guarantee s _ := holds s

/-- The calls on `agent_thread_state`. -/
def onThread : Op → Bool
  | .fetch (.threadKillRequested _) | .fetch (.killRequested _) => true
  | .execute (.insertThreadState _) | .execute (.updateThreadState ..) => true
  | _ => false

/-- The two calls of `insert_audit`. -/
def auditing : Op → Bool
  | .jsonDumps _ | .execute (.insertAuditLog _ _) => true
  | _ => false

/-- The two calls that the audit row of an invocation takes. -/
inductive AuditCall (req : Request) (d : Draws) : Op → Prop where
  | dumps : AuditCall req d (.jsonDumps (Supervisor.auditPayload req d))
  | insert (jsonb : Bool) (row : AuditRow) : AuditCall req d (.execute (.insertAuditLog jsonb row))

theorem AuditCall.auditing {req : Request} {d : Draws} {op : Op} (h : AuditCall req d op) :
    auditing op = true := by
  cases h <;> rfl

/-- What `insert_audit` raises when one of its calls does. -/
def auditRaises : Op → Exc → Exc
  | .jsonDumps _, .exception .typeError s | .jsonDumps _, .exception .valueError s =>
    .exception .auditError s!"audit payload is not JSON-serialisable: {s}"
  | .jsonDumps _, e => e
  | _, .exception _ s => .exception .auditError s!"failed to insert audit record: {s}"
  | _, .cancelled => .cancelled

theorem auditRaises_dumps (fields : Dict) {e : Exc} (htype : ∀ s, e ≠ .exception .typeError s)
    (hvalue : ∀ s, e ≠ .exception .valueError s) : auditRaises (.jsonDumps fields) e = e := by
  unfold auditRaises
  split <;> simp_all

section Points

variable (req : Request) (d : Draws) (i : Nat) (state : Dict) (parent : Option String)

def Summary.published (s : Summary) (type : EventType) (payload : Dict) : Summary :=
  { s with events := s.events ++ [⟨type, Supervisor.tid req d, payload, d.now (.event type i)⟩] }

def Summary.looked (s : Summary) (killed : Bool) : Summary :=
  { s with killReads := s.killReads ++ [killed] }

/-- An iteration that saw the flag set, before it writes the status. -/
def Summary.killed (s : Summary) : Summary :=
  (s.looked true).published req d i .invokeKilled
    [(.str "request_id", .str d.requestId), (.str "reason", .str "cooperative_kill")]

def Summary.started (s : Summary) : Summary :=
  (s.looked false).published req d i .stepStart
    [(.str "request_id", .str d.requestId), (.str "step", Supervisor.stepOf state)]

def Summary.stepped (s : Summary) (next : Dict) : Summary :=
  { s.started req d i state with produced := s.produced ++ [next] }

def Summary.stored (s : Summary) (next : Dict) (text : JsonObject) : Summary :=
  { s.stepped req d i state next with
    checkpoints := s.checkpoints ++ [⟨Supervisor.tid req d, d.checkpointId i, parent, text⟩] }

/-- An iteration that took its step, when its last event is published. -/
def Summary.ended (s : Summary) (next : Dict) (text : JsonObject) : Summary :=
  (s.stored req d i state parent next text).published req d i .stepEnd
    [(.str "request_id", .str d.requestId), (.str "step", Supervisor.stepOf next),
      (.str "checkpoint_id", .str (d.checkpointId i))]

/-- Where an iteration from `s` awaits, and the call it awaits there; `given`
tells what the step function may give it. -/
inductive Awaits (given : Dict → Prop) (s : Summary) : Summary → Op → Prop where
  | flag : Awaits given s s (.fetch (.killRequested (Supervisor.tid req d)))
  | kill {channel : String} {event : Event} :
    event.type = .invokeKilled → Awaits given s (s.looked true) (.publish channel event)
  | status {op : Op} : onThread op = true → Awaits given s (s.killed req d i) op
  | start {channel : String} {event : Event} :
    event.type = .stepStart → Awaits given s (s.looked false) (.publish channel event)
  | step : Awaits given s (s.started req d i state) (.stepFn state)
  | dumps (next : Dict) : given next →
      Awaits given s (s.stepped req d i state next) (.jsonDumps next)
  | insert (next : Dict) (jsonb : Bool) (row : CheckpointRow) :
    Awaits given s (s.stepped req d i state next) (.execute (.insertCheckpoint jsonb row))
  | finish (next : Dict) (text : JsonObject) {channel : String} {event : Event} :
    event.type = .stepEnd →
      Awaits given s (s.stored req d i state parent next text) (.publish channel event)

end Points

section Rules

variable {rely : Summary → Answered → Prop} {holds : Summary → Prop} {s : Summary}
  {sup : Supervisor} {req : Request} {d : Draws}

theorem wp_call {op : Op} {Q : Summary → Except Exc op.Resp → Prop} (hs : holds s)
    (hok : ∀ r landed, rely s ⟨op, .ok r, landed⟩ → Q (s.answer op r) (.ok r))
    (hfault : ∀ e landed, rely s ⟨op, .error e, landed⟩ → Q (s.fault op e) (.error e)) :
    (monitor rely holds).wp (.call op) Q s := by
  rw [Contract.wp_call]
  refine ⟨hs, ?_⟩
  intro r landed hr
  cases r with
  | ok r => exact hok r landed hr
  | error e => exact hfault e landed hr

theorem wp_setStatus {Q : Summary → Except Exc Unit → Prop} (status event : String) (hs : holds s)
    (hok : Q { s with status := some status } (.ok ()))
    (hfault : ∀ op e landed, onThread op = true → rely s ⟨op, .error e, landed⟩ →
      Q (s.fault op e) (.error e)) :
    (monitor rely holds).wp (sup.setStatus req d status event) Q s := by
  unfold Supervisor.setStatus setThreadStatus
  rw [upsert_eq, wp_bind]
  refine wp_call hs (fun existing _ _ => ?_) (fun e landed hr => hfault _ e landed rfl hr)
  refine wp_call hs (fun u _ _ => ?_) (fun e landed hr => hfault _ e landed ?_ hr)
  · cases existing <;> exact hok
  · cases existing <;> rfl

/-- Writing the status and publishing: the opening, the except clauses and the end. -/
theorem wp_announce {Q : Summary → Except Exc Unit → Prop} {status lastEvent : String}
    {type : EventType} {i : Nat} {payload : Dict} (hs : holds s)
    (hwritten : holds { s with status := some status })
    (hok : Q { s with status := some status, events := s.events ++
      [⟨type, Supervisor.tid req d, payload, d.now (.event type i)⟩] } (.ok ()))
    (hthread : ∀ op e landed, onThread op = true → rely s ⟨op, .error e, landed⟩ →
      Q (s.fault op e) (.error e))
    (hpublish : ∀ channel event e landed, event.type = type →
      rely { s with status := some status } ⟨.publish channel event, .error e, landed⟩ →
      Q (Summary.fault { s with status := some status } (.publish channel event) e) (.error e)) :
    (monitor rely holds).wp (sup.setStatus req d status lastEvent >>= fun _ =>
      sup.publish req d type i payload) Q s := by
  rw [wp_bind]
  refine wp_setStatus _ _ hs ?_ hthread
  exact wp_call hwritten (fun _ _ _ => hok) (fun e landed hr => hpublish _ _ e landed rfl hr)

theorem wp_audit {Q : Summary → Except Exc AuditRecord → Prop} (hs : holds s)
    (hok : ∀ r, Q s.audit (.ok r))
    (hfault : ∀ op e landed, AuditCall req d op → rely s ⟨op, .error e, landed⟩ →
      Q (s.fault op e) (.error (auditRaises op e))) :
    (monitor rely holds).wp (sup.audit req d) Q s := by
  unfold Supervisor.audit
  rw [insertAudit_eq]
  refine wp_seq (R := ends (fun _ s' => s' = s) fun e' s' => Q s' (.error e')) _ _ _ _ ?_ ?_
    (fun _ _ h => h)
  · let dumped := Op.jsonDumps (Supervisor.auditPayload req d)
    refine wp_tryExcept (R := ends (fun _ s' => s' = s) fun e s' => ∃ landed,
      s' = s.fault dumped e ∧ rely s ⟨dumped, .error e, landed⟩)
      _ _ _ _ ?_ (fun _ _ h => h) ?_
    · exact wp_call hs (fun _ _ _ => rfl) fun e landed hr => ⟨landed, rfl, hr⟩
    rintro s' e ⟨landed, rfl, hr⟩
    have h := hfault dumped e landed .dumps hr
    split
    · exact h
    · exact h
    · rename_i hother htype
      rw [auditRaises_dumps _ hother htype] at h
      exact h
  · rintro s' payload rfl
    refine wp_seq (R := ends (fun _ s'' => s'' = s'.audit) fun e' s'' =>
      Q s'' (.error e')) _ _ _ _ ?_ ?_ (fun _ _ h => h)
    · refine wp_tryExcept (R := ends (fun _ s'' => s'' = s'.audit) fun e s'' => ∃ jsonb row landed,
        s'' = s'.fault (.execute (.insertAuditLog jsonb row)) e ∧
        rely s' ⟨.execute (.insertAuditLog jsonb row), .error e, landed⟩)
        _ _ _ _ ?_ (fun _ _ h => h) ?_
      · exact wp_call hs (fun _ _ _ => rfl) fun e landed hr => ⟨_, _, landed, rfl, hr⟩
      rintro s'' e ⟨jsonb, row, landed, rfl, hr⟩
      have h := hfault _ e landed (.insert jsonb row) hr
      cases e <;> exact h
    · rintro s'' _ rfl
      exact hok _

theorem wp_getLatest {Q : Summary → Except Exc (Option CheckpointTuple) → Prop} (t : String)
    (hs : holds s)
    (hok : ∀ row landed, rely s ⟨.fetch (.latestCheckpoint t), .ok row, landed⟩ →
      Q s (.ok ((row : Option CheckpointRow).map .ofRow)))
    (hfault : ∀ op e landed, op = .fetch (.latestCheckpoint t) → rely s ⟨op, .error e, landed⟩ →
      Q (s.fault op e) (.error e)) :
    (monitor rely holds).wp (PostgresCheckpointer.getLatest t) Q s := by
  unfold PostgresCheckpointer.getLatest
  rw [wp_bind]
  refine wp_call hs (fun row landed hr => ?_) (fun e landed hr => hfault _ e landed rfl hr)
  have h := hok row landed hr
  cases row <;> exact h

theorem wp_isKillRequested {Q : Summary → Except Exc Bool → Prop} (t : String) (hs : holds s)
    (hok : ∀ killed, Q (s.looked killed) (.ok killed))
    (hfault : ∀ e landed, rely s ⟨.fetch (.killRequested t), .error e, landed⟩ →
      Q (s.fault (.fetch (.killRequested t)) e) (.error e)) :
    (monitor rely holds).wp (isKillRequested t) Q s := by
  unfold isKillRequested
  rw [wp_bind]
  refine wp_call hs (fun row _ _ => ?_) (fun e landed hr => hfault e landed hr)
  cases row <;> exact hok _

theorem wp_put {Q : Summary → Except Exc CheckpointTuple → Prop} (db : Dialect) (t : String)
    (state : Dict) (parentId : Option String) (uuid : String) (hs : holds s)
    (hok : ∀ text landed, rely s ⟨.jsonDumps state, .ok text, landed⟩ →
      Q { s with checkpoints := s.checkpoints ++ [⟨t, uuid, parentId, text⟩] }
        (.ok ⟨t, uuid, parentId, state⟩))
    (hdumps : ∀ e landed, rely s ⟨.jsonDumps state, .error e, landed⟩ →
      Q (s.fault (.jsonDumps state) e) (.error e))
    (hinsert : ∀ jsonb row e landed,
      rely s ⟨.execute (.insertCheckpoint jsonb row), .error e, landed⟩ →
      Q (s.fault (.execute (.insertCheckpoint jsonb row)) e) (.error e)) :
    (monitor rely holds).wp (PostgresCheckpointer.put db t state parentId none uuid) Q s := by
  unfold PostgresCheckpointer.put
  rw [wp_bind]
  refine wp_call hs (fun text landed hr => ?_) (fun e landed hr => hdumps e landed hr)
  rw [andThen_ok, wp_bind]
  exact wp_call hs (fun _ _ _ => hok text landed hr) (fun e landed hr => hinsert _ _ e landed hr)

/-- One iteration: what every await keeps, what a fault there leaves, and the two ways on. -/
theorem wp_iteration {Q : Summary → Except Exc Supervisor.Next → Prop} (i : Nat) (state : Dict)
    (parent : Option String)
    (hawaits : ∀ s' op, Awaits req d i state parent (fun next => ∃ landed,
      rely (s.started req d i state) ⟨.stepFn state, .ok next, landed⟩) s s' op → holds s')
    (hfault : ∀ s' op e landed, Awaits req d i state parent (fun next => ∃ landed,
      rely (s.started req d i state) ⟨.stepFn state, .ok next, landed⟩) s s' op →
      rely s' ⟨op, .error e, landed⟩ → Q (s'.fault op e) (.error e))
    (hkilled : Q { s.killed req d i with status := some "killed" } (.ok (.stop .killed state)))
    (hended : ∀ next text landed landed',
      rely (s.started req d i state) ⟨.stepFn state, .ok next, landed⟩ →
      rely (s.stepped req d i state next) ⟨.jsonDumps next, .ok text, landed'⟩ →
      Q (s.ended req d i state parent next text) (.ok (if Dict.truthyAt next "completed" then
        .stop .ok next else .again next (d.checkpointId i)))) :
    (monitor rely holds).wp (sup.iteration req d i state parent) Q s := by
  let given : Dict → Prop := fun next => ∃ landed,
    rely (s.started req d i state) ⟨.stepFn state, .ok next, landed⟩
  have hcall {s' : Summary} {op : Op} {Q' : Summary → Except Exc op.Resp → Prop}
      (ha : Awaits req d i state parent given s s' op)
      (hok : ∀ r landed, rely s' ⟨op, .ok r, landed⟩ → Q' (s'.answer op r) (.ok r))
      (herror : ∀ e, Q (s'.fault op e) (.error e) → Q' (s'.fault op e) (.error e)) :
      (monitor rely holds).wp (.call op) Q' s' :=
    wp_call (hawaits s' op ha) hok fun e landed hr => herror e (hfault s' op e landed ha hr)
  unfold Supervisor.iteration
  rw [wp_bind]
  refine wp_isKillRequested _ (hawaits _ _ .flag) (fun killed => ?_)
    (fun e landed hr => hfault _ _ e landed .flag hr)
  cases killed with
  | true =>
    rw [andThen_ok, if_pos rfl, wp_bind]
    refine hcall (.kill rfl) (fun _ _ _ => ?_) fun _ h => h
    rw [andThen_ok, wp_bind]
    have hreads : Awaits req d i state parent given s (s.killed req d i)
        (.fetch (.threadKillRequested (Supervisor.tid req d))) := .status rfl
    exact wp_setStatus _ _ (hawaits _ _ hreads) hkilled
      (fun op e landed hop hr => hfault _ op e landed (.status hop) hr)
  | false =>
    rw [andThen_ok, if_neg nofun, wp_bind]
    refine hcall (.start rfl) (fun _ _ _ => ?_) fun _ h => h
    rw [andThen_ok, wp_bind]
    refine hcall .step (fun next landed hnext => ?_) fun _ h => h
    rw [andThen_ok, wp_bind]
    refine wp_put _ _ _ _ _ (hawaits _ _ (.dumps next ⟨landed, hnext⟩)) (fun text _ htext => ?_)
      (fun e landed' hr => hfault _ _ e landed' (.dumps next ⟨landed, hnext⟩) hr)
      (fun _ _ e landed hr => hfault _ _ e landed (.insert next _ _) hr)
    rw [andThen_ok, wp_bind]
    refine hcall (.finish next text rfl) (fun _ _ _ => ?_) fun _ h => h
    have h := hended next text _ _ hnext htext
    rw [andThen_ok]
    split <;> rename_i hcompleted
    · rwa [if_pos hcompleted] at h
    · rwa [if_neg hcompleted] at h

/-- The metric row of an invocation. -/
def metricRow (req : Request) (d : Draws) (outcome : Outcome) : MetricRow :=
  ⟨d.metricId, some (Supervisor.tid req d), some d.requestId, "agent_invoke_latency_ms", d.elapsedMs,
    outcome.text⟩

theorem wp_finallyBlock {Q : Summary → Except Exc Unit → Prop} (outcome : Outcome) (hs : holds s)
    (hok : Q { s with metrics := s.metrics ++ [metricRow req d outcome] } (.ok ()))
    (hfault : ∀ e landed, rely s ⟨.execute (.insertAgentMetrics (metricRow req d outcome)), .error e,
      landed⟩ → Q (s.fault (.execute (.insertAgentMetrics (metricRow req d outcome))) e) (.error e)) :
    (monitor rely holds).wp (Supervisor.finallyBlock req d outcome) Q s := by
  unfold Supervisor.finallyBlock recordInvokeLatency
  rw [wp_bind, wp_bind]
  exact wp_call hs (fun _ _ _ => hok) (fun e landed hr => hfault e landed hr)

/-- An outline of what follows the audit row verifies `invoke`. -/
theorem wp_invoke {Q : Summary → Except Exc InvokeResult → Prop}
    (O : Invocation.Outline (monitor rely holds) sup req d (· = s.audit) Q)
    (hs : holds s) (hfault : ∀ op e landed, AuditCall req d op → rely s ⟨op, .error e, landed⟩ →
      Q (s.fault op e) (.error (auditRaises op e))) :
    (monitor rely holds).wp (sup.invoke req d) Q s := by
  refine wp_seq (R := ends (fun _ s' => s' = s.audit) fun e' s' =>
    Q s' (.error e')) _ _ _ _ (wp_audit hs (fun _ => rfl) hfault) ?_ (fun _ _ h => h)
  intro s' _ h
  exact Invocation.wp_proceed O s' h

theorem wp_program {Q : Summary → Except Exc InvokeResult → Prop}
    (hwp : (monitor rely holds).wp (sup.invoke req d) Q s) :
    (monitor rely holds).wp (Operation.invoke sup req d).program
      (fun s r => ∃ r', r = r'.map Reply.invoked ∧ Q s r') s :=
  wp_seq (R := Q) _ _ _ _ hwp (fun _ res h => ⟨.ok res, rfl, h⟩) (fun _ e h => ⟨.error e, rfl, h⟩)

end Rules

variable {ι : Type} [DecidableEq ι] {ops : ι → Operation} {w₀ : World}

/-- What task `i` has done. -/
def summaryOf (s : Stack ι) (i : ι) : Summary := (s.traceOf i).foldl note {}

/-- How a verified invocation stands: at an await, returned or raised. -/
theorem stands {rely : Summary → Answered → Prop} {holds : Summary → Prop}
    {Q : Summary → Except Exc InvokeResult → Prop} {cond : Stack ι → ι → Choice → Prop}
    {s : Stack ι} (h : Reach cond (start ops w₀) s) {i : ι} {sup : Supervisor} {req : Request}
    {d : Draws} (hi : ops i = .invoke sup req d)
    (hwp : (monitor rely holds).wp (sup.invoke req d) Q {})
    (hrely : (monitor rely holds).Relied {} (s.traceOf i)) :
    match outcomeOf s i with
    | some (.ok (.invoked res)) => Q (summaryOf s i) (.ok res)
    | some (.ok _) => False
    | some (.error e) => Q (summaryOf s i) (.error e)
    | none => holds (summaryOf s i) := by
  have hwp := h.wp_task (i := i) rfl (show (monitor rely holds).wp ((start ops w₀).task i) _ {} by
    simpa [start, hi] using wp_program hwp) hrely
  unfold outcomeOf
  cases ht : s.task i with
  | ret r =>
    rw [ht] at hwp
    obtain ⟨r', hr, hQ⟩ := hwp
    cases r' with
    | ok res => cases hr; exact hQ
    | error e => cases hr
  | raise e =>
    rw [ht] at hwp
    obtain ⟨r', hr, hQ⟩ := hwp
    cases r' with
    | ok res => cases hr
    | error e => cases hr; exact hQ
  | await op k =>
    rw [ht] at hwp
    exact hwp.1

/-- The same from an outline, where every end after a fault of the audit will do. -/
theorem monitored {rely : Summary → Answered → Prop} {holds : Summary → Prop}
    {Q : Summary → Except Exc InvokeResult → Prop} {cond : Stack ι → ι → Choice → Prop}
    {s : Stack ι} (h : Reach cond (start ops w₀) s) {i : ι} {sup : Supervisor} {req : Request}
    {d : Draws} (hi : ops i = .invoke sup req d)
    (O : Invocation.Outline (monitor rely holds) sup req d (· = Summary.audit {}) Q)
    (hs : holds {})
    (hfault : ∀ op e e', Q (Summary.fault {} op e) (.error e'))
    (hrely : (monitor rely holds).Relied {} (s.traceOf i)) :
    match outcomeOf s i with
    | some (.ok (.invoked res)) => Q (summaryOf s i) (.ok res)
    | some (.ok _) => False
    | some (.error e) => Q (summaryOf s i) (.error e)
    | none => holds (summaryOf s i) :=
  stands h hi (wp_invoke O hs fun op e _ _ _ => hfault op e _) hrely

end NoblePort.Monitor
