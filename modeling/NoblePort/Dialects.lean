import Mathlib.Data.Set.Basic
import NoblePort.System

/-!
# The two dialects

The same calls on SQLite and on Postgres. `asyncpg` checks every parameter
against the type of its column before the statement runs; SQLite stores what it
is given, perhaps with a float NaN kept as NULL, which NOT NULL forbids.
-/
namespace NoblePort.Dialects

open Coroutine NoblePort.Values NoblePort.Store NoblePort.ThreadState NoblePort.Records
open NoblePort.System

/-- The column types of `postgres_schema` that parameters are bound to. -/
inductive SqlType where
  | text | jsonb | boolean | doublePrecision | timestamptz
  deriving DecidableEq, Repr

/-- A parameter by its Python type; `json` is a str that holds JSON text. -/
inductive Param where
  | none
  | bool (b : Bool)
  | int (i : Int)
  | float (x : PyFloat)
  | str (s : String)
  | json (fields : JsonObject)

def Param.ofOption : Option String → Param
  | some s => .str s
  | Option.none => .none

def Param.ofFlag : Flag → Param
  | .int i => .int i
  | .bool b => .bool b

/-- None is NULL for every type, and a str is no datetime. -/
def SqlType.accepts : SqlType → Param → Bool
  | _, .none => true
  | .text, .str _ | .text, .json _ => true
  | .jsonb, .json fields => strictObject fields
  | .boolean, .bool _ => true
  | .doublePrecision, .float _ => true
  | _, _ => false

@[simp] theorem accepts_str (s : String) : SqlType.text.accepts (.str s) = true := rfl

@[simp] theorem accepts_ofOption (s : Option String) : SqlType.text.accepts (.ofOption s) = true := by
  cases s <;> rfl

@[simp] theorem accepts_json (fields : JsonObject) :
    SqlType.jsonb.accepts (.json fields) = strictObject fields := rfl

@[simp] theorem accepts_float (x : PyFloat) : SqlType.doublePrecision.accepts (.float x) = true := rfl

@[simp] theorem accepts_time (s : String) : SqlType.timestamptz.accepts (.str s) = false := rfl

/-- The parameters of a statement, each with its column type in `postgres_schema`. -/
def bindings : Stmt → List (SqlType × Param)
  | .insertAuditLog _ row =>
    [(.text, .str row.id), (.text, .str row.eventType), (.jsonb, .json row.payload),
      (.text, .ofOption row.threadId), (.text, .ofOption row.message), (.timestamptz, .str row.createdAt)]
  | .insertAgentMetrics row =>
    [(.text, .str row.id), (.text, .ofOption row.threadId), (.text, .ofOption row.eventId),
      (.text, .str row.metricName), (.doublePrecision, .float row.metricMs), (.text, .str row.outcome)]
  | .insertCheckpoint _ row =>
    [(.text, .str row.threadId), (.text, .str row.checkpointId), (.text, .ofOption row.parentId),
      (.jsonb, .json row.state)]
  | .insertThreadState row =>
    [(.text, .str row.threadId), (.text, .str row.status), (.boolean, .ofFlag row.killRequested),
      (.text, .ofOption row.lastEvent), (.timestamptz, .str row.updatedAt)]
  | .updateThreadState status killRequested lastEvent updatedAt threadId =>
    [(.text, .str status), (.boolean, .ofFlag killRequested), (.text, .ofOption lastEvent),
      (.timestamptz, .str updatedAt), (.text, .str threadId)]

/-- Does the text of the statement cast a parameter with `::jsonb`? -/
def casts : Stmt → Bool
  | .insertAuditLog jsonb _ | .insertCheckpoint jsonb _ => jsonb
  | _ => false

/-- A float NaN goes into a NOT NULL column. -/
def bindsNan : Stmt → Bool
  | .insertAgentMetrics row => row.metricMs == .nan
  | _ => false

/-- Does the statement get as far as the constraints? SQLite has no `::`. -/
def accepts (nanIsNull : Bool) : Dialect → Stmt → Bool
  | .sqlite, st => !casts st && !(nanIsNull && bindsNan st)
  | .postgres, st => (bindings st).all fun binding => binding.1.accepts binding.2

/-- A call alone on a database of the dialect, without a fault. -/
def answerOn (nanIsNull : Bool) (db : Dialect) : (op : Op) → World → Except Exc op.Resp × World
  | .execute st, w =>
    if accepts nanIsNull db st then alone (.execute st) w
    else (.error (.exception .dataError "invalid input for query argument"), w)
  | op, w => alone op w

inductive Call where
  | insertAudit (eventType : String) (payload : Dict) (threadId message auditId : Option String)
      (uuid now : String)
  | setThreadStatus (threadId status : String) (lastEvent : Option String) (now : String)
  | requestKill (threadId now : String)
  | put (threadId : String) (state : Dict) (parentId checkpointId : Option String) (uuid : String)
  | recordInvokeLatency (threadId eventId : Option String) (metricMs : PyFloat)
      (outcome metricName uuid : String)

def Call.program (db : Dialect) : Call → Async Unit
  | .insertAudit eventType payload threadId message auditId uuid now => do
    let _ ← Records.insertAudit db eventType payload threadId message auditId uuid now
  | .setThreadStatus threadId status lastEvent now =>
    ThreadState.setThreadStatus db threadId status lastEvent now
  | .requestKill threadId now => do
    let _ ← ThreadState.requestKill db threadId now
  | .put threadId state parentId checkpointId uuid => do
    let _ ← PostgresCheckpointer.put db threadId state parentId checkpointId uuid
  | .recordInvokeLatency threadId eventId metricMs outcome metricName uuid => do
    let _ ← Records.recordInvokeLatency threadId eventId metricMs outcome metricName uuid

section Runs

variable (nanIsNull : Bool) (db : Dialect)

/-- The call on the database, and whether it succeeded. -/
def Call.on (c : Call) (w : World) : Bool × World :=
  (((c.program db).run (answerOn nanIsNull db) w).1.toBool,
    ((c.program db).run (answerOn nanIsNull db) w).2)

/-- Which of the calls succeeded, and what they left. -/
def runAll (w : World) : List Call → List Bool × World
  | [] => ([], w)
  | c :: calls =>
    ((c.on nanIsNull db w).1 :: (runAll (c.on nanIsNull db w).2 calls).1,
      (runAll (c.on nanIsNull db w).2 calls).2)

end Runs

section Answers

variable {nanIsNull : Bool} {db : Dialect} {w : World}

@[simp] theorem answerOn_dumps (d : Dict) :
    answerOn nanIsNull db (.jsonDumps d) w = (dumps d, w) := rfl

@[simp] theorem answerOn_fetch (q : Query) :
    answerOn nanIsNull db (.fetch q) w = (.ok (w.rows id q), w) := rfl

theorem answerOn_execute (st : Stmt) :
    answerOn nanIsNull db (.execute st) w =
      if accepts nanIsNull db st = false then
        (.error (.exception .dataError "invalid input for query argument"), w)
      else if w.violates st then (.error (.exception .integrityError "constraint failed"), w)
      else (.ok (), w.apply st) := by
  cases ha : accepts nanIsNull db st <;> cases hv : w.violates st <;>
    simp [answerOn, alone, Interp.entry, Interp.settle, interp, World.answer, World.effect, Choice.strike,
      ha, hv]

theorem postgres_refuses_audit (jsonb : Bool) (row : AuditRow) :
    accepts nanIsNull .postgres (.insertAuditLog jsonb row) = false := by
  simp [accepts, bindings]

theorem postgres_refuses_thread (status t : String) (killed : Option Bool) (event : Option String)
    (now : String) (existing : Option ThreadRow) :
    accepts nanIsNull .postgres (upsertStmt .postgres t status killed event now existing) = false := by
  cases existing <;> simp [upsertStmt, accepts, bindings]

/-- One statement: whether it went in, and what it left. -/
def write (nanIsNull : Bool) (db : Dialect) (st : Stmt) (w : World) : Bool × World :=
  if accepts nanIsNull db st = true ∧ w.violates st = false then (true, w.apply st) else (false, w)

theorem answerOn_write (st : Stmt) :
    ((answerOn nanIsNull db (.execute st) w).1.toBool, (answerOn nanIsNull db (.execute st) w).2) =
      write nanIsNull db st w := by
  rw [answerOn_execute, write]
  cases accepts nanIsNull db st <;> cases w.violates st <;> rfl

theorem on_insertAudit (eventType : String) (payload : Dict) (threadId message auditId : Option String)
    (uuid now : String) :
    (Call.insertAudit eventType payload threadId message auditId uuid now).on nanIsNull db w =
      match dumps payload with
      | .ok text => write nanIsNull db (.insertAuditLog (db = .postgres)
          ⟨pyOr auditId uuid, eventType, text, threadId, message, now⟩) w
      | .error _ => (false, w) := by
  simp only [Call.on, Call.program, insertAudit_eq, Prog.run_bind, Prog.run_tryExcept, Prog.run_call,
    answerOn_dumps]
  cases hd : dumps payload with
  | error e =>
    cases e with
    | cancelled => rfl
    | exception cls s => cases cls <;> rfl
  | ok text =>
    simp only
    rw [← answerOn_write]
    rcases answerOn nanIsNull db (.execute (.insertAuditLog (db = .postgres)
      ⟨pyOr auditId uuid, eventType, text, threadId, message, now⟩)) w with ⟨r, w'⟩
    cases r with
    | ok u => rfl
    | error e => cases e <;> rfl

theorem on_put (threadId : String) (state : Dict) (parentId checkpointId : Option String) (uuid : String) :
    (Call.put threadId state parentId checkpointId uuid).on nanIsNull db w =
      match dumps state with
      | .ok text => write nanIsNull db (.insertCheckpoint (db = .postgres)
          ⟨threadId, pyOr checkpointId uuid, parentId, text⟩) w
      | .error _ => (false, w) := by
  simp only [Call.on, Call.program, PostgresCheckpointer.put, Prog.run_bind, Prog.run_call, answerOn_dumps]
  cases hd : dumps state with
  | error e => rfl
  | ok text =>
    simp only
    rw [← answerOn_write]
    rcases answerOn nanIsNull db (.execute (.insertCheckpoint (db = .postgres)
      ⟨threadId, pyOr checkpointId uuid, parentId, text⟩)) w with ⟨r, w'⟩
    cases r <;> rfl

theorem run_upsert (t status : String) (killed : Option Bool) (event : Option String) (now : String) :
    (upsert db t status killed event now).run (answerOn nanIsNull db) w =
      answerOn nanIsNull db (.execute (upsertStmt db t status killed event now (w.thread t))) w := by
  rw [upsert_eq, Prog.run_bind, Prog.run_call, answerOn_fetch]
  exact Prog.run_call _ _ _

theorem on_setThreadStatus (t status : String) (event : Option String) (now : String) :
    (Call.setThreadStatus t status event now).on nanIsNull db w =
      write nanIsNull db (upsertStmt db t status none event now (w.thread t)) w := by
  rw [← answerOn_write, ← run_upsert]
  rfl

theorem on_requestKill (t now : String) :
    (Call.requestKill t now).on nanIsNull db w =
      write nanIsNull db
        (upsertStmt db t "kill_requested" (some true) (some "kill_requested") now (w.thread t)) w := by
  rw [← answerOn_write, ← run_upsert]
  simp only [Call.on, Call.program, requestKill, Prog.run_bind, Prog.run_call, answerOn_fetch]
  cases h : w.rows id (.threadStatus t) <;>
  · simp only [Prog.run_bind]
    rcases (upsert db t "kill_requested" (some true) (some "kill_requested") now).run
      (answerOn nanIsNull db) w with ⟨r, w'⟩
    cases r <;> rfl

theorem on_recordInvokeLatency (threadId eventId : Option String) (metricMs : PyFloat)
    (outcome metricName uuid : String) :
    (Call.recordInvokeLatency threadId eventId metricMs outcome metricName uuid).on nanIsNull db w =
      write nanIsNull db
        (.insertAgentMetrics ⟨uuid, threadId, eventId, metricName, metricMs, outcome⟩) w := by
  rw [← answerOn_write]
  simp only [Call.on, Call.program, recordInvokeLatency, Prog.run_bind, Prog.run_call]
  rcases answerOn nanIsNull db (.execute (.insertAgentMetrics
    ⟨uuid, threadId, eventId, metricName, metricMs, outcome⟩)) w with ⟨r, w'⟩
  cases r <;> rfl

theorem sqlite_accepts {st : Stmt} (hcast : casts st = false) (hnan : bindsNan st = false) :
    accepts nanIsNull .sqlite st = true := by
  simp [accepts, hcast, hnan]

theorem write_refused {st : Stmt} (h : accepts nanIsNull db st = false) :
    write nanIsNull db st w = (false, w) := by
  rw [write, if_neg (by simp [h])]

theorem write_accepted {st : Stmt} (h : accepts nanIsNull db st = true) :
    write nanIsNull db st w = if w.violates st then (false, w) else (true, w.apply st) := by
  cases hv : w.violates st <;> simp [write, h, hv]

end Answers

variable (nanIsNull : Bool)

/-- The call comes to the same on both dialects: the audit payload cannot be
encoded, the checkpoint cannot be encoded, is strict JSON or is already stored,
and the metric is not a NaN that SQLite would refuse. -/
def Benign (w : World) : Call → Prop
  | .insertAudit _ payload _ _ _ _ _ => ∃ e, dumps payload = .error e
  | .setThreadStatus .. | .requestKill .. => False
  | .put threadId state _ checkpointId uuid => ∀ text, dumps state = .ok text → strictObject text = true ∨
      ∃ row ∈ w.langgraphCheckpoints, row.threadId = threadId ∧ row.checkpointId = pyOr checkpointId uuid
  | .recordInvokeLatency _ _ metricMs _ _ uuid => nanIsNull = true → metricMs = .nan →
      ∃ row ∈ w.agentMetrics, row.id = uuid

/-- Every call is benign where it stands in the run on SQLite. -/
def BenignRun (w : World) : List Call → Prop
  | [] => True
  | c :: calls => Benign nanIsNull w c ∧ BenignRun (c.on nanIsNull .sqlite w).2 calls

/-- No audit row and no thread row yet, as on Postgres for ever. -/
def Untouched (w : World) : Prop := w.auditLog = [] ∧ w.agentThreadState = []

section Steps

variable {nanIsNull} {w : World}

/-- One step: the call succeeds on both or on neither exactly if it is benign,
and then it leaves the same. -/
def StepAgrees (nanIsNull : Bool) (w : World) (c : Call) : Prop :=
  ((c.on nanIsNull .postgres w).1 = (c.on nanIsNull .sqlite w).1 ↔ Benign nanIsNull w c) ∧
    (Benign nanIsNull w c → c.on nanIsNull .postgres w = c.on nanIsNull .sqlite w ∧
      Untouched (c.on nanIsNull .sqlite w).2)

/-- A thread row goes in on SQLite only. -/
theorem step_thread (h : Untouched w) (c : Call) (t status : String) (killed : Option Bool)
    (event : Option String) (now : String) (hbenign : ¬ Benign nanIsNull w c)
    (hon : ∀ db, c.on nanIsNull db w =
      write nanIsNull db (upsertStmt db t status killed event now (w.thread t)) w) :
    StepAgrees nanIsNull w c := by
  have hnone : w.thread t = none := by simp [World.thread, h.2]
  have hlite : (c.on nanIsNull .sqlite w).1 = true := by
    rw [hon, hnone, write_accepted (sqlite_accepts rfl rfl),
      if_neg (by simp [upsertStmt, World.violates, h.2])]
  have hpg : (c.on nanIsNull .postgres w).1 = false := by
    rw [hon, write_refused (postgres_refuses_thread ..)]
  refine ⟨⟨fun hsame => ?_, fun hb => absurd hb hbenign⟩, fun hb => absurd hb hbenign⟩
  rw [hpg, hlite] at hsame
  cases hsame

theorem step_audit (h : Untouched w) (eventType : String) (payload : Dict)
    (threadId message auditId : Option String) (uuid now : String) :
    StepAgrees nanIsNull w (.insertAudit eventType payload threadId message auditId uuid now) := by
  unfold StepAgrees
  rw [on_insertAudit, on_insertAudit]
  cases hd : dumps payload with
  | error e => exact ⟨⟨fun _ => ⟨e, hd⟩, fun _ => rfl⟩, fun _ => ⟨rfl, h⟩⟩
  | ok text =>
    have hbenign : ¬ Benign nanIsNull w
        (.insertAudit eventType payload threadId message auditId uuid now) := by
      rintro ⟨e, he⟩
      rw [hd] at he
      cases he
    simp only
    rw [write_refused (postgres_refuses_audit ..), write_accepted (sqlite_accepts rfl rfl),
      if_neg (by simp [World.violates, h.1])]
    exact ⟨⟨fun hsame => (by cases hsame), fun hb => absurd hb hbenign⟩, fun hb => absurd hb hbenign⟩

theorem benign_put {threadId : String} {state : Dict} {parentId checkpointId : Option String}
    {uuid : String} {text : JsonObject} (hd : dumps state = .ok text) (jsonb : Bool) :
    Benign nanIsNull w (.put threadId state parentId checkpointId uuid) ↔ strictObject text = true ∨
      w.violates (.insertCheckpoint jsonb ⟨threadId, pyOr checkpointId uuid, parentId, text⟩) = true := by
  simp [Benign, hd, World.violates]

theorem step_put (h : Untouched w) (threadId : String) (state : Dict)
    (parentId checkpointId : Option String) (uuid : String) :
    StepAgrees nanIsNull w (.put threadId state parentId checkpointId uuid) := by
  unfold StepAgrees
  rw [on_put, on_put]
  cases hd : dumps state with
  | error e =>
    have hbenign : Benign nanIsNull w (.put threadId state parentId checkpointId uuid) := by
      intro text htext
      rw [hd] at htext
      cases htext
    exact ⟨⟨fun _ => hbenign, fun _ => rfl⟩, fun _ => ⟨rfl, h⟩⟩
  | ok text =>
    have hpg (jsonb : Bool) : accepts nanIsNull .postgres (.insertCheckpoint jsonb
        ⟨threadId, pyOr checkpointId uuid, parentId, text⟩) = strictObject text := by
      simp [accepts, bindings]
    have hlite : accepts nanIsNull .sqlite (.insertCheckpoint (decide (Dialect.sqlite = .postgres))
        ⟨threadId, pyOr checkpointId uuid, parentId, text⟩) = true := sqlite_accepts rfl rfl
    have hsame (jsonb : Bool) : w.violates (.insertCheckpoint jsonb
        ⟨threadId, pyOr checkpointId uuid, parentId, text⟩) = w.violates (.insertCheckpoint true
        ⟨threadId, pyOr checkpointId uuid, parentId, text⟩) := rfl
    rw [benign_put hd true]
    simp only
    rw [write_accepted hlite, hsame]
    cases hs : strictObject text with
    | false =>
      rw [write_refused ((hpg _).trans hs)]
      split
      · rename_i hv
        exact ⟨⟨fun _ => .inr hv, fun _ => rfl⟩, fun _ => ⟨rfl, h⟩⟩
      · rename_i hv
        exact ⟨⟨fun hsame => (by cases hsame), fun hb => (by simp [hv] at hb)⟩,
          fun hb => (by simp [hv] at hb)⟩
    | true =>
      rw [write_accepted ((hpg _).trans hs), hsame]
      split
      · exact ⟨⟨fun _ => .inl rfl, fun _ => rfl⟩, fun _ => ⟨rfl, h⟩⟩
      · exact ⟨⟨fun _ => .inl rfl, fun _ => rfl⟩, fun _ => ⟨rfl, h⟩⟩

theorem step_metric (h : Untouched w) (threadId eventId : Option String) (metricMs : PyFloat)
    (outcome metricName uuid : String) :
    StepAgrees nanIsNull w (.recordInvokeLatency threadId eventId metricMs outcome metricName uuid) := by
  unfold StepAgrees
  rw [on_recordInvokeLatency, on_recordInvokeLatency]
  have hpg : accepts nanIsNull .postgres
      (.insertAgentMetrics ⟨uuid, threadId, eventId, metricName, metricMs, outcome⟩) = true := by
    simp [accepts, bindings]
  have hbenign : Benign nanIsNull w
      (.recordInvokeLatency threadId eventId metricMs outcome metricName uuid) ↔
      (nanIsNull = true → metricMs = .nan → w.violates (.insertAgentMetrics
        ⟨uuid, threadId, eventId, metricName, metricMs, outcome⟩) = true) := by
    simp [Benign, World.violates]
  rw [write_accepted hpg, hbenign]
  by_cases hnan : nanIsNull = true ∧ metricMs = .nan
  · have hlite : accepts nanIsNull .sqlite
        (.insertAgentMetrics ⟨uuid, threadId, eventId, metricName, metricMs, outcome⟩) = false := by
      simp [accepts, bindsNan, casts, hnan]
    rw [write_refused hlite]
    split
    · rename_i hv
      exact ⟨⟨fun _ _ _ => hv, fun _ => rfl⟩, fun _ => ⟨rfl, h⟩⟩
    · rename_i hv
      exact ⟨⟨fun hsame => (by cases hsame), fun hb => absurd (hb hnan.1 hnan.2) hv⟩,
        fun hb => absurd (hb hnan.1 hnan.2) hv⟩
  · have hlite : accepts nanIsNull .sqlite
        (.insertAgentMetrics ⟨uuid, threadId, eventId, metricName, metricMs, outcome⟩) = true := by
      simp only [accepts, casts, bindsNan, Bool.not_false, Bool.true_and, Bool.not_eq_true',
        Bool.and_eq_false_iff, beq_eq_false_iff_ne]
      rcases not_and_or.mp hnan with hn | hn
      · exact .inl (by simpa using hn)
      · exact .inr hn
    rw [write_accepted hlite]
    refine ⟨⟨fun _ hn hm => absurd ⟨hn, hm⟩ hnan, fun _ => rfl⟩, fun _ => ⟨rfl, ?_⟩⟩
    split <;> exact h

theorem step_agrees (h : Untouched w) (c : Call) : StepAgrees nanIsNull w c := by
  cases c with
  | insertAudit => exact step_audit h ..
  | setThreadStatus => exact step_thread h _ _ _ _ _ _ id fun _ => on_setThreadStatus ..
  | requestKill => exact step_thread h _ _ _ _ _ _ id fun _ => on_requestKill ..
  | put => exact step_put h ..
  | recordInvokeLatency => exact step_metric h ..

end Steps

section Reads

variable (nanIsNull : Bool)

/-- The audit rows a thread's listing returns, as a set. -/
def listed (db : Dialect) (w : World) (threadId : Option String) (limit : Nat) : Set AuditRecord :=
  {record | ∃ rows,
    ((listAudit threadId limit).run (answerOn nanIsNull db) w).1 = .ok rows ∧ record ∈ rows}

/-- What the reading functions return on Postgres and on SQLite. -/
structure SameReads (pg lite : World) : Prop where
  audit : ∀ threadId limit,
    listed nanIsNull .postgres pg threadId limit = listed nanIsNull .sqlite lite threadId limit
  status : ∀ threadId, ((getThreadStatus threadId).run (answerOn nanIsNull .postgres) pg).1 =
    ((getThreadStatus threadId).run (answerOn nanIsNull .sqlite) lite).1
  latest : ∀ threadId, ((PostgresCheckpointer.getLatest threadId).run (answerOn nanIsNull .postgres) pg).1 =
    ((PostgresCheckpointer.getLatest threadId).run (answerOn nanIsNull .sqlite) lite).1
  all : ∀ threadId, ((PostgresCheckpointer.listAll threadId).run (answerOn nanIsNull .postgres) pg).1 =
    ((PostgresCheckpointer.listAll threadId).run (answerOn nanIsNull .sqlite) lite).1

/-- From empty tables the same calls succeed, and the same is read afterwards. -/
def Agree (calls : List Call) : Prop :=
  (runAll nanIsNull .postgres World.empty calls).1 = (runAll nanIsNull .sqlite World.empty calls).1 ∧
    SameReads nanIsNull (runAll nanIsNull .postgres World.empty calls).2
      (runAll nanIsNull .sqlite World.empty calls).2

variable {nanIsNull}

theorem sameReads (w : World) : SameReads nanIsNull w w := by
  constructor
  · intro threadId limit
    rfl
  · intro threadId
    rw [getThreadStatus, Prog.run_bind, Prog.run_bind, Prog.run_call, Prog.run_call]
    simp only [answerOn_fetch]
    cases w.rows id (.thread threadId) <;> rfl
  · intro threadId
    rw [PostgresCheckpointer.getLatest, Prog.run_bind, Prog.run_bind, Prog.run_call, Prog.run_call]
    simp only [answerOn_fetch]
    cases w.rows id (.latestCheckpoint threadId) <;> rfl
  · intro threadId
    rfl

theorem runAll_agrees (nanIsNull : Bool) {w : World} (h : Untouched w) (calls : List Call) :
    ((runAll nanIsNull .postgres w calls).1 = (runAll nanIsNull .sqlite w calls).1 ↔
      BenignRun nanIsNull w calls) ∧
    (BenignRun nanIsNull w calls →
      runAll nanIsNull .postgres w calls = runAll nanIsNull .sqlite w calls) := by
  induction calls generalizing w with
  | nil => exact ⟨⟨fun _ => trivial, fun _ => rfl⟩, fun _ => rfl⟩
  | cons c calls ih =>
    obtain ⟨hiff, hsame⟩ : StepAgrees nanIsNull w c := step_agrees h c
    have hrun (hb : BenignRun nanIsNull w (c :: calls)) :
        runAll nanIsNull .postgres w (c :: calls) = runAll nanIsNull .sqlite w (c :: calls) := by
      obtain ⟨heq, huntouched⟩ := hsame hb.1
      simp only [runAll, heq, (ih huntouched).2 hb.2]
    refine ⟨⟨fun hall => ?_, fun hb => by rw [hrun hb]⟩, hrun⟩
    obtain ⟨hfirst, hrest⟩ := List.cons_eq_cons.mp hall
    have hb := hiff.mp hfirst
    obtain ⟨heq, huntouched⟩ := hsame hb
    rw [heq] at hrest
    exact ⟨hb, (ih huntouched).1.mp hrest⟩

/-- The dialects agree on a sequence of calls exactly if every one of them is
benign where it stands. -/
theorem agree_iff_benign (nanIsNull : Bool) (calls : List Call) :
    Agree nanIsNull calls ↔ BenignRun nanIsNull World.empty calls := by
  have huntouched : Untouched World.empty := ⟨rfl, rfl⟩
  obtain ⟨hiff, hsame⟩ := runAll_agrees nanIsNull huntouched calls
  constructor
  · intro h
    exact hiff.mp h.1
  · intro hb
    refine ⟨hiff.mpr hb, ?_⟩
    rw [hsame hb]
    exact sameReads _

/-- The audit row that comes before everything else goes in on SQLite only. -/
theorem audit_disagrees :
    ∃ call, (call = .insertAudit "agent.invoke.requested" [] (some "t") none none "r" "now") ∧
      ∀ nanIsNull, (call.on nanIsNull .sqlite World.empty).1 = true ∧
        (call.on nanIsNull .postgres World.empty).1 = false ∧ ¬ Agree nanIsNull [call] := by
  refine ⟨_, rfl, fun nanIsNull => ?_⟩
  cases nanIsNull <;> refine ⟨rfl, rfl, fun h => absurd h.1 (by decide)⟩

end Reads

end NoblePort.Dialects
