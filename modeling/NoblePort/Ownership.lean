import NoblePort.Requests
import NoblePort.Isolation

/-!
# What an operation names

Every statement, query and event of an operation names the thread the
operation is about, and the rows it inserts carry the ids drawn for it.
-/
namespace NoblePort.Ownership

open Coroutine Coroutine.Contract NoblePort.Values NoblePort.Store NoblePort.ThreadState
open NoblePort.Records NoblePort.Runtime NoblePort.System
open NoblePort.Requests (requestId Anywhere)

/-- The thread an operation is about. -/
def threadOf : Operation → String
  | .invoke _ req d => Supervisor.tid req d
  | .requestKill _ t _ => t
  | .setThreadStatus _ t _ _ _ => t

/-- The id drawn for the metric row of an operation. -/
def metricId : Operation → Option String
  | .invoke _ _ d => some d.metricId
  | _ => none

/-- The call names no thread but `t`, and no ids but `r` for an audit row and
`m` for a metric row. -/
def Names (t : String) (r m : Option String) : Op → Prop
  | .fetch (.threadKillRequested t') | .fetch (.threadStatus t') | .fetch (.killRequested t')
  | .fetch (.thread t') | .fetch (.latestCheckpoint t') | .fetch (.checkpoints t') => t' = t
  | .fetch (.auditLog _ _) => False
  | .execute (.insertAuditLog _ row) => row.threadId = some t ∧ some row.id = r
  | .execute (.insertAgentMetrics row) => row.threadId = some t ∧ some row.id = m
  | .execute (.insertCheckpoint _ row) => row.threadId = t
  | .execute (.insertThreadState row) => row.threadId = t
  | .execute (.updateThreadState _ _ _ _ t') => t' = t
  | .publish _ event => event.threadId = t
  | .jsonDumps _ | .stepFn _ => True

/-- Await such calls only. -/
abbrev namesOnly (t : String) (r m : Option String) : Contract Op Op.Resp Exc Unit :=
  only (Names t r m)

section Programs

variable {t : String} {r m : Option String}

theorem keeps_call {op : Op} (h : Names t r m op) : (namesOnly t r m).Keeps Anywhere (.call op) :=
  .only h

theorem keeps_upsert (db : Dialect) (status : String) (killed : Option Bool)
    (event : Option String) (now : String) :
    (namesOnly t r m).Keeps Anywhere (upsert db t status killed event now) := by
  rw [upsert_eq]
  refine .bind (keeps_call rfl) fun existing => keeps_call ?_
  cases existing <;> rfl

theorem keeps_requestKill (db : Dialect) (now : String) :
    (namesOnly t r m).Keeps Anywhere (requestKill db t now) :=
  Invocation.keeps_requestKill (keeps_call rfl) (keeps_upsert ..)

theorem keeps_audit (sup : Supervisor) (req : Request) (d : Draws) :
    (namesOnly (Supervisor.tid req d) (some d.requestId) m).Keeps Anywhere (sup.audit req d) :=
  Invocation.keeps_audit (keeps_call trivial) fun _ => keeps_call ⟨rfl, by rw [pyOr_self]⟩

theorem partsKeep (sup : Supervisor) (req : Request) (d : Draws) :
    Invocation.PartsKeep (namesOnly (Supervisor.tid req d) r (some d.metricId)) sup req d
      Anywhere where
  status _ _ := keeps_upsert ..
  publish _ _ _ := keeps_call rfl
  latest := Invocation.keeps_getLatest (keeps_call rfl)
  killed := Invocation.keeps_isKillRequested (keeps_call rfl)
  step _ := keeps_call trivial
  put _ _ _ := Invocation.keeps_put (keeps_call trivial) fun _ => keeps_call rfl
  fin _ := Invocation.keeps_finallyBlock (keeps_call ⟨rfl, rfl⟩)

theorem keeps_invoke (sup : Supervisor) (req : Request) (d : Draws) :
    (namesOnly (Supervisor.tid req d) (some d.requestId) (some d.metricId)).Keeps Anywhere
      (sup.invoke req d) :=
  .bind (keeps_audit sup req d) fun _ => Invocation.keeps_proceed (partsKeep sup req d)

end Programs

/-- The calls of an operation, by what they may name. -/
def owns (o : Operation) : Op → Prop := Names (threadOf o) (requestId o) (metricId o)

theorem keeps_program (o : Operation) :
    (namesOnly (threadOf o) (requestId o) (metricId o)).Keeps Anywhere o.program := by
  cases o with
  | invoke sup req d => exact .bind (keeps_invoke sup req d) fun _ => .ret _
  | requestKill db t now => exact .bind (keeps_requestKill db now) fun _ => .ret _
  | setThreadStatus db t status event now => exact .bind (keeps_upsert ..) fun _ => .ret _

variable {ι : Type} [DecidableEq ι]

omit [DecidableEq ι] in
theorem owned_start (ops : ι → Operation) (w₀ : World) :
    Pool.Owned (fun i => owns (ops i)) (start ops w₀) := fun i =>
  wp_mono _ _ _ (fun _ _ _ => trivial) ((keeps_program (ops i)).wp () trivial)

end NoblePort.Ownership
