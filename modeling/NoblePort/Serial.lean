import NoblePort.Bound
import NoblePort.KillFlag
import NoblePort.Requests

/-!
# Writes of a thread row, one after another

`_upsert` chooses between INSERT and UPDATE, and the flag to keep, from a read
that may be stale when the statement runs. As long as no statement runs on such
a read, no call raises and the table is what the same calls leave when they run
alone, one after another, in the order of their writes.
-/
namespace NoblePort.Serial

open Coroutine Coroutine.Contract NoblePort.Values NoblePort.Store NoblePort.ThreadState
open NoblePort.Records NoblePort.Runtime NoblePort.System

/-- A call that writes a thread row, alone or inside `Supervisor.invoke`. -/
inductive Call where
  | setThreadStatus (db : Dialect) (threadId status : String) (lastEvent : Option String)
      (now : String)
  | requestKill (db : Dialect) (threadId now : String)
  deriving DecidableEq, Repr

namespace Call

def operation : Call → Operation
  | .setThreadStatus db t status event now => .setThreadStatus db t status event now
  | .requestKill db t now => .requestKill db t now

def threadId : Call → String
  | .setThreadStatus _ t _ _ _ => t
  | .requestKill _ t _ => t

/-- The statement the call runs after it has read `existing`. -/
def stmt : Call → Option ThreadRow → Stmt
  | .setThreadStatus db t status event now, existing =>
    upsertStmt db t status none event now existing
  | .requestKill db t now, existing =>
    upsertStmt db t "kill_requested" (some true) (some "kill_requested") now existing

end Call

/-- The calls run alone, one after another. -/
def serial (calls : List Call) (w : World) : World :=
  calls.foldl (fun w call => (System.call call.operation.program w).2) w

/-- The call of an operation that runs a statement on the thread table. -/
def callOf : Operation → Stmt → Option Call
  | .invoke sup _ _, .insertThreadState row =>
    some (.setThreadStatus sup.db row.threadId row.status row.lastEvent row.updatedAt)
  | .invoke sup _ _, .updateThreadState status _ event now t =>
    some (.setThreadStatus sup.db t status event now)
  | .setThreadStatus db t status event now, st =>
    if Invocation.writesThread st then some (.setThreadStatus db t status event now) else none
  | .requestKill db t now, st =>
    if Invocation.writesThread st then some (.requestKill db t now) else none
  | _, _ => none

/-- The call that an answered statement completes. -/
def callBy (o : Operation) (e : Answered) : List Call :=
  match e with
  | ⟨.execute st, _, true⟩ => (callOf o st).toList
  | _ => []

/-- The calls of a run in the order of their writes. -/
def callsOf {ι : Type} (ops : ι → Operation) (log : List (ι × Answered)) : List Call :=
  log.flatMap fun x => callBy (ops x.1) x.2

/-- The last answered call, when it read a thread row: the thread and the row. -/
abbrev Read := Option (String × Option ThreadRow)

/-- Every statement on the thread table is the one its call chooses after the
read just before it. -/
def chooses (o : Operation) : Contract Op Op.Resp Exc Read where
  observe _ e :=
    match e with
    | ⟨.fetch (.threadKillRequested t), .ok row, _⟩ => some (t, row)
    | _ => none
  rely _ _ := True
  guarantee s op :=
    match op with
    | .execute st => ∀ call, callOf o st = some call →
        ∃ existing, s = some (call.threadId, existing) ∧ st = call.stmt existing
    | _ => True

abbrev Anywhere : Read → Prop := fun _ => True

section Programs

variable {o : Operation}

theorem keeps_call {op : Op} (h : ∀ st call, op = .execute st → callOf o st ≠ some call) :
    (chooses o).Keeps Anywhere (.call op) := by
  refine .call (fun s _ => ?_) fun _ _ _ _ _ => trivial
  cases op with
  | execute st => exact fun call hcall => absurd hcall (h st call rfl)
  | _ => trivial

theorem keeps_fetch (q : Query) : (chooses o).Keeps Anywhere (.call (.fetch q)) :=
  keeps_call fun st call hst => by cases hst

theorem keeps_upsert (db : Dialect) (t status : String) (killed : Option Bool)
    (event : Option String) (now : String) (call : Call) (ht : call.threadId = t)
    (hstmt : ∀ existing, call.stmt existing = upsertStmt db t status killed event now existing)
    (hcall : ∀ existing, callOf o (call.stmt existing) = some call) :
    (chooses o).Keeps Anywhere (upsert db t status killed event now) := by
  constructor
  intro s _
  rw [upsert_eq]
  refine wp_call_seq _ trivial (fun existing _ _ => ?_) fun _ _ _ => trivial
  rw [Contract.wp_call, ← hstmt]
  refine ⟨fun call' hcall' => ?_, fun _ _ _ => trivial⟩
  rw [hcall existing, Option.some.injEq] at hcall'
  subst hcall'
  exact ⟨existing, by rw [ht]; rfl, rfl⟩

theorem keeps_setThreadStatus (sup : Supervisor) (req : Request) (d : Draws) (t status : String)
    (event : Option String) (now : String) :
    (chooses (.invoke sup req d)).Keeps Anywhere (setThreadStatus sup.db t status event now) :=
  keeps_upsert _ _ _ _ _ _ (.setThreadStatus sup.db t status event now) rfl (fun _ => rfl)
    fun existing => by cases existing <;> rfl

theorem keeps_program (o : Operation) : (chooses o).Keeps Anywhere o.program := by
  cases o with
  | invoke sup req d =>
    have hplain (op : Op) (h : Invocation.plain op = true) :
        (chooses (.invoke sup req d)).Keeps Anywhere (.call op) := by
      refine keeps_call fun st call hst hcall => ?_
      subst hst
      cases st with
      | insertThreadState row => cases h
      | updateThreadState status flag event now t => cases h
      | _ => cases hcall
    have haudit : (chooses (.invoke sup req d)).Keeps Anywhere (sup.audit req d) :=
      Invocation.keeps_audit (hplain _ rfl)
        fun _ => keeps_call fun st call hst hcall => by cases hst; cases hcall
    exact .bind (.bind haudit fun _ => Invocation.keeps_proceed (.of_calls
      (fun _ _ => keeps_setThreadStatus ..) hplain)) fun _ => .ret _
  | requestKill db t now =>
    have hupsert : (chooses (.requestKill db t now)).Keeps Anywhere
        (upsert db t "kill_requested" (some true) (some "kill_requested") now) :=
      keeps_upsert _ _ _ _ _ _ (.requestKill db t now) rfl (fun _ => rfl)
        fun existing => by cases existing <;> rfl
    exact .bind (Invocation.keeps_requestKill (keeps_fetch _) hupsert) fun _ => .ret _
  | setThreadStatus db t status event now =>
    exact .bind (keeps_upsert _ _ _ _ _ _ (.setThreadStatus db t status event now) rfl (fun _ => rfl)
      fun existing => by cases existing <;> rfl) fun _ => .ret _

end Programs

/-- The calls on `agent_thread_state`. -/
def onTable : Op → Bool
  | .fetch (.threadKillRequested _) | .fetch (.threadStatus _) | .fetch (.killRequested _)
  | .fetch (.thread _) => true
  | .execute st => Invocation.writesThread st
  | _ => false

/-- The flag a status update writes back into a row that it reads. -/
def kept (db : Dialect) (row : ThreadRow) : Flag :=
  match db with
  | .sqlite => .int (if row.killRequested.truthy then 1 else 0)
  | .postgres => row.killRequested

def dialect : Operation → Dialect
  | .invoke sup _ _ => sup.db
  | .setThreadStatus db _ _ _ _ => db
  | .requestKill db _ _ => db

section Alone

theorem alone_execute {st : Stmt} {w : World} (h : w.violates st = false) :
    alone (.execute st) w = (.ok (), w.apply st) := by
  simp [alone, interp, Interp.entry, Interp.settle, World.answer, World.effect, h, Choice.strike]

theorem violates_stmt (call : Call) (w : World) :
    w.violates (call.stmt (w.thread call.threadId)) = false := by
  have hupsert (db : Dialect) (t status : String) (killed : Option Bool) (event : Option String)
      (now : String) : w.violates (upsertStmt db t status killed event now (w.thread t)) = false := by
    cases h : w.thread t with
    | some row => rfl
    | none => simpa [World.violates, upsertStmt, World.thread] using h
  cases call <;> exact hupsert ..

theorem call_upsert (db : Dialect) (t status : String) (killed : Option Bool) (event : Option String)
    (now : String) (w : World)
    (h : w.violates (upsertStmt db t status killed event now (w.thread t)) = false) :
    (upsert db t status killed event now).run alone w =
      (.ok (), w.apply (upsertStmt db t status killed event now (w.thread t))) := by
  have hread : alone (.fetch (.threadKillRequested t)) w = (.ok (w.thread t), w) := rfl
  rw [upsert_eq, Prog.run_bind, Prog.run_call, hread]
  exact (Prog.run_call ..).trans (alone_execute h)

/-- What a call does when nothing runs in between. -/
theorem call_alone (call : Call) (w : World) :
    (System.call call.operation.program w).2 = w.apply (call.stmt (w.thread call.threadId)) := by
  have hv := violates_stmt call w
  cases call with
  | setThreadStatus db t status event now =>
    have hrun := call_upsert db t status none event now w hv
    simp only [System.call, Call.operation, Operation.program, setThreadStatus, Prog.run_bind, hrun]
    rfl
  | requestKill db t now =>
    have hrun := call_upsert db t "kill_requested" (some true) (some "kill_requested") now w hv
    have hread : alone (.fetch (.threadStatus t)) w = (.ok (w.thread t), w) := rfl
    simp only [System.call, Call.operation, Operation.program, requestKill, Prog.run_bind,
      Prog.run_call, hread]
    cases w.thread t <;> simp only [Prog.run_bind, hrun] <;> rfl

end Alone

/-- What the statement was chosen by is still so: an INSERT finds no row, and a
status update writes the flag that the row has. -/
def Current (o : Operation) (w : World) : Op → Prop
  | .execute (.insertThreadState row) => w.thread row.threadId = none
  | .execute (.updateThreadState _ flag _ _ t) =>
    KillFlag.killTarget o = some t ∨ ∀ row ∈ w.thread t, flag = kept (dialect o) row
  | _ => True

theorem stmt_setStatus (db : Dialect) (t status : String) (event : Option String) (now : String)
    (row : ThreadRow) : (Call.setThreadStatus db t status event now).stmt (some row) =
      .updateThreadState status (kept db row) event now t := by
  cases db <;> rfl

theorem setStatus_of_callOf {o : Operation} {st : Stmt} {db : Dialect} {t status : String}
    {event : Option String} {now : String}
    (h : callOf o st = some (.setThreadStatus db t status event now)) :
    KillFlag.killTarget o = none ∧ dialect o = db := by
  unfold callOf at h
  split at h
  · cases h
    exact ⟨rfl, rfl⟩
  · cases h
    exact ⟨rfl, rfl⟩
  · split at h
    · cases h
      exact ⟨rfl, rfl⟩
    · cases h
  · split at h <;> cases h
  · cases h

/-- A statement that is current is the one its call would choose now. -/
theorem stmt_now {o : Operation} {w : World} {st : Stmt} {call : Call} {existing : Option ThreadRow}
    (hcall : callOf o st = some call) (hst : st = call.stmt existing)
    (hcurrent : Current o w (.execute st))
    (hfound : existing.isSome → (w.thread call.threadId).isSome) :
    st = call.stmt (w.thread call.threadId) := by
  subst hst
  cases existing with
  | none =>
    have hnone : w.thread call.threadId = none := by cases call <;> exact hcurrent
    rw [hnone]
  | some row₀ =>
    obtain ⟨row, hrow⟩ := Option.isSome_iff_exists.mp (hfound rfl)
    rw [hrow]
    cases call with
    | requestKill db t now => cases db <;> rfl
    | setThreadStatus db t status event now =>
      obtain ⟨htarget, rfl⟩ := setStatus_of_callOf hcall
      rw [stmt_setStatus] at hcurrent
      have hflag : kept (dialect o) row₀ = kept (dialect o) row := by
        rcases hcurrent with hkill | hrows
        · rw [htarget] at hkill
          cases hkill
        · exact hrows row hrow
      rw [stmt_setStatus, stmt_setStatus, hflag]

section Runs

variable {ι : Type} [DecidableEq ι] {ops : ι → Operation} {w₀ : World}
  {cond : Stack ι → ι → Choice → Prop} {s s' : Stack ι} {i : ι} {c : Choice}

/-- No statement on the thread table runs on a stale read, and no call on it is faulted. -/
def Undisputed (ops : ι → Operation) (s : Stack ι) (i : ι) (c : Choice) : Prop :=
  ∀ op ∈ (s.task i).awaits, Current (ops i) s.world op ∧ (onTable op = true → c.fault = none)

/-- What a task is about to write is the choice of its program. -/
theorem chosen (h : Reach cond (start ops w₀) s) {op : Op} (ha : (s.task i).awaits = some op) :
    (chooses (ops i)).guarantee ((chooses (ops i)).after none (s.traceOf i)) op :=
  h.guarantee_awaits rfl (wp_mono _ _ _ (fun _ _ _ => trivial) ((keeps_program (ops i)).wp none trivial))
    (relied_of_forall _ fun _ _ _ => trivial) ha

theorem observe_found {o : Operation} {r : Read} {e : Answered} {t : String} {row : ThreadRow}
    (h : (chooses o).observe r e = some (t, some row)) :
    ∃ landed, e = ⟨.fetch (.threadKillRequested t), .ok (some row), landed⟩ := by
  simp only [chooses] at h
  split at h
  · simp only [Option.some.injEq, Prod.mk.injEq] at h
    obtain ⟨rfl, rfl⟩ := h
    exact ⟨_, rfl⟩
  · cases h

/-- A row that was read is still there. -/
theorem row_stays (h : Reach cond (start ops w₀) s) {t : String} {row : ThreadRow}
    (hread : (chooses (ops i)).after none (s.traceOf i) = some (t, some row)) :
    (s.world.thread t).isSome := by
  induction h with
  | start => cases hread
  | @step s s' j c _ _ hs ih =>
    obtain ⟨op, k, ht, hworld, _, hlog⟩ := Pool.step_cases _ hs
    rw [hworld]
    by_cases hij : j = i
    · subst hij
      rw [Pool.traceOf_step_same hlog, Contract.after_append, Contract.after_cons,
        Contract.after_nil] at hread
      obtain ⟨landed, hentry⟩ := observe_found hread
      obtain ⟨_, hrow⟩ := rows_of_entry hentry
      refine World.thread_settle_isSome ?_
      rw [show s.world.thread t = some row from hrow.symm]
      rfl
    · rw [Pool.traceOf_step_other hlog hij] at hread
      exact World.thread_settle_isSome (ih hread)

omit [DecidableEq ι] in
/-- Under the condition a call on the thread table does not raise. -/
theorem table_answers (hu : Undisputed ops s i c) {op : Op} (ha : (s.task i).awaits = some op)
    (hop : onTable op = true) : (interp.entry c s.world op).failed = false := by
  obtain ⟨hcurrent, hcalm⟩ := hu op ha
  have hfault := hcalm hop
  cases op with
  | fetch q => simp [Interp.entry, interp, World.answer, Choice.strike, hfault, Entry.failed]
  | execute st =>
    have hv : s.world.violates st = false := by
      cases st with
      | insertThreadState row =>
        have hnone : s.world.thread row.threadId = none := hcurrent
        simpa [World.violates, World.thread] using hnone
      | updateThreadState status flag event now t => rfl
      | _ => cases hop
    simp [Interp.entry, interp, World.answer, Choice.strike, hfault, hv, Entry.failed]
  | _ => cases hop

theorem callOf_isSome (o : Operation) (st : Stmt) :
    (callOf o st).isSome = Invocation.writesThread st := by
  cases o <;> cases st <;> rfl

theorem callBy_execute (o : Operation) (st : Stmt) (r : Except Exc Unit) (landed : Bool) :
    callBy o ⟨.execute st, r, landed⟩ = if landed then (callOf o st).toList else [] := by
  cases landed <;> rfl

theorem apply_table {w w' : World} (h : w.agentThreadState = w'.agentThreadState) (st : Stmt) :
    (w.apply st).agentThreadState = (w'.apply st).agentThreadState := by
  cases st <;> simp [World.apply, h]

theorem thread_congr {w w' : World} (h : w.agentThreadState = w'.agentThreadState) (t : String) :
    w.thread t = w'.thread t := by
  rw [World.thread, h]
  rfl

/-- One step leaves the thread table as it is, or does to it what its call does alone. -/
theorem step_table (h : Reach cond (start ops w₀) s) (hu : Undisputed ops s i c) {op : Op}
    (ha : (s.task i).awaits = some op) :
    (interp.settle s.world (interp.entry c s.world op)).agentThreadState =
      (serial (callBy (ops i) (interp.entry c s.world op)) s.world).agentThreadState := by
  cases op with
  | execute st =>
    cases hw : Invocation.writesThread st with
    | false =>
      have hnone : callOf (ops i) st = none := by
        rw [← Option.not_isSome_iff_eq_none, callOf_isSome, hw]
        nofun
      have hcalls : callBy (ops i) (interp.entry c s.world (.execute st)) = [] := by
        rw [Interp.entry, callBy_execute, hnone]
        split <;> rfl
      rw [hcalls]
      cases st with
      | insertThreadState row => cases hw
      | updateThreadState status flag event now t => cases hw
      | _ =>
        unfold Interp.settle
        split <;> rfl
    | true =>
      obtain ⟨call, hcall⟩ := Option.isSome_iff_exists.mp ((callOf_isSome (ops i) st).trans hw)
      have hlanded : (interp.entry c s.world (.execute st)).landed = true :=
        landed_of_not_failed (table_answers hu ha hw)
      obtain ⟨existing, hread, hst⟩ := chosen h ha call hcall
      have hnow : st = call.stmt (s.world.thread call.threadId) := by
        refine stmt_now hcall hst (hu _ ha).1 fun hfound => ?_
        obtain ⟨row, rfl⟩ := Option.isSome_iff_exists.mp hfound
        exact row_stays h hread
      have hcalls : callBy (ops i) (interp.entry c s.world (.execute st)) = [call] := by
        rw [Interp.entry, callBy_execute, hcall]
        exact if_pos hlanded
      rw [hcalls, serial, List.foldl_cons, List.foldl_nil, call_alone, ← hnow, Interp.settle,
        if_pos hlanded]
      rfl
  | _ =>
    unfold Interp.settle
    split <;> rfl

theorem serial_append (calls calls' : List Call) (w : World) :
    serial (calls ++ calls') w = serial calls' (serial calls w) := List.foldl_append

theorem serial_table {w w' : World} (h : w.agentThreadState = w'.agentThreadState)
    (calls : List Call) : (serial calls w).agentThreadState = (serial calls w').agentThreadState := by
  induction calls generalizing w w' with
  | nil => exact h
  | cons call calls ih =>
    refine ih ?_
    have hstmt := apply_table h (call.stmt (w'.thread call.threadId))
    rw [← thread_congr h] at hstmt
    simpa only [call_alone, thread_congr h] using hstmt

/-- The thread table is what the calls so far make of it one after another. -/
theorem table_eq (h : Reach (Undisputed ops) (start ops w₀) s) :
    s.world.agentThreadState = (serial (callsOf ops s.log) w₀).agentThreadState := by
  induction h with
  | start => rfl
  | @step s s' i c h hu hs ih =>
    obtain ⟨op, k, ht, hworld, _, hlog⟩ := Pool.step_cases _ hs
    have hcalls : callsOf ops s'.log = callsOf ops s.log ++ callBy (ops i) (interp.entry c s.world op) := by
      rw [hlog, callsOf, List.flatMap_append]
      simp [callsOf]
    rw [hworld, step_table h hu (by rw [ht]; rfl), hcalls, serial_append]
    exact serial_table ih _

@[simp] theorem threads_insert (row : ThreadRow) (w : World) :
    (w.apply (.insertThreadState row)).threads = w.threads ++ [row.threadId] := by
  simp [World.apply, World.threads]

theorem threads_apply {w : World} {t : String} (h : t ∈ w.threads) (st : Stmt) :
    t ∈ (w.apply st).threads := by
  cases st with
  | insertThreadState row =>
    rw [threads_insert]
    exact List.mem_append_left _ h
  | updateThreadState status flag event now t' => rwa [World.threads_update]
  | _ => exact h

/-- A call leaves a row of its thread. -/
theorem threads_call (call : Call) (w : World) :
    call.threadId ∈ (w.apply (call.stmt (w.thread call.threadId))).threads := by
  cases h : w.thread call.threadId with
  | none => cases call <;> simp [Call.stmt, upsertStmt, World.apply, World.threads, Call.threadId]
  | some row =>
    have hmem : call.threadId ∈ w.threads := by
      by_contra hnot
      rw [(World.thread_eq_none w _).mpr hnot] at h
      cases h
    exact threads_apply hmem _

theorem threads_serial (calls : List Call) (w : World) :
    (∀ t ∈ w.threads, t ∈ (serial calls w).threads) ∧
      ∀ call ∈ calls, call.threadId ∈ (serial calls w).threads := by
  induction calls generalizing w with
  | nil => exact ⟨fun _ ht => ht, nofun⟩
  | cons call calls ih =>
    obtain ⟨hkeeps, hrows⟩ := ih (System.call call.operation.program w).2
    rw [call_alone] at hkeeps hrows
    have hserial : serial (call :: calls) w =
        serial calls (w.apply (call.stmt (w.thread call.threadId))) := by
      rw [← call_alone]
      rfl
    rw [hserial]
    refine ⟨fun t ht => hkeeps t (threads_apply ht _), fun call' hcall' => ?_⟩
    rcases List.mem_cons.mp hcall' with rfl | hcall'
    · exact hkeeps _ (threads_call call' w)
    · exact hrows call' hcall'

/-- The primary key keeps the rows of different threads. -/
theorem threads_nodup (h : Reach cond (start ops w₀) s) (h₀ : w₀.threads.Nodup) :
    s.world.threads.Nodup := by
  induction h with
  | start => exact h₀
  | @step s s' i c _ _ hs ih =>
    obtain ⟨op, k, _, hworld, _, _⟩ := Pool.step_cases _ hs
    rw [hworld]
    unfold Interp.settle
    cases hl : (interp.entry c s.world op).landed with
    | false => exact ih
    | true =>
      cases op with
      | execute st =>
        have hv := allowed_of_landed hl
        cases st with
        | insertThreadState row =>
          have hnew : row.threadId ∉ s.world.threads :=
            (World.thread_eq_none _ _).mp (World.violates_thread hv)
          rw [if_pos rfl]
          change (s.world.apply (.insertThreadState row)).threads.Nodup
          rw [threads_insert]
          exact ih.append (List.nodup_singleton _) (by simpa using hnew)
        | updateThreadState status flag event now t =>
          rw [if_pos rfl]
          change (s.world.apply (.updateThreadState status flag event now t)).threads.Nodup
          rwa [World.threads_update]
        | _ => exact ih
      | _ => exact ih

/-- The calls that a trace completes, where the thread table answers. -/
def tally (o : Operation) : Contract Op Op.Resp Exc (List Call) where
  observe calls e := calls ++ callBy o e
  rely _ e := onTable e.op = true → e.failed = false ∧ e.landed = true
  guarantee _ _ := True

theorem after_tally (o : Operation) (calls : List Call) (tr : List Answered) :
    (tally o).after calls tr = calls ++ tr.flatMap (callBy o) := by
  induction tr generalizing calls with
  | nil => simp
  | cons e tr ih => rw [Contract.after_cons, ih, List.flatMap_cons, ← List.append_assoc]; rfl

theorem wp_table {o : Operation} {calls : List Call} {op : Op} (hop : onTable op = true)
    {Q : List Call → Except Exc op.Resp → Prop}
    (hok : ∀ r, Q (calls ++ callBy o ⟨op, .ok r, true⟩) (.ok r)) : (tally o).wp (.call op) Q calls := by
  rw [Contract.wp_call]
  refine ⟨trivial, fun r landed hr => ?_⟩
  obtain ⟨hfailed, rfl⟩ := hr hop
  cases r with
  | error e => cases hfailed
  | ok r => exact hok r

/-- A call that runs by itself returns, and is the one call that it completes. -/
theorem wp_alone (call : Call) : (tally call.operation).wp call.operation.program
    (fun calls r => calls = [call] ∧ ∃ reply, r = .ok reply) [] := by
  have hupsert (db : Dialect) (t status : String) (killed : Option Bool) (event : Option String)
      (now : String)
      (hcall : ∀ existing, callOf call.operation
        (upsertStmt db t status killed event now existing) = some call) :
      (tally call.operation).wp (upsert db t status killed event now)
        (fun calls r => calls = [call] ∧ r = .ok ()) [] := by
    rw [upsert_eq, wp_bind]
    refine wp_table rfl fun existing => ?_
    rw [andThen_ok]
    refine wp_table (by cases existing <;> rfl) fun _ => ⟨?_, rfl⟩
    rw [callBy_execute, hcall]
    rfl
  cases call with
  | setThreadStatus db t status event now =>
    have hcall := hupsert db t status none event now fun existing => by cases existing <;> rfl
    refine wp_seq _ _ _ _ hcall ?_ fun calls e h => by cases h.2
    exact fun calls _ h => ⟨h.1, _, rfl⟩
  | requestKill db t now =>
    have hcall := hupsert db t "kill_requested" (some true) (some "kill_requested") now
      fun existing => by cases existing <;> rfl
    simp only [Call.operation, Operation.program, requestKill]
    rw [wp_bind, wp_bind]
    refine wp_table rfl fun existing => ?_
    rw [andThen_ok]
    cases existing <;>
      exact wp_seq _ _ _ _ hcall (fun calls _ h => ⟨h.1, _, rfl⟩) fun calls e h => by cases h.2

theorem bounded_alone (call : Call) : call.operation.program.Bounded 3 := by
  have hupsert (db : Dialect) (t status : String) (killed : Option Bool) (event : Option String)
      (now : String) : (upsert db t status killed event now).Bounded 2 := by
    rw [upsert_eq]
    exact Prog.Bounded.bind (a := 1) (b := 1) (.call _) fun _ => .call _
  cases call with
  | setThreadStatus db t status event now =>
    exact (Prog.Bounded.bind (b := 0) (hupsert ..) fun _ => .pure _).mono (by omega)
  | requestKill db t now =>
    refine Prog.Bounded.bind (a := 3) (b := 0) ?_ fun _ => .pure _
    refine Prog.Bounded.bind (a := 1) (b := 2) (.call _) fun existing => ?_
    cases existing <;> exact Prog.Bounded.bind (b := 0) (hupsert ..) fun _ => .pure _

/-- How a call that runs by itself stands: it has made less than three awaits,
or it has returned and is the one call it completed. -/
def Serves (s : Stack ι) (i : ι) (call : Call) : Prop :=
  match outcomeOf s i with
  | none => (s.traceOf i).length < 3
  | some (.ok _) => (s.traceOf i).flatMap (callBy call.operation) = [call]
  | some (.error _) => False

end Runs

variable {ι : Type} [DecidableEq ι]

theorem log_answers {ops : ι → Operation} {s₀ s : Stack ι} (h : Reach (Undisputed ops) s₀ s)
    (h₀ : s₀.log = []) : ∀ x ∈ s.log, onTable x.2.op = true → x.2.failed = false ∧ x.2.landed = true := by
  obtain ⟨tail, hlog, hanswers⟩ := h.log_since
    (P := fun x => onTable x.2.op = true → x.2.failed = false ∧ x.2.landed = true)
    fun s i c hu op ha hop => ⟨table_answers hu ha hop, landed_of_not_failed (table_answers hu ha hop)⟩
  rw [hlog, h₀, List.nil_append]
  exact hanswers

theorem serves (ops : ι → Operation) (w₀ : World) (s : Stack ι)
    (h : Reach (Undisputed ops) (start ops w₀) s) (i : ι) (call : Call)
    (hi : ops i = call.operation) : Serves s i call := by
  have htask : (start ops w₀).task i = call.operation.program := by simp [start, hi]
  have hwp := h.wp_task (i := i) rfl (htask ▸ wp_alone call)
    (relied_of_forall _ fun e he _ => log_answers h rfl _ (Pool.mem_traceOf.mp he))
  rw [after_tally, List.nil_append] at hwp
  unfold Serves
  split
  · rename_i hnone
    exact h.trace_lt rfl (htask ▸ bounded_alone call) (awaits_of_outcomeOf hnone)
  · rename_i reply hreply
    exact (wp_outcome hwp hreply).1
  · rename_i e he
    obtain ⟨_, reply, hreply⟩ := wp_outcome hwp he
    cases hreply

/-- In every run of any operations in which no statement on the thread table
runs on a stale read and no call on it is faulted: none of these calls raises,
a call that runs by itself returns, every thread that was written has exactly
one row, and the table is the one that the same calls leave one after another,
in the order of their writes. -/
theorem writes_serializable (ops : ι → Operation) (w₀ : World) (h₀ : w₀.threads.Nodup) (s : Stack ι)
    (h : Reach (Undisputed ops) (start ops w₀) s) :
    (∀ x ∈ s.log, onTable x.2.op = true → x.2.failed = false) ∧
    (∀ i call, ops i = call.operation → Serves s i call) ∧
    (s.world.threads.Nodup ∧ ∀ call ∈ callsOf ops s.log, call.threadId ∈ s.world.threads) ∧
    s.world.agentThreadState = (serial (callsOf ops s.log) w₀).agentThreadState := by
  have htable := table_eq h
  refine ⟨fun x hx hop => (log_answers h rfl x hx hop).1, serves ops w₀ s h,
    ⟨threads_nodup h h₀, fun call hcall => ?_⟩, htable⟩
  rw [World.threads, htable]
  exact (threads_serial _ w₀).2 call hcall

instance (o : Operation) (w : World) : (op : Op) → Decidable (Current o w op)
  | .execute (.insertThreadState row) => inferInstanceAs (Decidable (w.thread row.threadId = none))
  | .execute (.updateThreadState ..) => inferInstanceAs (Decidable (_ ∨ ∀ _ ∈ _, _))
  | .execute (.insertAuditLog ..) | .execute (.insertAgentMetrics _) | .execute (.insertCheckpoint ..)
  | .fetch _ | .jsonDumps _ | .publish .. | .stepFn _ => .isTrue trivial

instance (ops : ι → Operation) (s : Stack ι) (i : ι) (c : Choice) :
    Decidable (Undisputed ops s i c) := inferInstanceAs (Decidable (∀ _ ∈ _, _ ∧ (_ → _)))

/-- Three calls on a thread never seen, the first two of which overlap: they come
out as the first, the kill and the last one after another. -/
theorem writes_serializable_overlapping :
    ∃ s, Reach (Undisputed KillFlag.overlapping) (start KillFlag.overlapping World.empty) s ∧
      s.log.map Prod.fst = [0, 1, 0, 1, 1, 2, 2] ∧ s.world.threads.Nodup ∧
      Serves s 1 (.requestKill .sqlite "t" "1") ∧
      s.world.agentThreadState = (serial [.setThreadStatus .sqlite "t" "running" none "0",
        .requestKill .sqlite "t" "1", .setThreadStatus .sqlite "t" "completed" none "2"]
        World.empty).agentThreadState := by
  obtain ⟨s, h, horder, hcalls⟩ := Pool.Reach.exists_of_exec
    interp (Undisputed KillFlag.overlapping) (start KillFlag.overlapping World.empty)
    (P := fun s => s.log.map Prod.fst = [0, 1, 0, 1, 1, 2, 2] ∧ callsOf KillFlag.overlapping s.log =
      [.setThreadStatus .sqlite "t" "running" none "0", .requestKill .sqlite "t" "1",
        .setThreadStatus .sqlite "t" "completed" none "2"]) (turns [0, 1, 0, 1, 1, 2, 2]) (by decide)
  obtain ⟨_, hserves, ⟨hnodup, _⟩, htable⟩ :=
    writes_serializable KillFlag.overlapping World.empty (by decide) s h
  rw [hcalls] at htable
  exact ⟨s, h, horder, hnodup, hserves 1 (.requestKill .sqlite "t" "1") rfl, htable⟩

/-- Two status updates of a thread never seen. -/
def firstWrites : Fin 2 → Operation := fun _ => .setThreadStatus .sqlite "t" "running" none "now"

/-- Both read no row, and the second INSERT violates the primary key. -/
theorem second_insert_raises :
    ∃ s e, Reach (fun _ _ c => c.fault = none) (start firstWrites World.empty) s ∧
      outcomeOf s 1 = some (.error e) := by
  obtain ⟨s, h, hraised⟩ := Pool.Reach.exists_of_exec
    interp (fun _ _ c => c.fault = none) (start firstWrites World.empty)
    (P := fun s => raised s 1 = true) [(0, {}), (1, {}), (0, {}), (1, {})] (by decide)
  obtain ⟨e, he⟩ := outcomeOf_of_raised hraised
  exact ⟨s, e, h, he⟩

end NoblePort.Serial
