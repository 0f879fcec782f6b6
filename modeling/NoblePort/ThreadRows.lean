import NoblePort.Invocation
import NoblePort.Serial

/-!
# The rows of agent_thread_state

A row is written whole by one upsert of one operation, so status, last event and
time of a row belong together, however the operations overlap and whatever fails.
-/
namespace NoblePort.ThreadRows

open Coroutine Coroutine.Contract NoblePort.Values NoblePort.Store NoblePort.ThreadState
open NoblePort.Records NoblePort.Runtime NoblePort.Runtime.Supervisor NoblePort.System

/-- The pairs of status and last event that `invoke` writes. -/
inductive Announced : String → String → Prop
  | running : Announced "running" "agent.invoke.start"
  | killed : Announced "killed" "agent.invoke.killed"
  | cancelled : Announced "cancelled" "cancelled"
  | completed : Announced "completed" "agent.invoke.end"
  | error (text : String) : text.length ≤ 200 → Announced "error" text

section Invoke

variable {σ : Type} {C : Contract Op Op.Resp Exc σ} {S : σ → Prop} {sup : Supervisor} {req : Request}
  {d : Draws}

/-- An invocation keeps a contract that its plain calls, its audit row and its
status writes keep. -/
theorem keeps_invoke
    (hstatus : ∀ status event, Announced status event → C.Keeps S (setStatus sup req d status event))
    (hcall : ∀ op, Invocation.plain op = true → C.Keeps S (.call op))
    (haudit : C.Keeps S (sup.audit req d)) : C.Keeps S (sup.invoke req d) := by
  have hpublish (type : EventType) (i : Nat) (payload : Dict) : C.Keeps S (sup.publish req d type i payload) :=
    hcall _ rfl
  have hannounce {status event : String} (h : Announced status event) (type : EventType) (i : Nat)
      (payload : Dict) : C.Keeps S (setStatus sup req d status event >>= fun _ =>
        sup.publish req d type i payload) := .bind (hstatus _ _ h) fun _ => hpublish ..
  have hiteration (i : Nat) (state : Dict) (parent : Option String) :
      C.Keeps S (sup.iteration req d i state parent) := by
    refine .bind (Invocation.keeps_isKillRequested (hcall _ rfl)) fun killed => ?_
    split
    · exact .bind (hpublish ..) fun _ => .bind (hstatus _ _ .killed) fun _ => .ret _
    · refine .bind (hpublish ..) fun _ => .bind (hcall _ rfl) fun next => ?_
      refine .bind (Invocation.keeps_put (hcall _ rfl) fun _ => hcall _ rfl) fun cp =>
        .bind (hpublish ..) fun _ => ?_
      split <;> exact .ret _
  have hhandler (e : Exc) : C.Keeps S (sup.handler req d e).2 := by
    cases e with
    | cancelled => exact hannounce .cancelled ..
    | exception cls s =>
      refine hannounce (.error _ ?_) ..
      rw [String.length_ofList, List.length_take]
      exact Nat.min_le_left ..
  have hconclude (outcome : Outcome) (resultState : Dict) :
      C.Keeps S (sup.conclude req d outcome resultState) := by
    unfold conclude
    split
    · exact hannounce .completed ..
    · exact .ret _
  have hfin (outcome : Outcome) : C.Keeps S (finallyBlock req d outcome) :=
    Invocation.keeps_finallyBlock (hcall _ rfl)
  have O : Invocation.Outline C sup req d S (fun s _ => S s) := {
    started := S
    head := fun _ _ _ _ => S
    exit := fun _ _ => S
    failed := fun _ => S
    handled := fun _ _ => S
    closing := fun _ _ => S
    opens := fun _ hs => Invocation.ends_of_keeps (hannounce .running ..) hs (fun _ _ hs => hs)
      (fun _ _ hs => hs)
    resumes := fun _ hs => Invocation.ends_of_keeps (Invocation.keeps_getLatest (hcall _ rfl)) hs
      (fun _ _ hs => hs) (fun _ _ hs => hs)
    iterates := fun _ i state parent _ hs => Invocation.ends_of_keeps (hiteration i state parent) hs
      (fun next _ hs => by cases next <;> exact hs) (fun _ _ hs => hs)
    exhausted := fun _ _ _ _ hs => hs
    handles := fun e _ hs => Invocation.ends_of_keeps (hhandler e) hs (fun _ _ hs => hs)
      (fun _ _ hs => hs)
    rethrows := fun _ _ _ hs => Invocation.ends_of_keeps (hfin _) hs (fun _ _ hs => hs) (fun _ _ hs => hs)
    records := fun _ _ _ hs => Invocation.ends_of_keeps (hfin _) hs (fun _ _ hs => hs) (fun _ _ hs => hs)
    concludes := fun _ _ _ hs => Invocation.ends_of_keeps (hconclude ..) hs (fun _ _ hs => hs)
      (fun _ _ hs => hs) }
  exact .bind haudit fun _ => ⟨fun s hs => Invocation.wp_proceed O s hs⟩

end Invoke

/-- The upserts of an operation: thread, status, flag, last event and time. -/
inductive Upserts : Operation → String → String → Option Bool → Option String → String → Prop
  | invoke {sup req d status event} : Announced status event →
      Upserts (.invoke sup req d) (tid req d) status none (some event) (d.now (.status status))
  | requestKill {db t now} :
      Upserts (.requestKill db t now) t "kill_requested" (some true) (some "kill_requested") now
  | setThreadStatus {db t status event now} :
      Upserts (.setThreadStatus db t status event now) t status none event now

def dialect : Operation → Dialect
  | .invoke sup _ _ => sup.db
  | .requestKill db _ _ => db
  | .setThreadStatus db _ _ _ _ => db

/-- An operation keeps a contract that its plain calls, its audit row and its upserts keep. -/
theorem keeps_program {σ : Type} {C : Contract Op Op.Resp Exc σ} {S : σ → Prop} (op : Operation)
    (hupsert : ∀ t status killed event now, Upserts op t status killed event now →
      C.Keeps S (upsert (dialect op) t status killed event now))
    (hcall : ∀ call, Invocation.plain call = true → C.Keeps S (.call call))
    (haudit : ∀ jsonb row, C.Keeps S (.call (.execute (.insertAuditLog jsonb row)))) :
    C.Keeps S op.program := by
  cases op with
  | invoke sup req d =>
    refine .bind (keeps_invoke (fun status event h => hupsert _ _ _ _ _ (.invoke h)) hcall ?_) fun _ => .ret _
    exact Invocation.keeps_audit (hcall _ rfl) fun _ => haudit ..
  | requestKill db t now =>
    exact .bind (Invocation.keeps_requestKill (hcall _ rfl) (hupsert _ _ _ _ _ .requestKill)) fun _ => .ret _
  | setThreadStatus db t status event now =>
    exact .bind (hupsert _ _ _ _ _ .setThreadStatus) fun _ => .ret _

/-- The row a statement leaves under its thread. -/
def leaves : Op → Option ThreadRow
  | .execute (.insertThreadState row) => some row
  | .execute (.updateThreadState status flag event now t) => some ⟨t, status, flag, event, now⟩
  | _ => none

/-- The row is the one that an upsert of the operation leaves, whole: the flag is
the upsert's own or comes of the row that the operation has read in `tr`. -/
def Spells (op : Operation) (tr : List Answered) (row : ThreadRow) : Prop :=
  ∃ killed existing landed,
    Upserts op row.threadId row.status killed row.lastEvent row.updatedAt ∧
    ⟨.fetch (.threadKillRequested row.threadId), .ok existing, landed⟩ ∈ tr ∧
    leaves (.execute (upsertStmt (dialect op) row.threadId row.status killed row.lastEvent row.updatedAt
      existing)) = some row

theorem Spells.mono {op : Operation} {tr tr' : List Answered} {row : ThreadRow} (h : Spells op tr row)
    (hsub : ∀ e ∈ tr, e ∈ tr') : Spells op tr' row := by
  obtain ⟨killed, existing, landed, hupserts, hread, hleaves⟩ := h
  exact ⟨killed, existing, landed, hupserts, hsub _ hread, hleaves⟩

/-- `INTEGER` with 0 or 1 in SQLite, `BOOLEAN` in Postgres. -/
def Typed : Dialect → Flag → Prop
  | .sqlite, flag => ∃ b : Bool, flag = .int (if b then 1 else 0)
  | .postgres, flag => ∃ b, flag = .bool b

/-- What an upsert leaves is a row with its values. -/
theorem leaves_upsert {db : Dialect} {t status now : String} {killed : Option Bool} {event : Option String}
    {existing : Option ThreadRow} {row : ThreadRow}
    (h : leaves (.execute (upsertStmt db t status killed event now existing)) = some row) :
    row.threadId = t ∧ row.status = status ∧ row.lastEvent = event ∧ row.updatedAt = now := by
  cases existing <;> cases h <;> exact ⟨rfl, rfl, rfl, rfl⟩

theorem typed_of_upsert {db : Dialect} (t status : String) (killed : Option Bool)
    (event : Option String) (now : String) {existing : Option ThreadRow}
    (hold : ∀ row ∈ existing, Typed db row.killRequested) :
    ∃ row, leaves (.execute (upsertStmt db t status killed event now existing)) = some row ∧
      Typed db row.killRequested := by
  cases existing with
  | none => cases db with
    | sqlite => exact ⟨_, rfl, decide (killed = some true), by simp⟩
    | postgres => exact ⟨_, rfl, _, rfl⟩
  | some old => cases killed with
    | some b => cases db <;> exact ⟨_, rfl, b, rfl⟩
    | none => cases db with
      | sqlite => exact ⟨_, rfl, _, rfl⟩
      | postgres => exact ⟨_, rfl, hold old rfl⟩

/-- Writes are spelled by what the operation has been answered so far. -/
def spelling (op : Operation) : Contract Op Op.Resp Exc (List Answered) where
  observe tr e := tr ++ [e]
  rely _ _ := True
  guarantee tr call := ∀ row, leaves call = some row → Spells op tr row

theorem spelling_after (op : Operation) (tr tr' : List Answered) :
    (spelling op).after tr tr' = tr ++ tr' := by
  induction tr' generalizing tr with
  | nil => exact (List.append_nil tr).symm
  | cons e tr' ih =>
    rw [after_cons, ih]
    exact List.append_assoc tr [e] tr'

/-- Rows that are read have flags of the dialect, and so do those that are written. -/
def typing (db : Dialect) : Contract Op Op.Resp Exc Unit where
  observe _ _ := ()
  rely _ e := ∀ t existing landed, e = ⟨.fetch (.threadKillRequested t), .ok existing, landed⟩ →
    ∀ row ∈ (existing : Option ThreadRow), Typed db row.killRequested
  guarantee _ call := ∀ row, leaves call = some row → Typed db row.killRequested

theorem leaves_plain {call : Op} (h : Invocation.plain call = true) : leaves call = none := by
  cases call with
  | execute st => cases st <;> first | rfl | cases h
  | _ => rfl

/-- An operation keeps a contract on the rows that are written if each of its
upserts does, after the read that it makes. -/
theorem keeps_of_rows {σ : Type} {C : Contract Op Op.Resp Exc σ} {P : σ → ThreadRow → Prop} (op : Operation)
    (hrows : ∀ s call, C.guarantee s call ↔ ∀ row, leaves call = some row → P s row)
    (hupsert : ∀ t status killed event now, Upserts op t status killed event now → ∀ s existing landed,
      C.rely s ⟨.fetch (.threadKillRequested t), .ok existing, landed⟩ → ∀ row,
      leaves (.execute (upsertStmt (dialect op) t status killed event now existing)) = some row →
      P (C.observe s ⟨.fetch (.threadKillRequested t), .ok existing, landed⟩) row) :
    C.Keeps (fun _ => True) op.program := by
  have hsilent {call : Op} (h : leaves call = none) (s : σ) : C.guarantee s call :=
    (hrows s call).mpr fun row hrow => absurd (h.symm.trans hrow) (Option.some_ne_none row).symm
  have hcall {call : Op} (h : leaves call = none) : C.Keeps (fun _ => True) (.call call) :=
    .call (fun s _ => hsilent h s) fun _ _ _ _ _ => trivial
  refine keeps_program op (fun t status killed event now h => ?_) (fun call h => hcall (leaves_plain h))
    fun _ _ => hcall rfl
  rw [upsert_eq]
  refine ⟨fun s _ => wp_call_seq _ (hsilent rfl s) (fun existing landed hrely => ?_) fun _ _ _ => trivial⟩
  rw [wp_call]
  exact ⟨(hrows _ _).mpr (hupsert t status killed event now h s existing landed hrely), fun _ _ _ => trivial⟩

theorem spelling_program (op : Operation) : (spelling op).Keeps (fun _ => True) op.program := by
  refine keeps_of_rows op (fun _ _ => Iff.rfl) fun t status killed event now h tr existing landed _ row hrow => ?_
  obtain ⟨rfl, rfl, rfl, rfl⟩ := leaves_upsert hrow
  exact ⟨killed, existing, landed, h, by simp [spelling], hrow⟩

theorem typing_program (op : Operation) : (typing (dialect op)).Keeps (fun _ => True) op.program := by
  refine keeps_of_rows op (fun _ _ => Iff.rfl) fun t status killed event now _ _ existing landed hread row hrow => ?_
  obtain ⟨row', hrow', htyped⟩ := typed_of_upsert t status killed event now (hread t existing landed rfl)
  cases hrow.symm.trans hrow'
  exact htyped

/-- Where the rows of the table come from. -/
theorem rows_settle {w : World} {e : Answered} {row : ThreadRow}
    (h : row ∈ (interp.settle w e).agentThreadState) :
    row ∈ w.agentThreadState ∨ (e.landed = true ∧ leaves e.op = some row) := by
  obtain ⟨op, result, landed⟩ := e
  cases landed with
  | false => exact .inl h
  | true => cases op with
    | execute st => cases st with
      | insertThreadState new =>
        rcases List.mem_append.mp h with h | h
        · exact .inl h
        · rw [List.mem_singleton.mp h]
          exact .inr ⟨rfl, rfl⟩
      | updateThreadState status flag event now t =>
        obtain ⟨old, hold, rfl⟩ := List.mem_map.mp h
        by_cases ht : old.threadId = t
        · right
          rw [if_pos (beq_iff_eq.mpr ht), ht]
          exact ⟨rfl, rfl⟩
        · left
          rw [if_neg (fun hbeq => ht (beq_iff_eq.mp hbeq))]
          exact hold
      | _ => exact .inl h
    | _ => exact .inl h

variable {ι : Type} [DecidableEq ι] {ops : ι → Operation} {w₀ : World}
  {cond : Stack ι → ι → Choice → Prop} {s : Stack ι}

/-- A row that was not there at the start was left by a call of the log. -/
theorem left_reach (h : Reach cond (start ops w₀) s) {row : ThreadRow}
    (hrow : row ∈ s.world.agentThreadState) : row ∈ w₀.agentThreadState ∨
      ∃ x ∈ s.log, x.2.landed = true ∧ leaves x.2.op = some row := by
  induction h with
  | start => exact .inl hrow
  | @step s s' i c h hc hs ih =>
    obtain ⟨op, k, ht, hworld, _, hlog⟩ := Pool.step_cases interp hs
    rw [hworld] at hrow
    rw [hlog]
    rcases rows_settle hrow with hold | hleaves
    · rcases ih hold with hold | ⟨x, hx, hleaves⟩
      · exact .inl hold
      · exact .inr ⟨x, List.mem_append_left _ hx, hleaves⟩
    · exact .inr ⟨_, List.mem_append_right _ (List.mem_singleton_self _), hleaves⟩

/-- A call of the log that leaves a row is an upsert of its operation. -/
theorem spelled_logged (h : Reach cond (start ops w₀) s) {x : ι × Answered} (hx : x ∈ s.log)
    {row : ThreadRow} (hrow : leaves x.2.op = some row) : Spells (ops x.1) (s.traceOf x.1) row := by
  obtain ⟨pre, post, htr⟩ := List.append_of_mem (Pool.mem_traceOf.mpr hx)
  have hwp : (spelling (ops x.1)).wp ((start ops w₀).task x.1) (fun _ _ => True) [] :=
    (spelling_program (ops x.1)).wp [] trivial
  have hspells := h.guarantee_logged rfl hwp (relied_of_forall _ fun _ _ _ => trivial) htr row hrow
  rw [spelling_after, List.nil_append] at hspells
  refine hspells.mono fun e he => ?_
  rw [htr]
  exact List.mem_append_left _ he

/-- All rows have flags of the dialect, and so had all rows that were read. -/
structure WellTyped (db : Dialect) (s : Stack ι) : Prop where
  rows : ∀ row ∈ s.world.agentThreadState, Typed db row.killRequested
  reads : ∀ x ∈ s.log, (typing db).rely () x.2

theorem wellTyped_reach {db : Dialect} (hdb : ∀ i, dialect (ops i) = db)
    (h₀ : ∀ row ∈ w₀.agentThreadState, Typed db row.killRequested)
    (h : Reach cond (start ops w₀) s) : WellTyped db s := by
  induction h with
  | start => exact ⟨h₀, List.forall_mem_nil _⟩
  | @step s s' i c h hc hs ih =>
    obtain ⟨op, k, ht, hworld, _, hlog⟩ := Pool.step_cases interp hs
    constructor
    · intro row hrow
      rw [hworld] at hrow
      rcases rows_settle hrow with hold | ⟨-, hleaves⟩
      · exact ih.rows row hold
      · have hwp : (typing db).wp ((start ops w₀).task i) (fun _ _ => True) () :=
          (hdb i ▸ typing_program (ops i)).wp () trivial
        refine h.guarantee_awaits rfl hwp (relied_of_forall _ fun e he _ => ?_) (Pool.awaits_of_task ht)
          row hleaves
        exact ih.reads _ (Pool.mem_traceOf.mp he)
    · intro x hx
      rw [hlog] at hx
      rcases List.mem_append.mp hx with hx | hx
      · exact ih.reads x hx
      · rw [List.mem_singleton.mp hx]
        intro t existing landed heq row hrow
        obtain ⟨_, hrows⟩ := rows_of_entry heq
        have hfound : s.world.thread t = some row := by
          rw [hrows] at hrow
          exact hrow
        exact ih.rows row (List.mem_of_find?_eq_some hfound)

/-- In every run, with any number of invocations, kills and status writes
overlapping and any calls failing, with or without effect: there is one row for
each thread, each row was left, as it is, by one call of the log that took
effect, an upsert of its operation after the read before it, and its flag is of
the dialect that all of them use. -/
theorem rows_never_torn (ops : ι → Operation) (w₀ : World) (s : Stack ι)
    (h : Reach Anyhow (start ops w₀) s) (db : Dialect) (hdb : ∀ i, dialect (ops i) = db)
    (h₀ : w₀.threads.Nodup) (htyped : ∀ row ∈ w₀.agentThreadState, Typed db row.killRequested) :
    s.world.threads.Nodup ∧ ∀ row ∈ s.world.agentThreadState,
      (row ∈ w₀.agentThreadState ∨ ∃ x ∈ s.log, x.2.landed = true ∧ leaves x.2.op = some row ∧
        Spells (ops x.1) (s.traceOf x.1) row) ∧ Typed db row.killRequested := by
  refine ⟨Serial.threads_nodup h h₀, fun row hrow => ⟨?_, (wellTyped_reach hdb htyped h).rows row hrow⟩⟩
  rcases left_reach h hrow with hold | ⟨x, hx, hlanded, hleaves⟩
  · exact .inl hold
  · exact .inr ⟨x, hx, hlanded, hleaves, spelled_logged h hx hleaves⟩

/-- An invocation and a kill of its thread, which read the row before either of them writes it. -/
def crossed : Fin 2 → Operation
  | 0 => .invoke ⟨.sqlite, "agent.events", 2⟩ ⟨some "t", "hi", []⟩
    ⟨"t", "r", fun _ => "c", "m", fun _ => "now", .nan⟩
  | 1 => .requestKill .sqlite "t" "later"

theorem rows_never_torn_crossed : ∃ s, Reach Anyhow (start crossed World.empty) s ∧
    s.world.threads.Nodup ∧ ∃ row ∈ s.world.agentThreadState, row.status = "running" ∧
      (∃ x ∈ s.log, x.2.landed = true ∧ leaves x.2.op = some row ∧
        Spells (crossed x.1) (s.traceOf x.1) row) ∧ Typed .sqlite row.killRequested := by
  obtain ⟨s, h, hrow⟩ := Pool.Reach.exists_of_exec interp Anyhow (start crossed World.empty)
    (P := fun s => ((s.world.thread "t").map (·.status)) = some "running")
    ([0, 0, 1, 1, 0, 0].map fun i => (i, calm)) (by decide)
  obtain ⟨row, hfound, hstatus⟩ := Option.map_eq_some_iff.mp hrow
  have hmem : row ∈ s.world.agentThreadState := List.mem_of_find?_eq_some hfound
  have hdb : ∀ i, dialect (crossed i) = .sqlite
    | 0 => rfl
    | 1 => rfl
  obtain ⟨hnodup, hrows⟩ := rows_never_torn crossed World.empty s h .sqlite hdb .nil (List.forall_mem_nil _)
  obtain ⟨hwritten, htyped⟩ := hrows row hmem
  exact ⟨s, h, hnodup, row, hmem, hstatus, hwritten.resolve_left List.not_mem_nil, htyped⟩

end NoblePort.ThreadRows
