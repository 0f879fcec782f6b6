import NoblePort.Runtime

/-!
# Proof outline of an invocation

One assertion for each point between the parts of `invoke`, and what has to be
shown of each part. The step loop, the except clauses and the finally block are
put together here once, for every contract.
-/
namespace NoblePort.Invocation

open Coroutine Coroutine.Contract NoblePort.Values NoblePort.Store NoblePort.ThreadState
open NoblePort.Records NoblePort.Runtime NoblePort.Runtime.Supervisor

variable {σ : Type} (C : Contract Op Op.Resp Exc σ) (sup : Supervisor) (req : Request) (d : Draws)

/-- The assertions: when the try statement starts, before an iteration (with
the iterations left), when the body ends or fails, when an except clause ends
(with the exception on its way) and after the finally block. -/
structure Outline (pre : σ → Prop) (Q : σ → Except Exc InvokeResult → Prop) where
  started : σ → Prop
  head : Nat → Nat → Dict → Option String → σ → Prop
  exit : Outcome → Dict → σ → Prop
  failed : Exc → σ → Prop
  handled : Outcome → Exc → σ → Prop
  closing : Outcome → Dict → σ → Prop
  opens : ∀ s, pre s → C.wp (opening sup req d) (ends (fun _ => started) fun e s => Q s (.error e)) s
  resumes : ∀ s, started s → C.wp (PostgresCheckpointer.getLatest (tid req d))
    (ends (fun latest => head sup.maxSteps.toNat 0 (resume req d latest) (latest.map (·.checkpointId)))
      failed) s
  iterates : ∀ n i state parent s, head (n + 1) i state parent s →
    C.wp (iteration sup req d i state parent)
      (ends (fun next => match next with
        | .stop outcome resultState => exit outcome resultState
        | .again state parent => head n (i + 1) state (some parent)) failed) s
  exhausted : ∀ i state parent s, head 0 i state parent s → exit .maxStepsExceeded state s
  handles : ∀ e s, failed e s → C.wp (handler sup req d e).2
    (ends (fun _ => handled (handler sup req d e).1 e) (handled (handler sup req d e).1)) s
  rethrows : ∀ outcome e s, handled outcome e s → C.wp (finallyBlock req d outcome)
    (ends (fun _ s => Q s (.error e)) fun e s => Q s (.error e)) s
  records : ∀ outcome resultState s, exit outcome resultState s →
    C.wp (finallyBlock req d outcome)
      (ends (fun _ => closing outcome resultState) fun e s => Q s (.error e)) s
  concludes : ∀ outcome resultState s, closing outcome resultState s →
    C.wp (conclude sup req d outcome resultState)
      (ends (fun _ s => Q s (.ok (result req d outcome resultState))) fun e s => Q s (.error e)) s

variable {C sup req d} {pre : σ → Prop} {Q : σ → Except Exc InvokeResult → Prop}

theorem wp_loop (O : Outline C sup req d pre Q) (n i : Nat) (state : Dict) (parent : Option String)
    (s : σ) (hs : O.head n i state parent s) :
    C.wp (loop sup req d n i state parent) (ends (fun r => O.exit r.1 r.2) O.failed) s := by
  induction n generalizing i state parent s with
  | zero => exact O.exhausted i state parent s hs
  | succ n ih =>
    refine C.wp_seq _ _ s (O.iterates n i state parent s hs) ?_ (fun s e h => h)
    intro s next hnext
    cases next with
    | stop outcome resultState => exact hnext
    | again state parent => exact ih (i + 1) state (some parent) s hnext

theorem wp_body (O : Outline C sup req d pre Q) (s : σ) (hs : O.started s) :
    C.wp (body sup req d) (ends (fun r => O.exit r.1 r.2) O.failed) s :=
  C.wp_seq _ _ s (O.resumes s hs) (fun s _ h => wp_loop O _ _ _ _ s h) (fun _ _ h => h)

/-- An outline verifies what follows the audit row. -/
theorem wp_proceed (O : Outline C sup req d pre Q) (s : σ) (hs : pre s) :
    C.wp (proceed sup req d) Q s := by
  refine C.wp_seq _ _ s (O.opens s hs) ?_ (fun _ _ h => h)
  intro s _ hs
  refine C.wp_seq (R := ends (fun (r : Outcome × Dict) => O.closing r.1 r.2) fun e s => Q s (.error e))
    _ _ s ?_ ?_ (fun _ _ h => h)
  · refine C.wp_tryFinally _ _ _ s (wp_body O s hs) ?_ ?_
    · intro s outcome resultState hexit
      refine C.wp_mono _ s ?_ (O.records outcome resultState s hexit)
      intro s r h
      cases r with
      | ok _ => exact h
      | error e => exact h
    · intro s e hfailed
      refine C.wp_mono _ s ?_ (O.handles e s hfailed)
      intro s r h
      have hthrow (e' : Exc) (h : O.handled (handler sup req d e).1 e' s) :
          C.wp (finallyBlock req d (handler sup req d e).1)
            (C.andThen (fun _ => .raise e')
              (ends (fun (r : Outcome × Dict) => O.closing r.1 r.2) fun e s => Q s (.error e))) s := by
        refine C.wp_mono _ s ?_ (O.rethrows _ e' s h)
        intro s r h
        cases r with
        | ok _ => exact h
        | error e => exact h
      cases r with
      | ok _ => exact hthrow e h
      | error e' => exact hthrow e' h
  · intro s r hclosing
    refine C.wp_seq _ _ s (O.concludes r.1 r.2 s hclosing) ?_ (fun _ _ h => h)
    intro s _ h
    exact h

/-- Writing the status and publishing keep the contract wherever they stand. -/
structure Announces (C : Contract Op Op.Resp Exc σ) (sup : Supervisor) (req : Request) (d : Draws)
    (S : σ → Prop) : Prop where
  status : ∀ status event, C.Keeps S (setStatus sup req d status event)
  publish : ∀ type i fields, C.Keeps S
    (publish sup req d type i ((.str "request_id", .str d.requestId) :: fields))

/-- So does every other part of `proceed`. -/
structure PartsKeep (C : Contract Op Op.Resp Exc σ) (sup : Supervisor) (req : Request) (d : Draws)
    (S : σ → Prop) : Prop extends Announces C sup req d S where
  latest : C.Keeps S (PostgresCheckpointer.getLatest (tid req d))
  killed : C.Keeps S (isKillRequested (tid req d))
  step : ∀ state, C.Keeps S (stepFn state)
  put : ∀ state parent i, C.Keeps S
    (PostgresCheckpointer.put sup.db (tid req d) state parent none (d.checkpointId i))
  fin : ∀ outcome, C.Keeps S (finallyBlock req d outcome)

/-- The calls other than those that write a thread row or an audit row. -/
def plain : Op → Bool
  | .execute (.insertAuditLog _ _) => false
  | .execute (.insertThreadState _) => false
  | .execute (.updateThreadState ..) => false
  | _ => true

theorem keeps_getLatest {S : σ → Prop} {t : String}
    (hread : C.Keeps S (.call (.fetch (.latestCheckpoint t)))) :
    C.Keeps S (PostgresCheckpointer.getLatest t) :=
  .bind hread fun row => by cases row <;> exact .ret _

theorem keeps_isKillRequested {S : σ → Prop} {t : String}
    (hread : C.Keeps S (.call (.fetch (.killRequested t)))) : C.Keeps S (isKillRequested t) :=
  .bind hread fun row => by cases row <;> exact .ret _

theorem keeps_put {S : σ → Prop} {db : Dialect} {t : String} {state : Dict}
    {parent cid : Option String} {uuid : String} (hdumps : C.Keeps S (.call (.jsonDumps state)))
    (hinsert : ∀ text, C.Keeps S (.call (.execute
      (.insertCheckpoint (db = .postgres) ⟨t, pyOr cid uuid, parent, text⟩)))) :
    C.Keeps S (PostgresCheckpointer.put db t state parent cid uuid) :=
  .bind hdumps fun text => .bind (hinsert text) fun _ => .ret _

theorem keeps_finallyBlock {S : σ → Prop} {outcome : Outcome}
    (hinsert : C.Keeps S (.call (.execute (.insertAgentMetrics ⟨d.metricId, some (tid req d),
      some d.requestId, "agent_invoke_latency_ms", d.elapsedMs, outcome.text⟩)))) :
    C.Keeps S (finallyBlock req d outcome) :=
  .bind (.bind hinsert fun _ => .ret _) fun _ => .ret _

theorem keeps_requestKill {S : σ → Prop} {db : Dialect} {t now : String}
    (hread : C.Keeps S (.call (.fetch (.threadStatus t))))
    (hupsert : C.Keeps S (upsert db t "kill_requested" (some true) (some "kill_requested") now)) :
    C.Keeps S (requestKill db t now) := by
  refine .bind hread fun existing => ?_
  cases existing <;> exact .bind hupsert fun _ => .ret _

theorem PartsKeep.of_calls {S : σ → Prop}
    (hstatus : ∀ status event, C.Keeps S (setStatus sup req d status event))
    (hcall : ∀ op, plain op = true → C.Keeps S (.call op)) : PartsKeep C sup req d S where
  status := hstatus
  publish _ _ _ := hcall _ rfl
  latest := keeps_getLatest (hcall _ rfl)
  killed := keeps_isKillRequested (hcall _ rfl)
  step _ := hcall _ rfl
  put _ _ _ := keeps_put (hcall _ rfl) fun _ => hcall _ rfl
  fin _ := keeps_finallyBlock (hcall _ rfl)

theorem keeps_audit {S : σ → Prop} (hdumps : C.Keeps S (.call (.jsonDumps (auditPayload req d))))
    (hinsert : ∀ text, C.Keeps S (.call (.execute (.insertAuditLog (sup.db = .postgres)
      ⟨pyOr (some d.requestId) d.requestId, "agent.invoke.requested", text, some (tid req d),
        some s!"agent invoke requested for thread {tid req d}", d.now .audit⟩)))) :
    C.Keeps S (audit sup req d) := by
  refine .bind (.tryExcept hdumps fun e => ?_) fun text =>
    .bind (.tryExcept (hinsert text) fun e => ?_) fun _ => .ret _
  · split <;> exact .raise _
  · cases e <;> exact .raise _

/-- The statements of `_upsert`. -/
def writesThread : Stmt → Bool
  | .insertThreadState _ => true
  | .updateThreadState .. => true
  | _ => false

theorem keeps_upsert {S : σ → Prop} (db : Dialect) (t status : String) (killed : Option Bool)
    (event : Option String) (now : String) (hread : C.Keeps S (.call (.fetch (.threadKillRequested t))))
    (hwrite : ∀ st, writesThread st = true → C.Keeps S (.call (.execute st))) :
    C.Keeps S (upsert db t status killed event now) := by
  rw [upsert_eq]
  refine .bind hread fun existing => hwrite _ ?_
  cases existing <;> rfl

theorem keeps_iteration {S : σ → Prop} (h : PartsKeep C sup req d S) (i : Nat) (state : Dict)
    (parent : Option String) : C.Keeps S (iteration sup req d i state parent) := by
  refine .bind h.killed fun killed => ?_
  split
  · exact .bind (h.publish ..) fun _ => .bind (h.status ..) fun _ => .ret _
  · refine .bind (h.publish ..) fun _ => .bind (h.step _) fun state => ?_
    refine .bind (h.put ..) fun cp => .bind (h.publish ..) fun _ => ?_
    split <;> exact .ret _

theorem keeps_opening {S : σ → Prop} (h : Announces C sup req d S) :
    C.Keeps S (opening sup req d) :=
  .bind (h.status ..) fun _ => h.publish ..

theorem keeps_handler {S : σ → Prop} (h : Announces C sup req d S) (e : Exc) :
    C.Keeps S (handler sup req d e).2 := by
  cases e <;> exact .bind (h.status ..) fun _ => h.publish ..

theorem keeps_conclude {S : σ → Prop} (h : Announces C sup req d S) (outcome : Outcome)
    (resultState : Dict) : C.Keeps S (conclude sup req d outcome resultState) := by
  unfold conclude
  split
  · exact .bind (h.status ..) fun _ => h.publish ..
  · exact .ret _

theorem ends_of_keeps {α : Type} {S : σ → Prop} {p : Async α} (h : C.Keeps S p) {s : σ} (hs : S s)
    {ok : α → σ → Prop} {error : Exc → σ → Prop} (hok : ∀ a s, S s → ok a s)
    (herror : ∀ e s, S s → error e s) : C.wp p (ends ok error) s := by
  refine C.wp_mono p s ?_ (h.wp s hs)
  intro s r hs
  cases r with
  | ok a => exact hok a s hs
  | error e => exact herror e s hs

theorem keeps_proceed {S : σ → Prop} (h : PartsKeep C sup req d S) :
    C.Keeps S (proceed sup req d) := by
  have O : Outline C sup req d S (fun s _ => S s) := {
    started := S
    head := fun _ _ _ _ => S
    exit := fun _ _ => S
    failed := fun _ => S
    handled := fun _ _ => S
    closing := fun _ _ => S
    opens := fun _ hs => ends_of_keeps (keeps_opening h.toAnnounces) hs
      (fun _ _ hs => hs) (fun _ _ hs => hs)
    resumes := fun _ hs => ends_of_keeps h.latest hs (fun _ _ hs => hs) (fun _ _ hs => hs)
    iterates := fun _ _ _ _ _ hs => ends_of_keeps (keeps_iteration h ..) hs
      (fun next _ hs => by cases next <;> exact hs) (fun _ _ hs => hs)
    exhausted := fun _ _ _ _ hs => hs
    handles := fun e _ hs => ends_of_keeps (keeps_handler h.toAnnounces e) hs (fun _ _ hs => hs)
      (fun _ _ hs => hs)
    rethrows := fun _ _ _ hs => ends_of_keeps (h.fin _) hs (fun _ _ hs => hs) (fun _ _ hs => hs)
    records := fun _ _ _ hs => ends_of_keeps (h.fin _) hs (fun _ _ hs => hs) (fun _ _ hs => hs)
    concludes := fun _ _ _ hs => ends_of_keeps (keeps_conclude h.toAnnounces ..) hs (fun _ _ hs => hs)
      (fun _ _ hs => hs) }
  exact ⟨fun s hs => wp_proceed O s hs⟩

end NoblePort.Invocation
