import NoblePort.JsonStates
import NoblePort.Serial
import NoblePort.StepLoop

/-!
# Resuming from a checkpoint

An invocation alone with the store, its calls of the step function counted. One
that stops after some steps and a second that resumes from what it stored go
through the same states as one that never stopped.
-/
namespace NoblePort.Resumption

open Coroutine Coroutine.Contract NoblePort.Values NoblePort.Store NoblePort.ThreadState
open NoblePort.Records NoblePort.Runtime NoblePort.System NoblePort.JsonStates
open NoblePort.Completion (completed resumed)
open NoblePort.StepLoop (Ends Stops Stores produces produces_succ)

/-- Answer every call at once and without a fault; the step function may depend
on how often it was called before. -/
def attend (g : Nat → Dict → Except Exc Dict) :
    (op : Op) → World × Nat → Except Exc op.Resp × (World × Nat)
  | .stepFn state, (w, n) => (g n state, (w, n + 1))
  | op, (w, n) => ((alone op w).1, ((alone op w).2, n))

/-- One invocation by itself: what it ends with, and what it leaves. -/
def invokeAlone (g : Nat → Dict → Except Exc Dict) (sup : Supervisor) (req : Request) (d : Draws)
    (w : World) : Except Exc InvokeResult × World :=
  (((sup.invoke req d).run (attend g) (w, 0)).1, ((sup.invoke req d).run (attend g) (w, 0)).2.1)

/-- The step function `f`, which raises in one call if `stop` says so. -/
def stepping (f : Dict → Dict) (stop : Option (Nat × Exc)) (n : Nat) (state : Dict) : Except Exc Dict :=
  match stop with
  | some (k, e) => if n = k then .error e else .ok (f state)
  | none => .ok (f state)

/-- The ids drawn for an invocation are new. -/
structure Unused (d : Draws) (w : World) : Prop where
  audit : ∀ row ∈ w.auditLog, row.id ≠ d.requestId
  metric : ∀ row ∈ w.agentMetrics, row.id ≠ d.metricId
  checkpoint : ∀ row ∈ w.langgraphCheckpoints, ∀ i, row.checkpointId ≠ d.checkpointId i
  distinct : ∀ i j, d.checkpointId i = d.checkpointId j → i = j

/-- The metric rows and checkpoints there are, with the kill flag of `t` down. -/
structure Holds (t : String) (metrics : List MetricRow) (rows : List CheckpointRow) (w : World) : Prop where
  metrics : w.agentMetrics = metrics
  checkpoints : w.langgraphCheckpoints = rows
  unkilled : w.killRequested t = false

theorem killRequested_upsert (db : Dialect) (t status : String) (event : Option String) (now : String)
    (w : World) : (w.apply (upsertStmt db t status none event now (w.thread t))).killRequested t =
      w.killRequested t := by
  have hv := Serial.violates_stmt (.setThreadStatus db t status event now) w
  cases h : w.thread t with
  | none =>
    simp only [Serial.Call.stmt, Serial.Call.threadId, h, upsertStmt] at hv ⊢
    have hflag : w.killRequested t = false := by rw [World.killRequested, h]
    rw [hflag, World.killRequested_insert _ _ _ hv]
    cases db <;> simp
  | some row =>
    have hflag : w.killRequested t = row.killRequested.truthy := by rw [World.killRequested, h]
    simp only [upsertStmt]
    rw [World.killRequested_update _ _ _ _ _ _ _ (by rw [h]; rfl), if_pos rfl, hflag]
    cases db <;> simp

theorem Holds.upsert {t : String} {metrics : List MetricRow} {rows : List CheckpointRow} {w : World}
    (h : Holds t metrics rows w) (db : Dialect) (status : String) (event : Option String) (now : String) :
    Holds t metrics rows (w.apply (upsertStmt db t status none event now (w.thread t))) := by
  have hother (existing : Option ThreadRow) :
      (w.apply (upsertStmt db t status none event now existing)).agentMetrics = w.agentMetrics ∧
      (w.apply (upsertStmt db t status none event now existing)).langgraphCheckpoints =
        w.langgraphCheckpoints := by
    cases existing <;> exact ⟨rfl, rfl⟩
  exact ⟨(hother _).1.trans h.metrics, (hother _).2.trans h.checkpoints,
    (killRequested_upsert ..).trans h.unkilled⟩

section Parts

variable {g : Nat → Dict → Except Exc Dict} {sup : Supervisor} {req : Request} {d : Draws} {t : String}
  {metrics : List MetricRow} {rows : List CheckpointRow} {w : World} {n : Nat}

theorem wp_op {op : Op} {Q : World × Nat → Except Exc op.Resp → Prop} {s : World × Nat}
    (h : Q (attend g op s).2 (attend g op s).1) : (handled (attend g)).wp (.call op) Q s := by
  rw [wp_handled, Prog.run_call]
  exact h

theorem wp_execute {st : Stmt} {Q : World × Nat → Except Exc Unit → Prop} (hv : w.violates st = false)
    (hok : Q (w.apply st, n) (.ok ())) : (handled (attend g)).wp (execute st) Q (w, n) := by
  refine wp_op ?_
  simp only [attend, Serial.alone_execute hv]
  exact hok

theorem wp_setStatus {Q : World × Nat → Except Exc Unit → Prop} (status event : String)
    (h : Holds (Supervisor.tid req d) metrics rows w)
    (hok : ∀ w', Holds (Supervisor.tid req d) metrics rows w' → Q (w', n) (.ok ())) :
    (handled (attend g)).wp (sup.setStatus req d status event) Q (w, n) := by
  unfold Supervisor.setStatus setThreadStatus
  rw [upsert_eq, wp_bind]
  refine wp_op (wp_execute (Serial.violates_stmt (.setThreadStatus sup.db _ status (some event) _) w) ?_)
  exact hok _ (h.upsert sup.db status (some event) _)

theorem wp_publish {Q : World × Nat → Except Exc Unit → Prop} (type : EventType) (i : Nat)
    (payload : Dict) (h : Holds t metrics rows w)
    (hok : ∀ w', Holds t metrics rows w' → Q (w', n) (.ok ())) :
    (handled (attend g)).wp (sup.publish req d type i payload) Q (w, n) :=
  wp_op (hok _ ⟨h.metrics, h.checkpoints, h.unkilled⟩)

theorem wp_announce {Q : World × Nat → Except Exc Unit → Prop} (status event : String)
    (type : EventType) (i : Nat) (payload : Dict) (h : Holds (Supervisor.tid req d) metrics rows w)
    (hok : ∀ w', Holds (Supervisor.tid req d) metrics rows w' → Q (w', n) (.ok ())) :
    (handled (attend g)).wp (sup.setStatus req d status event >>= fun _ =>
      sup.publish req d type i payload) Q (w, n) := by
  rw [wp_bind]
  exact wp_setStatus _ _ h fun w' h' => wp_publish _ _ _ h' hok

theorem wp_audit {Q : World × Nat → Except Exc AuditRecord → Prop} {text : JsonObject}
    (h : Holds t metrics rows w) (htext : dumps (Supervisor.auditPayload req d) = .ok text)
    (hnew : ∀ row ∈ w.auditLog, row.id ≠ d.requestId)
    (hok : ∀ w' r, Holds t metrics rows w' → Q (w', n) (.ok r)) :
    (handled (attend g)).wp (sup.audit req d) Q (w, n) := by
  have hdumps : alone (.jsonDumps (Supervisor.auditPayload req d)) w = (.ok text, w) := by
    rw [← htext]
    rfl
  have hinsert (jsonb : Bool) (type : String) (thread message : Option String) (now : String) :
      alone (.execute (.insertAuditLog jsonb ⟨d.requestId, type, text, thread, message, now⟩)) w =
        (.ok (), w.apply (.insertAuditLog jsonb ⟨d.requestId, type, text, thread, message, now⟩)) :=
    Serial.alone_execute (by simpa [World.violates] using hnew)
  rw [wp_handled]
  simp only [Supervisor.audit, insertAudit_eq, Prog.run_bind, Prog.run_tryExcept, Prog.run_call, attend,
    hdumps, pyOr_self, hinsert]
  exact hok _ _ ⟨h.metrics, h.checkpoints, h.unkilled⟩

theorem wp_isKillRequested {Q : World × Nat → Except Exc Bool → Prop} (h : Holds t metrics rows w)
    (hok : Q (w, n) (.ok false)) : (handled (attend g)).wp (isKillRequested t) Q (w, n) := by
  have hkilled := h.unkilled
  have hrow : alone (.fetch (.killRequested t)) w = (.ok (w.thread t), w) := rfl
  unfold isKillRequested
  rw [wp_bind]
  refine wp_op ?_
  simp only [attend, hrow, andThen_ok]
  unfold World.killRequested at hkilled
  cases ht : w.thread t with
  | none => exact hok
  | some row =>
    rw [ht] at hkilled
    change Q (w, n) (.ok row.killRequested.truthy)
    rw [show row.killRequested.truthy = false from hkilled]
    exact hok

theorem wp_put {Q : World × Nat → Except Exc CheckpointTuple → Prop} {db : Dialect} {state : Dict}
    {text : JsonObject} {parent : Option String} {uuid : String} (h : Holds t metrics rows w)
    (htext : dumps state = .ok text) (hnew : ∀ row ∈ rows, row.checkpointId ≠ uuid)
    (hok : ∀ w' cp, Holds t metrics (rows ++ [⟨t, uuid, parent, text⟩]) w' → Q (w', n) (.ok cp)) :
    (handled (attend g)).wp (PostgresCheckpointer.put db t state parent none uuid) Q (w, n) := by
  have hdumps : alone (.jsonDumps state) w = (.ok text, w) := by
    rw [← htext]
    rfl
  have hv (jsonb : Bool) : w.violates (.insertCheckpoint jsonb ⟨t, uuid, parent, text⟩) = false := by
    simp only [World.violates, h.checkpoints, List.any_eq_false, Bool.and_eq_true, beq_iff_eq, not_and]
    exact fun row hrow _ => hnew row hrow
  unfold PostgresCheckpointer.put
  rw [wp_bind]
  refine wp_op ?_
  simp only [attend, hdumps, andThen_ok]
  rw [wp_bind]
  refine wp_execute (hv _) ?_
  exact hok _ _ ⟨h.metrics, congrArg (· ++ [_]) h.checkpoints, h.unkilled⟩

theorem wp_finallyBlock {Q : World × Nat → Except Exc Unit → Prop} (outcome : Outcome)
    (h : Holds t metrics rows w) (hnew : ∀ row ∈ metrics, row.id ≠ d.metricId)
    (hok : ∀ w' metrics', Holds t metrics' rows w' → Q (w', n) (.ok ())) :
    (handled (attend g)).wp (Supervisor.finallyBlock req d outcome) Q (w, n) := by
  have hv (row : MetricRow) (hrow : row.id = d.metricId) :
      w.violates (.insertAgentMetrics row) = false := by
    simpa [World.violates, hrow, h.metrics] using hnew
  unfold Supervisor.finallyBlock recordInvokeLatency
  rw [wp_bind, wp_bind]
  exact wp_execute (hv _ rfl) (hok _ _ ⟨rfl, h.checkpoints, h.unkilled⟩)

end Parts

/-- No kill is ever requested. -/
def never (_ : Nat) : Bool := false

/-- The rows that so many steps from `s₀` store. -/
structure Adds (f : Dict → Dict) (s₀ : Dict) (t : String) (d : Draws) (calls : Nat)
    (new : List CheckpointRow) : Prop where
  named : ∀ row ∈ new, row.threadId = t
  ids : new.map (·.checkpointId) = (List.range calls).map d.checkpointId
  stored : Stores dumps new (produces f s₀ calls)

theorem adds_zero {f : Dict → Dict} {s₀ : Dict} {t : String} {d : Draws} : Adds f s₀ t d 0 [] :=
  ⟨nofun, rfl, rfl⟩

theorem Adds.succ {f : Dict → Dict} {s₀ : Dict} {t : String} {d : Draws} {calls : Nat}
    {new : List CheckpointRow} (h : Adds f s₀ t d calls new) {parent : Option String} {text : JsonObject}
    (htext : dumps (f^[calls + 1] s₀) = .ok text) :
    Adds f s₀ t d (calls + 1) (new ++ [⟨t, d.checkpointId calls, parent, text⟩]) := by
  refine ⟨List.forall_mem_append.mpr ⟨h.named, List.forall_mem_singleton.mpr rfl⟩, ?_, ?_⟩
  · rw [List.map_append, h.ids, List.range_succ, List.map_append]
    rfl
  · rw [produces_succ]
    exact h.stored.append _ htext

/-- The next id is none of theirs. -/
theorem Adds.fresh {f : Dict → Dict} {s₀ : Dict} {t : String} {d : Draws} {calls : Nat}
    {new : List CheckpointRow} (h : Adds f s₀ t d calls new)
    (hids : ∀ i j, d.checkpointId i = d.checkpointId j → i = j) :
    ∀ row ∈ new, row.checkpointId ≠ d.checkpointId calls := by
  intro row hrow heq
  have hid : row.checkpointId ∈ (List.range calls).map d.checkpointId := by
    rw [← h.ids]
    exact List.mem_map_of_mem hrow
  obtain ⟨j, hj, hjrow⟩ := List.mem_map.mp hid
  have hlt := List.mem_range.mp hj
  rw [hids j calls (hjrow.trans heq)] at hlt
  omega

theorem stepping_cases (f : Dict → Dict) (stop : Option (Nat × Exc)) (n : Nat) (state : Dict) :
    (∃ e, stop = some (n, e) ∧ stepping f stop n state = .error e) ∨
      (stepping f stop n state = .ok (f state) ∧ ∀ k e, stop = some (k, e) → k ≠ n) := by
  unfold stepping
  match stop with
  | none => exact .inr ⟨rfl, nofun⟩
  | some (k, e) =>
    by_cases hn : n = k
    · subst hn
      exact .inl ⟨e, rfl, if_pos rfl⟩
    · refine .inr ⟨if_neg hn, fun k' e' hk => ?_⟩
      cases hk
      exact Ne.symm hn

/-- The latest row of thread `t`. -/
def lastOf (t : String) (rows : List CheckpointRow) : Option CheckpointRow :=
  (rows.filter (·.threadId == t)).getLast?

section Invoked

variable (f : Dict → Dict) (stop : Option (Nat × Exc)) (sup : Supervisor) (req : Request) (d : Draws)
  (past : List CheckpointRow)

/-- The state the invocation resumes from. -/
abbrev initial : Dict := resumed req d (lastOf (Supervisor.tid req d) past)

/-- After `i` iterations that all went on. -/
structure Head (metrics : List MetricRow) (n i : Nat) (state : Dict) (s : World × Nat) : Prop where
  left : i + n = sup.maxSteps.toNat
  count : s.2 = i
  state_eq : state = f^[i] (initial req d past)
  onward : ∀ j < i, ¬ Stops f never (initial req d past) j
  early : ∀ k e, stop = some (k, e) → i ≤ k
  adds : ∃ new, Adds f (initial req d past) (Supervisor.tid req d) d i new ∧
    Holds (Supervisor.tid req d) metrics (past ++ new) s.1

/-- The loop is over, or was left by the exception of the step function. -/
structure Over (metrics : List MetricRow) (outcome : Outcome) (state : Dict) (s : World × Nat) : Prop where
  ends : ∃ calls new, Ends f never (initial req d past) sup.maxSteps.toNat outcome state calls ∧
    (∀ k e, stop = some (k, e) → calls ≤ k) ∧
    Adds f (initial req d past) (Supervisor.tid req d) d calls new ∧
    Holds (Supervisor.tid req d) metrics (past ++ new) s.1

structure Broken (metrics : List MetricRow) (e : Exc) (s : World × Nat) : Prop where
  stopped : ∃ k new, stop = some (k, e) ∧
    Adds f (initial req d past) (Supervisor.tid req d) d k new ∧
    Holds (Supervisor.tid req d) metrics (past ++ new) s.1

/-- How the invocation ends. -/
def Ran (s : World × Nat) : Except Exc InvokeResult → Prop
  | .ok res => ∃ metrics, Over f stop sup req d past metrics res.outcome res.state s
  | .error e => ∃ metrics, Broken f stop req d past metrics e s

variable {f stop sup req d past} {metrics : List MetricRow}

theorem wp_iteration (hstates : ∀ i, IsState (f^[i] (initial req d past)))
    (hpast : ∀ row ∈ past, ∀ i, row.checkpointId ≠ d.checkpointId i)
    (hids : ∀ i j, d.checkpointId i = d.checkpointId j → i = j)
    (n i : Nat) (state : Dict) (parent : Option String) (s : World × Nat)
    (h : Head f stop sup req d past metrics (n + 1) i state s) :
    (handled (attend (stepping f stop))).wp (sup.iteration req d i state parent)
      (ends (fun next => match next with
        | .stop outcome state => Over f stop sup req d past metrics outcome state
        | .again state _ => Head f stop sup req d past metrics n (i + 1) state)
        (Broken f stop req d past metrics)) s := by
  obtain ⟨w, c⟩ := s
  obtain ⟨hleft, rfl, hstate, honward, hearly, new, hadds, hholds⟩ := h
  unfold Supervisor.iteration
  rw [wp_bind]
  refine wp_isKillRequested hholds ?_
  rw [andThen_ok, if_neg nofun, wp_bind]
  refine wp_publish _ _ _ hholds fun w' hholds => ?_
  rw [andThen_ok, wp_bind]
  refine wp_op ?_
  rcases stepping_cases f stop c state with ⟨e, hstop, hraise⟩ | ⟨hok, hgoes⟩
  · simp only [attend, hraise]
    exact ⟨c, new, hstop, hadds, hholds⟩
  · simp only [attend, hok, andThen_ok]
    have hnext : f state = f^[c + 1] (initial req d past) := by
      rw [Function.iterate_succ_apply', ← hstate]
    obtain ⟨text, htext, _⟩ := loads_dumps (hstates (c + 1))
    have hnew : ∀ row ∈ past ++ new, row.checkpointId ≠ d.checkpointId c :=
      List.forall_mem_append.mpr ⟨fun row hrow => hpast row hrow c, hadds.fresh hids⟩
    rw [wp_bind]
    refine wp_put hholds (hnext ▸ htext) hnew fun w' cp hholds => ?_
    rw [List.append_assoc] at hholds
    rw [andThen_ok, wp_bind]
    refine wp_publish _ _ _ hholds fun w' hholds => ?_
    have hearly' : ∀ k e, stop = some (k, e) → c + 1 ≤ k := by
      intro k e hk
      have hle := hearly k e hk
      have hne := hgoes k e hk
      omega
    rw [andThen_ok]
    split
    · rename_i hcompleted
      refine ⟨c + 1, _, ?_, hearly', hadds.succ htext, hholds⟩
      rw [hnext]
      exact .completed c (by omega) honward rfl (hnext ▸ hcompleted)
    · rename_i hopen
      refine ⟨by omega, rfl, hnext, fun j hj => ?_, hearly', _, hadds.succ htext, hholds⟩
      rcases Nat.lt_succ_iff_lt_or_eq.mp hj with hj | rfl
      · exact honward j hj
      · rintro (hkilled | hcompleted)
        · cases hkilled
        · rw [← hnext] at hcompleted
          exact hopen hcompleted

theorem Over.frame {outcome : Outcome} {state : Dict} {s : World × Nat}
    (h : Over f stop sup req d past metrics outcome state s) :
    ∃ rows, Holds (Supervisor.tid req d) metrics rows s.1 ∧ ∀ w' n' metrics',
      Holds (Supervisor.tid req d) metrics' rows w' →
      Over f stop sup req d past metrics' outcome state (w', n') := by
  obtain ⟨calls, new, hends, hearly, hadds, hholds⟩ := h
  exact ⟨past ++ new, hholds, fun w' n' metrics' h' => ⟨calls, new, hends, hearly, hadds, h'⟩⟩

theorem Broken.frame {e : Exc} {s : World × Nat} (h : Broken f stop req d past metrics e s) :
    ∃ rows, Holds (Supervisor.tid req d) metrics rows s.1 ∧ ∀ w' n' metrics',
      Holds (Supervisor.tid req d) metrics' rows w' →
      Broken f stop req d past metrics' e (w', n') := by
  obtain ⟨k, new, hstop, hadds, hholds⟩ := h
  exact ⟨past ++ new, hholds, fun w' n' metrics' h' => ⟨k, new, hstop, hadds, h'⟩⟩

def outline (hstates : ∀ i, IsState (f^[i] (initial req d past)))
    (hpast : ∀ row ∈ past, ∀ i, row.checkpointId ≠ d.checkpointId i)
    (hids : ∀ i j, d.checkpointId i = d.checkpointId j → i = j)
    (hmetrics : ∀ row ∈ metrics, row.id ≠ d.metricId) :
    Invocation.Outline (handled (attend (stepping f stop))) sup req d
      (fun s => s.2 = 0 ∧ Holds (Supervisor.tid req d) metrics past s.1)
      (Ran f stop sup req d past) where
  started s := s.2 = 0 ∧ Holds (Supervisor.tid req d) metrics past s.1
  head n i state _ := Head f stop sup req d past metrics n i state
  exit := Over f stop sup req d past metrics
  failed := Broken f stop req d past metrics
  handled _ := Broken f stop req d past metrics
  closing outcome state s := ∃ metrics', Over f stop sup req d past metrics' outcome state s
  opens s hs := wp_announce _ _ _ _ _ hs.2 fun _ h => ⟨hs.1, h⟩
  resumes s hs := by
    obtain ⟨w, c⟩ := s
    obtain ⟨hcount, hholds⟩ := hs
    have hlast : (w.checkpoints (Supervisor.tid req d)).getLast? = lastOf (Supervisor.tid req d) past := by
      rw [World.checkpoints, hholds.checkpoints]
      rfl
    have hread : alone (.fetch (.latestCheckpoint (Supervisor.tid req d))) w =
        (.ok (lastOf (Supervisor.tid req d) past), w) := by
      rw [← hlast]
      rfl
    unfold PostgresCheckpointer.getLatest
    rw [wp_bind]
    refine wp_op ?_
    simp only [attend, hread, andThen_ok]
    have hhead : Head f stop sup req d past metrics sup.maxSteps.toNat 0 (initial req d past) (w, c) :=
      ⟨Nat.zero_add _, hcount, rfl, nofun, fun _ _ _ => Nat.zero_le _, [], adds_zero,
        by rwa [List.append_nil]⟩
    unfold initial resumed at hhead
    cases hrow : lastOf (Supervisor.tid req d) past <;> rw [hrow] at hhead <;> exact hhead
  iterates n i state parent s hs := wp_iteration hstates hpast hids n i state parent s hs
  exhausted i state _ s hs := by
    obtain ⟨hleft, _, hstate, honward, hearly, new, hadds, hholds⟩ := hs
    have hi : i = sup.maxSteps.toNat := hleft
    subst hi
    exact ⟨_, new, hstate ▸ .exhausted honward, hearly, hadds, hholds⟩
  handles e s hs := by
    obtain ⟨rows, hholds, hframe⟩ := hs.frame
    cases e <;> exact wp_announce _ _ _ _ _ hholds fun w' h' => hframe _ _ _ h'
  rethrows outcome e s hs := by
    obtain ⟨rows, hholds, hframe⟩ := hs.frame
    exact wp_finallyBlock _ hholds hmetrics fun w' metrics' h' => ⟨metrics', hframe _ _ _ h'⟩
  records outcome state s hs := by
    obtain ⟨rows, hholds, hframe⟩ := hs.frame
    exact wp_finallyBlock _ hholds hmetrics fun w' metrics' h' => ⟨metrics', hframe _ _ _ h'⟩
  concludes outcome state s hs := by
    obtain ⟨metrics', hover⟩ := hs
    obtain ⟨rows, hholds, hframe⟩ := hover.frame
    unfold Supervisor.conclude
    split
    · exact wp_announce _ _ _ _ _ hholds fun w' h' => ⟨metrics', hframe _ _ _ h'⟩
    · exact ⟨metrics', hover⟩

theorem auditPayload_isState (hmetadata : IsState req.metadata) :
    IsState (Supervisor.auditPayload req d) := by
  refine .dict _ ?_ ?_ ?_
  · simp [Supervisor.auditPayload, Key.isStr]
  · simp [Supervisor.auditPayload]
  · intro item hitem
    simp only [Supervisor.auditPayload, List.mem_cons, List.not_mem_nil, or_false] at hitem
    rcases hitem with rfl | rfl | rfl
    · exact .scalar _ rfl
    · exact .scalar _ rfl
    · exact hmetadata

variable (f stop sup) in
/-- An invocation alone ends as the step function and the latest row of its
thread say, and its kill flag stays down. -/
theorem ran (hstates : ∀ i, IsState (f^[i] (initial req d past))) {w : World} (hunused : Unused d w)
    (hpast : w.langgraphCheckpoints = past) (hunkilled : w.killRequested (Supervisor.tid req d) = false)
    (hmetadata : IsState req.metadata) :
    Ran f stop sup req d past ((sup.invoke req d).run (attend (stepping f stop)) (w, 0)).2
      ((sup.invoke req d).run (attend (stepping f stop)) (w, 0)).1 := by
  subst hpast
  obtain ⟨text, htext, _⟩ := loads_dumps (auditPayload_isState (d := d) hmetadata)
  have hholds : Holds (Supervisor.tid req d) w.agentMetrics w.langgraphCheckpoints w :=
    ⟨rfl, rfl, hunkilled⟩
  refine (wp_handled _ _ (Ran f stop sup req d w.langgraphCheckpoints) _).mp ?_
  unfold Supervisor.invoke
  rw [wp_bind]
  refine wp_audit hholds htext hunused.audit fun w' _ hholds => ?_
  exact Invocation.wp_proceed
    (outline hstates hunused.checkpoint hunused.distinct hunused.metric) _ ⟨rfl, hholds⟩

end Invoked

section Seam

variable {f : Dict → Dict} {s₀ s : Dict} {k m : Nat}

/-- The outcome and the number of steps are determined. -/
theorem Ends.unique {n : Nat} {outcome outcome' : Outcome} {state state' : Dict} {calls calls' : Nat}
    (h : Ends f never s₀ n outcome state calls) (h' : Ends f never s₀ n outcome' state' calls') :
    outcome = outcome' ∧ calls = calls' := by
  cases h with
  | killed j _ _ hkill => cases hkill
  | exhausted hall => cases h' with
    | killed j _ _ hkill => cases hkill
    | exhausted _ => exact ⟨rfl, rfl⟩
    | completed j hj _ _ hcompleted => exact absurd (.inr hcompleted) (hall j hj)
  | completed j hj hbefore _ hcompleted => cases h' with
    | killed j _ _ hkill => cases hkill
    | exhausted hall => exact absurd (.inr hcompleted) (hall j hj)
    | completed j' _ hbefore' _ hcompleted' =>
      have hle : ¬ j' < j := fun hlt => hbefore j' hlt (.inr hcompleted')
      have hge : ¬ j < j' := fun hlt => hbefore' j hlt (.inr hcompleted)
      obtain rfl : j = j' := by omega
      exact ⟨rfl, rfl⟩

/-- A loop that goes on from where `k` steps have led ends as one that never stopped. -/
theorem Ends.seam (hseam : ∀ j, completed (f^[j] s) = completed (f^[k + j] s₀))
    (hopen : ∀ i < k, completed (f^[i + 1] s₀) = false) {outcome : Outcome} {state : Dict} {calls : Nat}
    (h : Ends f never s m outcome state calls) :
    Ends f never s₀ (k + m) outcome (f^[k + calls] s₀) (k + calls) := by
  have hbefore {j : Nat} (hj : ∀ i < j, ¬ Stops f never s i) : ∀ i < k + j, ¬ Stops f never s₀ i := by
    rintro i hi (hkilled | hcompleted)
    · cases hkilled
    · by_cases hik : i < k
      · rw [hopen i hik] at hcompleted
        cases hcompleted
      · refine hj (i - k) (by omega) (.inr ?_)
        rw [hseam, show k + (i - k + 1) = i + 1 by omega]
        exact hcompleted
  cases h with
  | exhausted hall => exact .exhausted (hbefore hall)
  | killed j _ _ hkill => cases hkill
  | completed j hj hfirst _ hcompleted =>
    rw [hseam] at hcompleted
    exact .completed (k + j) (by omega) (hbefore hfirst) rfl hcompleted

theorem produces_add (c : Nat) :
    produces f s₀ (k + c) = produces f s₀ k ++ (List.range c).map fun j => f^[k + j + 1] s₀ := by
  simp [produces, List.range_add, Function.comp_def]

end Seam

/-- The state an invocation with input `x` starts from on a fresh thread `t`. -/
def freshState (t x : String) : Dict :=
  [(.str "messages", .list []), (.str "step", .int 0), (.str "input", .str x), (.str "thread_id", .str t)]

theorem isState_fresh (t x : String) : IsState (freshState t x) := by
  refine .dict _ ?_ ?_ ?_
  · simp [freshState, Key.isStr]
  · simp [freshState]
  · intro item hitem
    simp only [freshState, List.mem_cons, List.not_mem_nil, or_false] at hitem
    rcases hitem with rfl | rfl | rfl | rfl
    · exact .list _ (by simp)
    · exact .scalar _ rfl
    · exact .scalar _ rfl
    · exact .scalar _ rfl

/-- A step function on JSON states, compared as finite maps, that never
changes the input and the thread id. -/
structure JsonStep (f : Dict → Dict) : Prop where
  json : ∀ s, IsState s → IsState (f s)
  same : ∀ s s', IsState s → IsState s' → Same s s' → Same (f s) (f s')
  input : ∀ s, IsState s → Dict.get? (f s) "input" = Dict.get? s "input"
  thread : ∀ s, IsState s → Dict.get? (f s) "thread_id" = Dict.get? s "thread_id"

namespace JsonStep

variable {f : Dict → Dict} (hf : JsonStep f)

include hf

theorem iterate_json {s : Dict} (hs : IsState s) (n : Nat) : IsState (f^[n] s) := by
  induction n with
  | zero => exact hs
  | succ n ih =>
    rw [Function.iterate_succ_apply']
    exact hf.json _ ih

theorem iterate_same {s s' : Dict} (hs : IsState s) (hs' : IsState s') (h : Same s s') (n : Nat) :
    Same (f^[n] s) (f^[n] s') := by
  induction n with
  | zero => exact h
  | succ n ih =>
    rw [Function.iterate_succ_apply', Function.iterate_succ_apply']
    exact hf.same _ _ (hf.iterate_json hs n) (hf.iterate_json hs' n) ih

theorem iterate_keeps {s : Dict} (hs : IsState s) (n : Nat) :
    Dict.get? (f^[n] s) "input" = Dict.get? s "input" ∧
      Dict.get? (f^[n] s) "thread_id" = Dict.get? s "thread_id" := by
  induction n with
  | zero => exact ⟨rfl, rfl⟩
  | succ n ih =>
    rw [Function.iterate_succ_apply', hf.input _ (hf.iterate_json hs n), hf.thread _ (hf.iterate_json hs n)]
    exact ih

end JsonStep

/-- The request asks for input `x` on thread `t`. -/
structure Asks (t x : String) (req : Request) (d : Draws) : Prop where
  thread : Supervisor.tid req d = t
  input : req.inputText = x
  metadata : IsState req.metadata

theorem resumed_none {t x : String} {req : Request} {d : Draws} (h : Asks t x req d) :
    resumed req d none = freshState t x := by
  obtain ⟨rfl, rfl, _⟩ := h
  rfl

/-- Resuming from the row of a state gives the state back with its keys sorted. -/
theorem resumed_row {t x : String} {req : Request} {d : Draws} (h : Asks t x req d) {s : Dict}
    (hs : IsState s) {row : CheckpointRow} (hrow : dumps s = .ok row.state)
    (hinput : Dict.get? s "input" = some (.str x)) (hthread : Dict.get? s "thread_id" = some (.str t)) :
    resumed req d (some row) = canonDict s := by
  obtain ⟨text, htext, hloads⟩ := loads_dumps hs
  rw [hrow] at htext
  cases htext
  have hin : Dict.get? (canonDict s) "input" = some (.str x) := by
    rw [get?_canon (keys_nodup hs), hinput]
    rfl
  have hth : Dict.get? (canonDict s) "thread_id" = some (.str t) := by
    rw [get?_canon (keys_nodup hs), hthread]
    rfl
  change Dict.set (Dict.set (loads row.state) "input" (.str req.inputText)) "thread_id"
    (.str (Supervisor.tid req d)) = _
  rw [h.input, h.thread, hloads, set_self hin, set_self hth]

section Histories

variable {f : Dict → Dict} {t x : String} {w : World} {k m : Nat} {stop : Option (Nat × Exc)}

/-- The first invocation is over after `k` steps: it has no more, or the next one raises. -/
def Cut (k : Nat) (stop : Option (Nat × Exc)) (maxSteps : Int) : Prop :=
  stop = none ∧ maxSteps = k ∨ ∃ e, stop = some (k, e) ∧ (k : Int) < maxSteps

/-- No completed state among the first `k`: the loop takes `k` steps. -/
theorem calls_of_cut {s₀ : Dict} {maxSteps : Int} (hcut : Cut k stop maxSteps)
    (hopen : ∀ i < k, completed (f^[i + 1] s₀) = false) {outcome : Outcome} {state : Dict} {calls : Nat}
    (h : Ends f never s₀ maxSteps.toNat outcome state calls)
    (hearly : ∀ k' e, stop = some (k', e) → calls ≤ k') : calls = k := by
  have hcompleted {j : Nat} (hj : completed (f^[j + 1] s₀) = true) : ¬ j < k := by
    intro hlt
    rw [hopen j hlt] at hj
    cases hj
  rcases hcut with ⟨_, hmax⟩ | ⟨e, hstop, hmax⟩
  · cases h with
    | exhausted _ => omega
    | killed j _ _ hkill => cases hkill
    | completed j hj _ _ hdone => exact absurd (by omega) (hcompleted hdone)
  · have hle := hearly k e hstop
    cases h with
    | exhausted _ => omega
    | killed j _ _ hkill => cases hkill
    | completed j hj _ _ hdone => exact absurd (by omega) (hcompleted hdone)

/-- The rows of a thread that had none are the new ones. -/
theorem filter_thread {past new : List CheckpointRow} (hempty : past.filter (·.threadId == t) = [])
    (hnamed : ∀ row ∈ new, row.threadId = t) : (past ++ new).filter (·.threadId == t) = new := by
  have hall : new.filter (·.threadId == t) = new :=
    List.filter_eq_self.mpr fun row hrow => by simp [hnamed row hrow]
  rw [List.filter_append, hempty, hall, List.nil_append]

theorem initial_fresh {req : Request} {d : Draws} (hasks : Asks t x req d)
    (hempty : w.checkpoints t = []) : initial req d w.langgraphCheckpoints = freshState t x := by
  rw [initial, lastOf, hasks.thread, show w.langgraphCheckpoints.filter _ = [] from hempty,
    List.getLast?_nil, resumed_none hasks]

theorem first_adds (hf : JsonStep f) {sup : Supervisor} {req : Request} {d : Draws} (hasks : Asks t x req d)
    (hcut : Cut k stop sup.maxSteps) (hopen : ∀ i < k, completed (f^[i + 1] (freshState t x)) = false)
    (hempty : w.checkpoints t = []) (hunkilled : w.killRequested t = false) (hunused : Unused d w) :
    ∃ new metrics, Adds f (freshState t x) t d k new ∧ Holds t metrics (w.langgraphCheckpoints ++ new)
      (invokeAlone (stepping f stop) sup req d w).2 := by
  have hinitial := initial_fresh hasks hempty
  obtain ⟨rfl, _, hmetadata⟩ := hasks
  have hran := ran f stop sup
    (fun i => by rw [hinitial]; exact hf.iterate_json (isState_fresh _ x) i) hunused rfl hunkilled hmetadata
  unfold invokeAlone
  generalize (sup.invoke req d).run (attend (stepping f stop)) (w, 0) = left at hran ⊢
  obtain ⟨result, w', n⟩ := left
  cases result with
  | ok res =>
    obtain ⟨metrics, calls, new, hends, hearly, hadds, hholds⟩ := hran
    rw [hinitial] at hends hadds
    have hcalls := calls_of_cut hcut hopen hends hearly
    subst hcalls
    exact ⟨new, metrics, hadds, hholds⟩
  | error e =>
    obtain ⟨metrics, k', new, hstop, hadds, hholds⟩ := hran
    rw [hinitial] at hadds
    have hk : k' = k := by
      rcases hcut with ⟨hnone, _⟩ | ⟨e', hsome, _⟩
      · rw [hnone] at hstop
        cases hstop
      · rw [hsome] at hstop
        cases hstop
        rfl
    subst hk
    exact ⟨new, metrics, hadds, hholds⟩

variable (f) in
/-- An invocation whose step function never raises returns. -/
theorem returns (sup : Supervisor) {req : Request} {d : Draws}
    (hstates : ∀ i, IsState (f^[i] (initial req d w.langgraphCheckpoints))) (hunused : Unused d w)
    (hunkilled : w.killRequested (Supervisor.tid req d) = false) (hmetadata : IsState req.metadata) :
    ∃ res calls new metrics, (invokeAlone (stepping f none) sup req d w).1 = .ok res ∧
      Ends f never (initial req d w.langgraphCheckpoints) sup.maxSteps.toNat res.outcome res.state calls ∧
      Adds f (initial req d w.langgraphCheckpoints) (Supervisor.tid req d) d calls new ∧
      Holds (Supervisor.tid req d) metrics (w.langgraphCheckpoints ++ new)
        (invokeAlone (stepping f none) sup req d w).2 := by
  have hran := ran f none sup hstates hunused rfl hunkilled hmetadata
  unfold invokeAlone
  generalize (sup.invoke req d).run (attend (stepping f none)) (w, 0) = left at hran ⊢
  obtain ⟨result, w', n⟩ := left
  cases result with
  | ok res =>
    obtain ⟨metrics, calls, new, hends, _, hadds, hholds⟩ := hran
    exact ⟨res, calls, new, metrics, rfl, hends, hadds, hholds⟩
  | error e =>
    obtain ⟨_, _, _, hstop, _⟩ := hran
    cases hstop

/-- What a second invocation resumes from is where the first one stopped. -/
theorem initial_second (hf : JsonStep f) {req : Request} {d d' : Draws} (hasks : Asks t x req d)
    {past new : List CheckpointRow} (hempty : past.filter (·.threadId == t) = [])
    (hadds : Adds f (freshState t x) t d' k new) :
    IsState (initial req d (past ++ new)) ∧
      Same (initial req d (past ++ new)) (f^[k] (freshState t x)) := by
  have hlast : lastOf t (past ++ new) = new.getLast? := by
    rw [lastOf, filter_thread hempty hadds.named]
  have hstate := hf.iterate_json (isState_fresh t x) k
  rw [initial, hasks.thread, hlast]
  cases k with
  | zero =>
    have hnil : new = [] := List.map_eq_nil_iff.mp hadds.ids
    subst hnil
    rw [List.getLast?_nil, resumed_none hasks]
    exact ⟨isState_fresh t x, rfl⟩
  | succ k =>
    have hstored := congrArg List.getLast? hadds.stored
    rw [produces_succ, List.map_append, List.map_singleton, List.getLast?_concat, List.getLast?_map]
      at hstored
    obtain ⟨row, hrow, hdumps⟩ := Option.map_eq_some_iff.mp hstored
    obtain ⟨hinput, hthread⟩ := hf.iterate_keeps (isState_fresh t x) (k + 1)
    rw [hrow, resumed_row hasks hstate hdumps.symm hinput hthread]
    exact ⟨isState_canon hstate, same_canon hstate⟩

theorem checkpoints_of {metrics : List MetricRow} {past new : List CheckpointRow}
    (h : Holds t metrics (past ++ new) w) (hempty : past.filter (·.threadId == t) = [])
    (hnamed : ∀ row ∈ new, row.threadId = t) : w.checkpoints t = new := by
  rw [World.checkpoints, h.checkpoints, filter_thread hempty hnamed]

/-- From the seam on the two go through the same states. -/
theorem same_seam (hf : JsonStep f) {s₀ s : Dict} (hs₀ : IsState s₀) (hs : IsState s)
    (hsame : Same s (f^[k] s₀)) (j : Nat) : Same (f^[j] s) (f^[k + j] s₀) := by
  rw [Nat.add_comm, Function.iterate_add_apply]
  exact hf.iterate_same hs (hf.iterate_json hs₀ k) hsame j

/-- The steps of the second invocation store what the uninterrupted one stores after the seam. -/
theorem dumps_seam (hf : JsonStep f) {s₀ s : Dict} (hs₀ : IsState s₀) (hs : IsState s)
    (hsame : Same s (f^[k] s₀)) (c : Nat) :
    (produces f s₀ k).map dumps ++ (produces f s c).map dumps = (produces f s₀ (k + c)).map dumps := by
  rw [produces_add, List.map_append]
  congr 1
  simp only [produces, List.map_map]
  refine List.map_congr_left fun j _ => ?_
  exact (same_seam hf hs₀ hs hsame (j + 1)).dumps_eq (hf.iterate_json hs _) (hf.iterate_json hs₀ _)

end Histories

/-- The states of the checkpoints of thread `t`, as `list_all` gives them. -/
def listedStates (t : String) (w : World) : Except Exc (List Dict) :=
  (call (PostgresCheckpointer.listAll t) w).1.map fun cps => cps.map (·.state)

theorem listedStates_congr {t : String} {w w' : World}
    (h : (w.checkpoints t).map (fun row => (.ok row.state : Except Exc JsonObject)) =
      (w'.checkpoints t).map fun row => .ok row.state) : listedStates t w = listedStates t w' := by
  have hstates : (w.checkpoints t).map (·.state) = (w'.checkpoints t).map (·.state) := by
    have hinj : Function.Injective (List.map (Except.ok : JsonObject → Except Exc JsonObject)) :=
      List.map_injective_iff.mpr fun _ _ h => Except.ok.inj h
    refine hinj ?_
    rw [List.map_map, List.map_map]
    exact h
  have hloads := congrArg (List.map loads) hstates
  rw [List.map_map, List.map_map] at hloads
  rw [listedStates, listedStates, call_listAll, call_listAll]
  simp only [Except.map, List.map_map]
  exact congrArg _ hloads

/-- For a step function on JSON states: an invocation on a fresh thread that is
over after `k` steps without a completed state, and a second one with at most
`m`, end with the outcome, the state and the checkpoint states of one that was
never interrupted, with at most `k + m`. -/
theorem resumed_like_uninterrupted (f : Dict → Dict) (hf : JsonStep f) (t x : String) (w : World)
    (hempty : w.checkpoints t = []) (hthread : w.thread t = none) (k m : Nat)
    (stop : Option (Nat × Exc)) (sup₁ sup₂ sup : Supervisor) (req₁ req₂ req : Request)
    (d₁ d₂ d : Draws) (hcut : Cut k stop sup₁.maxSteps)
    (hopen : ∀ i < k, completed (f^[i + 1] (freshState t x)) = false)
    (hsecond : sup₂.maxSteps = m) (hwhole : sup.maxSteps = k + m)
    (hasks₁ : Asks t x req₁ d₁) (hasks₂ : Asks t x req₂ d₂) (hasks : Asks t x req d)
    (hunused₁ : Unused d₁ w) (hunused : Unused d w)
    (hunused₂ : Unused d₂ (invokeAlone (stepping f stop) sup₁ req₁ d₁ w).2) :
    ∃ res₂ res,
      (invokeAlone (stepping f none) sup₂ req₂ d₂
        (invokeAlone (stepping f stop) sup₁ req₁ d₁ w).2).1 = .ok res₂ ∧
      (invokeAlone (stepping f none) sup req d w).1 = .ok res ∧
      res₂.outcome = res.outcome ∧ Same res₂.state res.state ∧
      listedStates t (invokeAlone (stepping f none) sup₂ req₂ d₂
        (invokeAlone (stepping f stop) sup₁ req₁ d₁ w).2).2 =
        listedStates t (invokeAlone (stepping f none) sup req d w).2 := by
  have hunkilled : w.killRequested t = false := by rw [World.killRequested, hthread]
  have hfresh := isState_fresh t x
  -- what the first invocation leaves
  obtain ⟨new₁, metrics₁, hadds₁, hholds₁⟩ :=
    first_adds hf hasks₁ hcut hopen hempty hunkilled hunused₁
  generalize hw₁ : (invokeAlone (stepping f stop) sup₁ req₁ d₁ w).2 = w₁ at hholds₁ hunused₂ ⊢
  have hrows₁ := hholds₁.checkpoints
  -- the second invocation resumes from there
  obtain ⟨hstate₂, hsame₂⟩ := initial_second hf hasks₂ hempty hadds₁
  rw [← hrows₁] at hstate₂ hsame₂
  obtain ⟨res₂, c, new₂, metrics₂, hres₂, hends₂, hadds₂, hholds₂⟩ :=
    returns f sup₂ (fun i => hf.iterate_json hstate₂ i) hunused₂
      (by rw [hasks₂.thread]; exact hholds₁.unkilled) hasks₂.metadata
  -- the uninterrupted one starts afresh
  have hinitial := initial_fresh hasks hempty
  obtain ⟨res, c', new, metrics, hres, hends, hadds, hholds⟩ :=
    returns f sup (fun i => by rw [hinitial]; exact hf.iterate_json hfresh i) hunused
      (by rw [hasks.thread]; exact hunkilled) hasks.metadata
  rw [hinitial, hwhole] at hends
  rw [hinitial] at hadds
  have hmax : (k + m : Int).toNat = k + m := by omega
  rw [hmax] at hends
  rw [hsecond, Int.toNat_natCast] at hends₂
  have hsame := same_seam hf hfresh hstate₂ hsame₂
  have hseam (j : Nat) : completed (f^[j] (initial req₂ d₂ w₁.langgraphCheckpoints)) =
      completed (f^[k + j] (freshState t x)) :=
    (hsame j).truthyAt_eq (hf.iterate_json hstate₂ j) (hf.iterate_json hfresh _) "completed"
  obtain ⟨houtcome, hcalls⟩ := Ends.unique (Ends.seam hseam hopen hends₂) hends
  subst hcalls
  refine ⟨res₂, res, hres₂, hres, houtcome, ?_, listedStates_congr ?_⟩
  · rw [hends₂.state_eq, hends.state_eq]
    exact hsame c
  · rw [hasks.thread] at hadds hholds
    rw [hasks₂.thread] at hadds₂ hholds₂
    rw [hrows₁, List.append_assoc] at hholds₂
    have hnamed : ∀ row ∈ new₁ ++ new₂, row.threadId = t :=
      List.forall_mem_append.mpr ⟨hadds₁.named, hadds₂.named⟩
    rw [checkpoints_of hholds₂ hempty hnamed, checkpoints_of hholds hempty hadds.named,
      List.map_append, hadds₁.stored, hadds₂.stored, hadds.stored]
    exact dumps_seam hf hfresh hstate₂ hsame₂ c

/-- Ids that begin with the letter `c`. -/
def lettered (c : Char) : Draws :=
  ⟨"t", String.ofList [c, 'r'], fun i => String.ofList (c :: List.replicate i '.'),
    String.ofList [c, 'm'], fun _ => "now", .nan⟩

theorem unused_lettered {c : Char} {w : World} (haudit : ∀ row ∈ w.auditLog, row.id ≠ (lettered c).requestId)
    (hmetric : ∀ row ∈ w.agentMetrics, row.id ≠ (lettered c).metricId)
    (hrows : ∀ row ∈ w.langgraphCheckpoints, row.checkpointId.toList.head? ≠ some c) :
    Unused (lettered c) w := by
  refine ⟨haudit, hmetric, fun row hrow i hi => ?_, fun i j hij => ?_⟩
  · have hhead := hrows row hrow
    rw [hi] at hhead
    simp [lettered] at hhead
  · have hlist := String.ofList_injective hij
    simpa using congrArg List.length hlist

theorem copies : JsonStep id := ⟨fun _ h => h, fun _ _ _ _ h => h, fun _ _ => rfl, fun _ _ => rfl⟩

/-- The state that is checkpointed each time. -/
def greeting : Dict :=
  [(.str "input", .str "hi"), (.str "messages", .list []), (.str "step", .int 0), (.str "thread_id", .str "t")]

/-- Two steps in one go, or one before the step function raises and one after. -/
theorem resumed_like_uninterrupted_two :
    ∃ w₁ w₂ w res₂ res, invokeAlone (stepping id (some (1, .cancelled))) ⟨.sqlite, "agent.events", 8⟩
        ⟨some "t", "hi", []⟩ (lettered 'a') World.empty = (.error .cancelled, w₁) ∧
      listedStates "t" w₁ = .ok [greeting] ∧
      invokeAlone (stepping id none) ⟨.sqlite, "agent.events", 1⟩ ⟨some "t", "hi", []⟩ (lettered 'b') w₁ =
        (.ok res₂, w₂) ∧
      invokeAlone (stepping id none) ⟨.sqlite, "agent.events", 2⟩ ⟨some "t", "hi", []⟩ (lettered 'c')
        World.empty = (.ok res, w) ∧
      res.outcome = .maxStepsExceeded ∧ res₂.outcome = res.outcome ∧ Same res₂.state res.state ∧
      listedStates "t" w₂ = .ok [greeting, greeting] ∧ listedStates "t" w₂ = listedStates "t" w := by
  have hasks (c : Char) : Asks "t" "hi" ⟨some "t", "hi", []⟩ (lettered c) :=
    ⟨rfl, rfl, .dict [] nofun List.nodup_nil nofun⟩
  have hempty (c : Char) : Unused (lettered c) World.empty := unused_lettered nofun nofun nofun
  obtain ⟨res₂, res, hres₂, hres, houtcome, hstate, hlisted⟩ :=
    resumed_like_uninterrupted id copies "t" "hi" World.empty rfl rfl 1 1 (some (1, .cancelled))
      ⟨.sqlite, "agent.events", 8⟩ ⟨.sqlite, "agent.events", 1⟩ ⟨.sqlite, "agent.events", 2⟩
      ⟨some "t", "hi", []⟩ ⟨some "t", "hi", []⟩ ⟨some "t", "hi", []⟩
      (lettered 'a') (lettered 'b') (lettered 'c') (.inr ⟨_, rfl, by decide⟩) (by decide) rfl rfl
      (hasks 'a') (hasks 'b') (hasks 'c') (hempty 'a') (hempty 'c')
      (unused_lettered (by decide) (by decide) (by decide))
  have hmax : ((invokeAlone (stepping id none) ⟨.sqlite, "agent.events", 2⟩ ⟨some "t", "hi", []⟩
      (lettered 'c') World.empty).1.map InvokeResult.outcome) = .ok .maxStepsExceeded := rfl
  rw [hres] at hmax
  exact ⟨_, _, _, res₂, res, rfl, rfl, Prod.ext hres₂ rfl, Prod.ext hres rfl, Except.ok.inj hmax, houtcome,
    hstate, rfl, hlisted⟩

end NoblePort.Resumption
