import Mathlib.Data.Fintype.Basic
import NoblePort.Monitor

/-!
# What a request leaves in the world

Every event and every metric row of an invocation carries its request id, so
what the world holds under a request id is what that one call put there.
-/
namespace NoblePort.Requests

open Coroutine Coroutine.Contract NoblePort.Values NoblePort.Store NoblePort.ThreadState
open NoblePort.Records NoblePort.Runtime NoblePort.System NoblePort.Monitor

/-- The events that name how an invocation ended. -/
def isTerminal : EventType → Bool
  | .invokeKilled | .invokeCancelled | .invokeError | .invokeEnd => true
  | .invokeStart | .stepStart | .stepEnd => false

def requestId : Operation → Option String
  | .invoke _ _ d => some d.requestId
  | _ => none

/-- Events and metric rows carry the request id of the operation. -/
def identityContract (r : Option String) : Contract Op Op.Resp Exc Unit where
  observe _ _ := ()
  rely _ _ := True
  guarantee _ op :=
    match op with
    | .publish _ event => ∃ id, r = some id ∧ Dict.get? event.payload "request_id" = some (.str id)
    | .execute (.insertAgentMetrics row) => row.eventId = r ∧ r ≠ none
    | _ => True

abbrev Anywhere : Unit → Prop := fun _ => True

/-- The calls that neither publish nor insert a metric row. -/
def silent : Op → Bool
  | .publish _ _ => false
  | .execute (.insertAgentMetrics _) => false
  | _ => true

theorem keeps_call {r : Option String} {op : Op} (h : silent op = true) :
    (identityContract r).Keeps Anywhere (.call op) := by
  refine .call (fun _ _ => ?_) fun _ _ _ _ _ => trivial
  cases op with
  | publish channel event => cases h
  | execute st => cases st with
    | insertAgentMetrics row => cases h
    | _ => trivial
  | _ => trivial

theorem keeps_upsert {r : Option String} (db : Dialect) (t status : String) (killed : Option Bool)
    (event : Option String) (now : String) :
    (identityContract r).Keeps Anywhere (upsert db t status killed event now) :=
  Invocation.keeps_upsert _ _ _ _ _ _ (keeps_call rfl) fun st h => keeps_call (by
    cases st <;> first | rfl | cases h)

theorem partsKeep (sup : Supervisor) (req : Request) (d : Draws) :
    Invocation.PartsKeep (identityContract (some d.requestId)) sup req d Anywhere where
  status _ _ := keeps_upsert ..
  publish _ _ _ := .call (fun _ _ => ⟨_, rfl, rfl⟩) fun _ _ _ _ _ => trivial
  latest := Invocation.keeps_getLatest (keeps_call rfl)
  killed := Invocation.keeps_isKillRequested (keeps_call rfl)
  step _ := keeps_call rfl
  put _ _ _ := Invocation.keeps_put (keeps_call rfl) fun _ => keeps_call rfl
  fin _ := Invocation.keeps_finallyBlock
    (.call (fun _ _ => ⟨rfl, nofun⟩) fun _ _ _ _ _ => trivial)

theorem keeps_program (op : Operation) :
    (identityContract (requestId op)).Keeps Anywhere op.program := by
  cases op with
  | invoke sup req d =>
    exact .bind (.bind (Invocation.keeps_audit (keeps_call rfl) fun _ => keeps_call rfl)
      fun _ => Invocation.keeps_proceed (partsKeep sup req d)) fun _ => .ret _
  | requestKill db t now =>
    exact .bind (Invocation.keeps_requestKill (keeps_call rfl) (keeps_upsert ..)) fun _ => .ret _
  | setThreadStatus db t status event now => exact .bind (keeps_upsert ..) fun _ => .ret _

variable {ι : Type} [DecidableEq ι] {ops : ι → Operation} {w₀ : World}
  {cond : Stack ι → ι → Choice → Prop} {s : Stack ι}

/-- Every call in the log carries the request id of its task. -/
theorem carried (h : Reach cond (start ops w₀) s) {x : ι × Answered} (hx : x ∈ s.log) :
    (identityContract (requestId (ops x.1))).guarantee () x.2.op := by
  have hmem : x.2 ∈ s.traceOf x.1 := Pool.mem_traceOf.mpr hx
  obtain ⟨pre, post, htr⟩ := List.append_of_mem hmem
  exact h.guarantee_logged rfl (wp_mono _ _ _ (fun _ _ _ => trivial)
    ((keeps_program (ops x.1)).wp () trivial)) (relied_of_forall _ fun _ _ _ => trivial) htr

/-- The events an answered call put on the bus. -/
def eventsBy (e : Answered) : List Event :=
  match e.op with
  | .publish _ event => if e.landed then [event] else []
  | _ => []

/-- The metric rows an answered call stored. -/
def metricsBy (e : Answered) : List MetricRow :=
  match e.op with
  | .execute (.insertAgentMetrics row) => if e.landed then [row] else []
  | _ => []

/-- No other operation has the request id of task `i`. -/
def OnlyRequest (ops : ι → Operation) (i : ι) (r : String) : Prop :=
  ∀ j, requestId (ops j) = some r ↔ j = i

instance [Fintype ι] (ops : ι → Operation) (i : ι) (r : String) : Decidable (OnlyRequest ops i r) :=
  inferInstanceAs (Decidable (∀ _, _ ↔ _))

theorem published_of_request (h : Reach cond (start ops w₀) s) {i : ι} {r : String}
    (hr : OnlyRequest ops i r) (h₀ : w₀.published.filter (·.carries r) = []) :
    s.world.published.filter (·.carries r) = (s.traceOf i).flatMap eventsBy := by
  have hview := h.view_eq (i := i) (fun w => w.published.filter (·.carries r)) eventsBy rfl ?_
  · simpa [start, h₀] using hview
  · rintro ⟨j, op, result, landed⟩ hx w
    have hc := carried h hx
    cases landed with
    | false => cases op <;> simp [Interp.settle, eventsBy]
    | true =>
      cases op with
      | publish channel event =>
        obtain ⟨id, hid, hget⟩ := hc
        have hcarries : event.carries r = decide (j = i) := by
          simp only [Event.carries, hget]
          by_cases hij : j = i
          · have := (hr j).mpr hij
            rw [hid] at this
            simpa [hij] using this
          · have hne : id ≠ r := fun heq => hij ((hr j).mp (heq ▸ hid))
            simp [hij, hne]
        by_cases hij : j = i <;>
          simp [Interp.settle, World.effect, eventsBy, List.filter_append, hcarries, hij]
      | execute st => cases st <;> simp [Interp.settle, World.effect, World.apply, eventsBy]
      | _ => simp [Interp.settle, World.effect, eventsBy]

theorem metrics_of_request (h : Reach cond (start ops w₀) s) {i : ι} {r : String}
    (hr : OnlyRequest ops i r) (h₀ : w₀.agentMetrics.filter (·.eventId == some r) = []) :
    s.world.agentMetrics.filter (·.eventId == some r) = (s.traceOf i).flatMap metricsBy := by
  have hview := h.view_eq (i := i) (fun w => w.agentMetrics.filter (·.eventId == some r)) metricsBy rfl ?_
  · simpa [start, h₀] using hview
  · rintro ⟨j, op, result, landed⟩ hx w
    have hc := carried h hx
    cases landed with
    | false =>
      cases op with
      | execute st => cases st <;> simp [Interp.settle, metricsBy]
      | _ => simp [Interp.settle, metricsBy]
    | true =>
      cases op with
      | execute st =>
        cases st with
        | insertAgentMetrics row =>
          have hid : (row.eventId == some r) = decide (j = i) := by
            rw [hc.1]
            by_cases hij : j = i
            · simp [hij, (hr i).mpr rfl]
            · simpa [hij] using fun heq => hij ((hr j).mp heq)
          by_cases hij : j = i <;>
            simp [Interp.settle, World.effect, World.apply, metricsBy, List.filter_append,
              hid, hij]
        | _ => simp [Interp.settle, World.effect, World.apply, metricsBy]
      | _ => simp [Interp.settle, World.effect, metricsBy]

/-- What the log put on the bus is there. -/
theorem published_logged (h : Reach cond (start ops w₀) s) {x : ι × Answered} (hx : x ∈ s.log)
    {event : Event} (hevent : event ∈ eventsBy x.2) : event ∈ s.world.published := by
  have hsettle (w : World) (e : Answered) :
      (interp.settle w e).published = w.published ++ eventsBy e := by
    obtain ⟨op, result, landed⟩ := e
    cases landed <;> cases op with
    | execute st => cases st <;> simp [Interp.settle, World.effect, World.apply, eventsBy]
    | _ => simp [Interp.settle, World.effect, eventsBy]
  induction h with
  | start => cases hx
  | step _ _ hs ih =>
    obtain ⟨op, k, _, hw, _, hl⟩ := Pool.step_cases interp hs
    rw [hw, hsettle, List.mem_append]
    rw [hl] at hx
    rcases List.mem_append.mp hx with hx | hx
    · exact .inl (ih hx)
    · rw [List.mem_singleton.mp hx] at hevent
      exact .inr hevent

/-- A call takes effect exactly when it returns. -/
def Exactly (e : Answered) : Prop := e.landed = !e.failed

theorem note_events {e : Answered} (he : ∀ channel event, e.op = .publish channel event → Exactly e)
    (m : Summary) : (note m e).events = m.events ++ eventsBy e := by
  obtain ⟨op, result, landed⟩ := e
  cases op with
  | publish channel event =>
    have hl : landed = !Entry.failed _ := he channel event rfl
    cases result <;> simp_all [note, eventsBy, Summary.answer, Summary.fault, Entry.failed]
  | execute st => cases st <;> cases result <;> simp [note, eventsBy, Summary.answer, Summary.fault]
  | fetch q => cases q <;> cases result <;> simp [note, eventsBy, Summary.answer, Summary.fault]
  | _ => cases result <;> simp [note, eventsBy, Summary.answer, Summary.fault]

theorem note_metrics {e : Answered}
    (he : ∀ row, e.op = .execute (.insertAgentMetrics row) → Exactly e) (m : Summary) :
    (note m e).metrics = m.metrics ++ metricsBy e := by
  obtain ⟨op, result, landed⟩ := e
  cases op with
  | execute st =>
    cases st with
    | insertAgentMetrics row =>
      have hl : landed = !Entry.failed _ := he row rfl
      cases result <;> simp_all [note, metricsBy, Summary.answer, Summary.fault, Entry.failed]
    | _ => cases result <;> simp [note, metricsBy, Summary.answer, Summary.fault]
  | fetch q => cases q <;> cases result <;> simp [note, metricsBy, Summary.answer, Summary.fault]
  | _ => cases result <;> simp [note, metricsBy, Summary.answer, Summary.fault]

/-- The checkpoint an answered insert stored. -/
def storedBy (e : Answered) : List CheckpointRow :=
  match e.op with
  | .execute (.insertCheckpoint _ row) => if e.landed then [row] else []
  | _ => []

/-- Where a call takes effect exactly when it returns, the summary has what it stored. -/
theorem note_stored {e : Answered} (he : Exactly e) (m : Summary) :
    (note m e).checkpoints = m.checkpoints ++ storedBy e := by
  obtain ⟨op, result, landed⟩ := e
  cases op with
  | execute st =>
    cases st with
    | insertCheckpoint jsonb row =>
      have hl : landed = !Entry.failed _ := he
      cases result <;> simp_all [note, storedBy, Summary.answer, Summary.fault, Entry.failed]
    | _ => cases result <;> simp [note, storedBy, Summary.answer, Summary.fault, Summary.audit]
  | fetch q => cases q <;> cases result <;> simp [note, storedBy, Summary.answer, Summary.fault]
  | _ => cases result <;> simp [note, storedBy, Summary.answer, Summary.fault]

/-- The state an answered call of the step function gave. -/
def producedBy (e : Answered) : List Dict :=
  match e with
  | ⟨.stepFn _, .ok state, _⟩ => [state]
  | _ => []

def faultsBy (e : Answered) : List Fault :=
  match e.result with
  | .ok _ => []
  | .error exc => [⟨e.op, exc⟩]

/-- The flag an answered kill check read. -/
def readBy (e : Answered) : List Bool :=
  match e with
  | ⟨.fetch (.killRequested _), .ok row, _⟩ =>
    [((row : Option ThreadRow).map (·.killRequested.truthy)).getD false]
  | _ => []

theorem note_reads (e : Answered) (m : Summary) : (note m e).killReads = m.killReads ++ readBy e := by
  obtain ⟨op, result, landed⟩ := e
  cases op with
  | execute st => cases st <;> cases result <;> simp [note, readBy, Summary.answer, Summary.fault, Summary.audit]
  | fetch q => cases q <;> cases result <;> simp [note, readBy, Summary.answer, Summary.fault]
  | _ => cases result <;> simp [note, readBy, Summary.answer, Summary.fault]

theorem note_produced (e : Answered) (m : Summary) :
    (note m e).produced = m.produced ++ producedBy e := by
  obtain ⟨op, result, landed⟩ := e
  cases op with
  | execute st => cases st <;> cases result <;> simp [note, producedBy, Summary.answer, Summary.fault, Summary.audit]
  | fetch q => cases q <;> cases result <;> simp [note, producedBy, Summary.answer, Summary.fault]
  | _ => cases result <;> simp [note, producedBy, Summary.answer, Summary.fault]

theorem note_faults (e : Answered) (m : Summary) : (note m e).faults = m.faults ++ faultsBy e := by
  obtain ⟨op, result, landed⟩ := e
  cases result with
  | error exc => rfl
  | ok r =>
    rw [show faultsBy ⟨op, .ok r, landed⟩ = [] from rfl, List.append_nil]
    cases op with
    | execute st => cases st <;> rfl
    | fetch q => cases q <;> rfl
    | _ => rfl

/-- What a list field of the summary gathers from a trace. -/
theorem foldl_note {A : Type} {field : Summary → List A} {gives : Answered → List A}
    {tr : List Answered} (h : ∀ e ∈ tr, ∀ m, field (note m e) = field m ++ gives e) (m : Summary) :
    field (tr.foldl note m) = field m ++ tr.flatMap gives := by
  induction tr generalizing m with
  | nil => simp
  | cons e tr ih =>
    rw [List.foldl_cons, ih (fun e he => h e (List.mem_cons_of_mem _ he)),
      h e (List.mem_cons_self ..), List.flatMap_cons, List.append_assoc]

theorem produced_eq (tr : List Answered) : (tr.foldl note {}).produced = tr.flatMap producedBy :=
  foldl_note (fun e _ => note_produced e) {}

theorem reads_eq (tr : List Answered) : (tr.foldl note {}).killReads = tr.flatMap readBy :=
  foldl_note (fun e _ => note_reads e) {}

theorem faults_eq (tr : List Answered) : (tr.foldl note {}).faults = tr.flatMap faultsBy :=
  foldl_note (fun e _ => note_faults e) {}

/-- A fault of the summary is an answered call that raised. -/
theorem mem_faults {tr : List Answered} {f : Fault} :
    f ∈ (tr.foldl note {}).faults ↔ ∃ landed, ⟨f.op, .error f.exc, landed⟩ ∈ tr := by
  rw [faults_eq, List.mem_flatMap]
  constructor
  · rintro ⟨⟨op, result, landed⟩, he, hf⟩
    cases result with
    | ok r => cases hf
    | error exc =>
      rw [List.mem_singleton.mp hf]
      exact ⟨landed, he⟩
  · rintro ⟨landed, he⟩
    exact ⟨_, he, List.mem_singleton_self _⟩

/-- The events the world holds under a request id are those of the summary. -/
theorem events_of_request (h : Reach cond (start ops w₀) s) {i : ι} {r : String}
    (hr : OnlyRequest ops i r) (h₀ : w₀.published.filter (·.carries r) = [])
    (hexact : ∀ e ∈ s.traceOf i, ∀ channel event, e.op = .publish channel event → Exactly e) :
    s.world.published.filter (·.carries r) = (summaryOf s i).events := by
  rw [published_of_request h hr h₀, summaryOf, foldl_note fun e he => note_events (hexact e he)]
  rfl

theorem rows_of_request (h : Reach cond (start ops w₀) s) {i : ι} {r : String}
    (hr : OnlyRequest ops i r) (h₀ : w₀.agentMetrics.filter (·.eventId == some r) = [])
    (hexact : ∀ e ∈ s.traceOf i, ∀ row, e.op = .execute (.insertAgentMetrics row) → Exactly e) :
    s.world.agentMetrics.filter (·.eventId == some r) = (summaryOf s i).metrics := by
  rw [metrics_of_request h hr h₀, summaryOf, foldl_note fun e he => note_metrics (hexact e he)]
  rfl

/-- What returns has taken effect, in every run. -/
theorem landed_in_trace (h : Reach cond (start ops w₀) s) {i : ι} {e : Answered}
    (he : e ∈ s.traceOf i) (hok : e.failed = false) : e.landed = true :=
  h.log_forall (P := fun e => e.failed = false → e.landed = true) (fun _ _ _ _ _ => landed_of_not_failed)
    (by simp [start]) _ (Pool.mem_traceOf.mp he) hok

theorem exactly_of_ok (h : Reach cond (start ops w₀) s) {i : ι} {e : Answered}
    (he : e ∈ s.traceOf i) (hok : e.failed = false) : Exactly e := by
  rw [Exactly, hok, landed_in_trace h he hok, Bool.not_false]

theorem summaryOf_step {s s' : Stack ι} {i j : ι} {e : Answered} (hlog : s'.log = s.log ++ [(j, e)]) :
    summaryOf s' i = if j = i then note (summaryOf s i) e else summaryOf s i := by
  unfold summaryOf
  split
  · rename_i hij
    subst hij
    rw [Pool.traceOf_step_same hlog, List.foldl_append]
    rfl
  · rename_i hij
    rw [Pool.traceOf_step_other hlog hij]

theorem settle_checkpoints (w : World) (e : Answered) :
    (interp.settle w e).langgraphCheckpoints = w.langgraphCheckpoints ++ storedBy e := by
  obtain ⟨op, result, landed⟩ := e
  cases landed <;> cases op with
  | execute st => cases st <;> simp [Interp.settle, World.effect, World.apply, storedBy]
  | _ => simp [Interp.settle, World.effect, storedBy]

theorem note_checkpoints {e : Answered} (he : e.failed = false → e.landed = true) (m : Summary) :
    (note m e).checkpoints = m.checkpoints ∨ (note m e).checkpoints = m.checkpoints ++ storedBy e := by
  obtain ⟨op, result, landed⟩ := e
  cases result with
  | error exc => exact .inl rfl
  | ok r =>
    cases op with
    | execute st =>
      cases st with
      | insertCheckpoint jsonb row =>
        have hl : landed = true := he rfl
        subst hl
        exact .inr rfl
      | _ => exact .inl rfl
    | fetch q => cases q <;> exact .inl rfl
    | _ => exact .inl rfl

/-- The checkpoints a call was told it stored are stored, in that order. -/
theorem checkpoints_kept (h : Reach cond (start ops w₀) s) (i : ι) :
    List.Sublist (summaryOf s i).checkpoints s.world.langgraphCheckpoints := by
  induction h with
  | start => exact List.nil_sublist _
  | @step s s' j c _ _ hs ih =>
    obtain ⟨op, k, _, hw, _, hl⟩ := Pool.step_cases interp hs
    rw [summaryOf_step hl, hw, settle_checkpoints]
    split
    · rcases note_checkpoints (fun h => landed_of_not_failed h) (summaryOf s i) with hn | hn
      · rw [hn]
        exact ih.trans (List.sublist_append_left _ _)
      · rw [hn]
        exact ih.append (List.Sublist.refl _)
    · exact ih.trans (List.sublist_append_left _ _)

theorem checkpoints_stored (h : Reach cond (start ops w₀) s) {i : ι} {t : String}
    (ht : ∀ row ∈ (summaryOf s i).checkpoints, row.threadId = t) :
    List.Sublist (summaryOf s i).checkpoints (s.world.checkpoints t) := by
  have hsub := (checkpoints_kept h i).filter fun row => row.threadId == t
  rwa [List.filter_eq_self.mpr fun row hrow => by simpa using ht row hrow] at hsub

end NoblePort.Requests
