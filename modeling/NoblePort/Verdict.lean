import NoblePort.Requests

/-!
# One verdict per request

The events of a request follow a small automaton: a start, pairs of step
events, perhaps one step left open, one terminal event. The one way out of it
is a fault of the status update that follows `agent.invoke.killed`: its except
clause publishes a second terminal event.
-/
namespace NoblePort.Verdict

open Coroutine Coroutine.Contract NoblePort.Values NoblePort.Store NoblePort.Runtime
open NoblePort.System NoblePort.Monitor NoblePort.Requests

inductive Phase where
  | fresh | idle | stepping | over
  deriving DecidableEq, Repr

def advance : Phase → EventType → Option Phase
  | .fresh, .invokeStart => some .idle
  | .idle, .stepStart => some .stepping
  | .stepping, .stepEnd => some .idle
  | .idle, type | .stepping, type => if isTerminal type then some .over else none
  | _, _ => none

/-- Where a list of events leads, if it keeps to the order. -/
def phaseOf (events : List Event) : Option Phase :=
  events.foldlM (fun phase event => advance phase event.type) .fresh

def Ordered (events : List Event) : Prop := phaseOf events ≠ none

theorem phaseOf_snoc (events : List Event) (event : Event) :
    phaseOf (events ++ [event]) = (phaseOf events).bind fun phase => advance phase event.type := by
  simp [phaseOf, List.foldlM_append]

theorem advance_terminal {phase : Phase} {type : EventType} (h : isTerminal type = true) :
    advance phase type = if phase = .idle ∨ phase = .stepping then some .over else none := by
  cases phase <;> cases type <;> first | rfl | cases h

theorem advance_other {phase phase' : Phase} {type : EventType} (h : isTerminal type = false)
    (hnext : advance phase type = some phase') : phase ≠ .over ∧ phase' ≠ .over := by
  cases phase <;> cases phase' <;> cases type <;> simp_all [isTerminal, advance]

/-- Events in order have a terminal event exactly if they are over, and then one. -/
theorem terminal_of_phase {phase : Phase} (events : List Event) (h : phaseOf events = some phase) :
    (events.filter fun event => isTerminal event.type).length = if phase = .over then 1 else 0 := by
  induction events using List.reverseRecOn generalizing phase with
  | nil =>
    cases h
    rfl
  | append_singleton events event ih =>
    rw [phaseOf_snoc] at h
    obtain ⟨before, hbefore, hnext⟩ := Option.bind_eq_some_iff.mp h
    have hcount := ih hbefore
    cases ht : isTerminal event.type with
    | true =>
      rw [advance_terminal ht, Option.ite_none_right_eq_some] at hnext
      obtain ⟨hopen, hover⟩ := hnext
      cases hover
      have hne : before ≠ .over := by rcases hopen with rfl | rfl <;> decide
      simp [List.filter_append, ht, hcount, hne]
    | false =>
      obtain ⟨hne, hne'⟩ := advance_other ht hnext
      simp [List.filter_append, ht, hcount, hne, hne']

/-- No request in order has two verdicts. -/
theorem Ordered.one_verdict {events : List Event} (h : Ordered events) :
    (events.filter fun event => isTerminal event.type).length ≤ 1 := by
  obtain ⟨phase, hphase⟩ := Option.ne_none_iff_exists'.mp h
  rw [terminal_of_phase events hphase]
  split <;> omega

/-- The checkpoint an `agent.step.end` reports. -/
def reports (e : Event) : Option (Option PyVal) :=
  if e.type = .stepEnd then some (Dict.get? e.payload "checkpoint_id") else none

/-- The id of a row, as an event reports it. -/
def reported (row : CheckpointRow) : Option PyVal := some (.str row.checkpointId)

/-- The rows are of thread `t`, and the first of them, in order, are the reported ones. -/
structure Truthful (t : String) (events : List Event) (rows : List CheckpointRow) : Prop where
  thread : ∀ row ∈ rows, row.threadId = t
  prefixed : events.filterMap reports <+: rows.map reported

/-- A fault since `agent.invoke.killed`, other than that of the metric insert. -/
def counts (f : Fault) : Bool :=
  match f.op with
  | .execute (.insertAgentMetrics _) => false
  | _ => true

/-- Exactly one call raised between `agent.invoke.killed` and the metric insert. -/
def LateOnce (m : Summary) : Prop := (m.late.filter counts).length = 1

instance (m : Summary) : Decidable (LateOnce m) := inferInstanceAs (Decidable (_ = _))

variable {t : String} {phase : Phase} {events : List Event} {rows : List CheckpointRow}
  {late : List Fault}

theorem Truthful.snoc {event : Event} (h : Truthful t events rows) (hnone : reports event = none) :
    Truthful t (events ++ [event]) rows :=
  ⟨h.thread, by simpa [List.filterMap_append, hnone] using h.prefixed⟩

theorem Truthful.put {row : CheckpointRow} (h : Truthful t events rows) (hrow : row.threadId = t) :
    Truthful t events (rows ++ [row]) := by
  constructor
  · intro row' hmem
    rcases List.mem_append.mp hmem with hmem | hmem
    · exact h.thread row' hmem
    · rw [List.mem_singleton.mp hmem]
      exact hrow
  · rw [List.map_append]
    exact h.prefixed.trans (List.prefix_append _ _)

/-- In order so far, and no `agent.invoke.killed` yet. -/
structure Stands (t : String) (phase : Phase) (events : List Event) (rows : List CheckpointRow)
    (late : List Fault) : Prop where
  order : phaseOf events = some phase
  truthful : Truthful t events rows
  unkilled : events.any Event.kills = false
  late : late = []

theorem Stands.snoc {phase' : Phase} {event : Event} (h : Stands t phase events rows late)
    (hnext : advance phase event.type = some phase') (hkills : event.kills = false)
    (hnone : reports event = none) : Stands t phase' (events ++ [event]) rows late := by
  refine ⟨?_, h.truthful.snoc hnone, ?_, h.late⟩
  · rw [phaseOf_snoc, h.order]
    exact hnext
  · simp [h.unkilled, hkills]

theorem Stands.put {row : CheckpointRow} (h : Stands t phase events rows late)
    (hrow : row.threadId = t) : Stands t phase events (rows ++ [row]) late :=
  ⟨h.order, h.truthful.put hrow, h.unkilled, h.late⟩

/-- The last event reports the last checkpoint. -/
theorem Stands.report {event : Event} {row : CheckpointRow}
    (h : Stands t .stepping events (rows ++ [row]) late) (hevent : event.type = .stepEnd)
    (hid : Dict.get? event.payload "checkpoint_id" = reported row)
    (hreported : events.filterMap reports = rows.map reported) :
    Stands t .idle (events ++ [event]) (rows ++ [row]) late ∧
      (events ++ [event]).filterMap reports = (rows ++ [row]).map reported := by
  have hall : (events ++ [event]).filterMap reports = (rows ++ [row]).map reported := by
    simp [List.filterMap_append, hreported, reports, hevent, hid]
  refine ⟨⟨?_, ⟨h.truthful.thread, by rw [hall]⟩, ?_, h.late⟩, hall⟩
  · rw [phaseOf_snoc, h.order, hevent]
    rfl
  · rw [List.any_append, h.unkilled]
    simp [Event.kills, hevent]

/-- `agent.invoke.killed` is the last event. -/
structure Killed (t : String) (events : List Event) (rows : List CheckpointRow) : Prop where
  order : phaseOf events = some .over
  truthful : Truthful t events rows
  killed : events.any Event.kills = true

theorem Stands.kill {event : Event} (h : Stands t .idle events rows late)
    (hevent : event.type = .invokeKilled) : Killed t (events ++ [event]) rows := by
  refine ⟨?_, h.truthful.snoc (by simp [reports, hevent]), ?_⟩
  · rw [phaseOf_snoc, h.order, hevent]
    rfl
  · simp [Event.kills, hevent]

section Summaries

variable {m : Summary} {op : Op} {e : Exc}

/-- Kept at every await. -/
def InOrder (t : String) (m : Summary) : Prop :=
  Truthful t m.events m.checkpoints ∧ (¬ LateOnce m → Ordered m.events)

/-- Kept to the end. -/
def Balanced (t : String) (m : Summary) : Prop :=
  Truthful t m.events m.checkpoints ∧ (Ordered m.events ↔ ¬ LateOnce m)

theorem Balanced.inOrder (h : Balanced t m) : InOrder t m := ⟨h.1, h.2.mpr⟩

theorem not_lateOnce (h : m.late = []) : ¬ LateOnce m := by
  simp [LateOnce, h]

theorem Stands.ordered (h : Stands t phase events rows late) : Ordered events := by
  rw [Ordered, h.order]
  exact Option.some_ne_none _

theorem Killed.ordered (h : Killed t events rows) : Ordered events := by
  rw [Ordered, h.order]
  exact Option.some_ne_none _

theorem Stands.balanced (h : Stands t phase m.events m.checkpoints m.late) : Balanced t m :=
  ⟨h.truthful, fun _ => not_lateOnce h.late, fun _ => h.ordered⟩

theorem Stands.inOrder (h : Stands t phase m.events m.checkpoints m.late) : InOrder t m :=
  h.balanced.inOrder

theorem Killed.inOrder (h : Killed t m.events m.checkpoints) : InOrder t m :=
  ⟨h.truthful, fun _ => h.ordered⟩

theorem Stands.fault (h : Stands t phase m.events m.checkpoints m.late) :
    Stands t phase (m.fault op e).events (m.fault op e).checkpoints (m.fault op e).late := by
  refine ⟨h.order, h.truthful, h.unkilled, ?_⟩
  simp [Summary.fault, h.unkilled, h.late]

theorem Killed.late_fault (h : Killed t m.events m.checkpoints) :
    (m.fault op e).late = m.late ++ [⟨op, e⟩] := by
  simp [Summary.fault, h.killed]

/-- A fault of the metric insert changes nothing. -/
theorem Balanced.metric {row : MetricRow} (h : Balanced t m) :
    Balanced t (m.fault (.execute (.insertAgentMetrics row)) e) := by
  have hlate : (m.fault (.execute (.insertAgentMetrics row)) e).late.filter counts =
      m.late.filter counts := by
    cases hk : m.events.any Event.kills <;> simp [Summary.fault, hk, List.filter_append, counts]
  refine ⟨h.1, ?_⟩
  rw [LateOnce, hlate]
  exact h.2

/-- One fault since `agent.invoke.killed`: the status update that follows it. -/
def Slipped (t : String) (m : Summary) : Prop :=
  Killed t m.events m.checkpoints ∧ ∃ f, m.late = [f] ∧ counts f = true

/-- A second fault keeps the except clause from publishing. -/
theorem Slipped.fault (h : Slipped t m) (hop : counts ⟨op, e⟩ = true) : Balanced t (m.fault op e) := by
  obtain ⟨hkilled, f, hlate, hf⟩ := h
  have hlate' : (m.fault op e).late.filter counts = [f, ⟨op, e⟩] := by
    rw [hkilled.late_fault, hlate]
    simp [hf, hop]
  refine ⟨hkilled.truthful, fun _ => ?_, fun _ => hkilled.ordered⟩
  rw [LateOnce, hlate']
  simp

/-- No second fault, and a second terminal event. -/
theorem Slipped.publish {event : Event} (h : Slipped t m) (hevent : reports event = none) :
    Balanced t { m with events := m.events ++ [event] } := by
  obtain ⟨hkilled, f, hlate, hcounts⟩ := h
  refine ⟨hkilled.truthful.snoc hevent, fun horder => ?_, fun hnot => ?_⟩
  · refine absurd ?_ horder
    rw [phaseOf_snoc, hkilled.order]
    cases event.type <;> rfl
  · refine absurd ?_ hnot
    rw [LateOnce, hlate]
    simp [hcounts]

end Summaries

/-- Between two iterations every checkpoint has been reported. -/
def Head (t : String) (m : Summary) : Prop :=
  Stands t .idle m.events m.checkpoints m.late ∧
    m.events.filterMap reports = m.checkpoints.map reported

/-- The try body failed: in the middle of the order, or after `agent.invoke.killed`. -/
def Failed (t : String) (m : Summary) : Prop :=
  (∃ phase, (phase = .idle ∨ phase = .stepping) ∧ Stands t phase m.events m.checkpoints m.late) ∨
    Slipped t m

theorem Failed.idle {t : String} {m : Summary} {op : Op} {e : Exc}
    (h : Stands t .idle m.events m.checkpoints m.late) : Failed t (m.fault op e) :=
  .inl ⟨_, .inl rfl, h.fault⟩

theorem Failed.stepping {t : String} {m : Summary} {op : Op} {e : Exc}
    (h : Stands t .stepping m.events m.checkpoints m.late) : Failed t (m.fault op e) :=
  .inl ⟨_, .inr rfl, h.fault⟩

/-- The try body ended. -/
def Exited (t : String) (outcome : Outcome) (m : Summary) : Prop :=
  Truthful t m.events m.checkpoints ∧ Ordered m.events ∧ m.late = [] ∧
    (outcome = .ok → Stands t .idle m.events m.checkpoints m.late)

theorem Exited.balanced {outcome : Outcome} {m : Summary} (h : Exited t outcome m) : Balanced t m := by
  obtain ⟨htruthful, hordered, hlate, _⟩ := h
  exact ⟨htruthful, fun _ => not_lateOnce hlate, fun _ => hordered⟩

theorem Head.exited {outcome : Outcome} {m : Summary} (h : Head t m) : Exited t outcome m :=
  ⟨h.1.truthful, h.1.ordered, h.1.late, fun _ => h.1⟩

def anyAnswer (_ : Summary) (_ : Answered) : Prop := True

variable {sup : Supervisor} {req : Request} {d : Draws}

abbrev inOrder (req : Request) (d : Draws) : Contract Op Op.Resp Exc Summary :=
  monitor anyAnswer (InOrder (Supervisor.tid req d))

theorem counts_of_onThread {op : Op} {e : Exc} (h : onThread op = true) : counts ⟨op, e⟩ = true := by
  cases op with
  | execute st => cases st <;> first | rfl | cases h
  | _ => rfl

/-- A call of the status update that follows `agent.invoke.killed` raised. -/
theorem Killed.slipped {t : String} {m : Summary} {op : Op} {e : Exc}
    (h : Killed t m.events m.checkpoints) (hlate : m.late = []) (hop : onThread op = true) :
    Slipped t (m.fault op e) := by
  refine ⟨⟨h.order, h.truthful, h.killed⟩, ⟨op, e⟩, ?_, counts_of_onThread hop⟩
  rw [h.late_fault, hlate]
  rfl

theorem wp_iteration (i : Nat) (state : Dict) (parent : Option String) (m : Summary)
    (h : Head (Supervisor.tid req d) m) :
    (inOrder req d).wp (sup.iteration req d i state parent)
      (ends (fun next => match next with
        | .stop outcome _ => Exited (Supervisor.tid req d) outcome
        | .again _ _ => Head (Supervisor.tid req d)) fun _ => Failed (Supervisor.tid req d)) m := by
  obtain ⟨hstands, hreported⟩ := h
  have hkilled : Killed (Supervisor.tid req d) (m.killed req d i).events m.checkpoints :=
    hstands.kill rfl
  have hstep : Stands (Supervisor.tid req d) .stepping (m.started req d i state).events
      m.checkpoints m.late := hstands.snoc rfl rfl rfl
  have hput (next : Dict) (text : JsonObject) : Stands (Supervisor.tid req d) .stepping
      (m.started req d i state).events (m.stored req d i state parent next text).checkpoints m.late :=
    hstep.put rfl
  refine Monitor.wp_iteration i state parent (fun _ _ ha => ?_) (fun _ _ _ _ ha _ => ?_)
    ⟨hkilled.truthful, hkilled.ordered, hstands.late, fun hok => by cases hok⟩
    (fun next text _ _ _ _ => ?_)
  · cases ha with
    | flag | kill | start => exact hstands.inOrder
    | status => exact hkilled.inOrder
    | step | dumps | insert => exact hstep.inOrder
    | finish next text => exact (hput next text).inOrder
  · cases ha with
    | flag | kill | start => exact .idle hstands
    | status hop => exact .inr (hkilled.slipped hstands.late hop)
    | step | dumps | insert => exact .stepping hstep
    | finish next text => exact .stepping (hput next text)
  · have hstarted : (m.started req d i state).events.filterMap reports =
        m.checkpoints.map reported := by
      simp [Summary.started, Summary.published, Summary.looked, reports, hreported]
    have hended : Head (Supervisor.tid req d) (m.ended req d i state parent next text) :=
      (hput next text).report rfl rfl hstarted
    split
    · exact hended.exited
    · exact hended

theorem wp_handler (e : Exc) (m : Summary) (h : Failed (Supervisor.tid req d) m) :
    (inOrder req d).wp (sup.handler req d e).2
      (fun m _ => Balanced (Supervisor.tid req d) m) m := by
  rcases h with ⟨phase, hphase, hstands⟩ | hslipped
  · have hend (event : Event) (he : event.type = .invokeCancelled ∨ event.type = .invokeError) :
        Stands (Supervisor.tid req d) .over (m.events ++ [event]) m.checkpoints m.late := by
      refine hstands.snoc ?_ ?_ ?_
      · rcases hphase with rfl | rfl <;> rcases he with he | he <;> rw [he] <;> rfl
      · rcases he with he | he <;> simp [Event.kills, he]
      · rcases he with he | he <;> simp [reports, he]
    cases e <;>
      exact wp_announce hstands.inOrder hstands.inOrder (hend _ (by simp)).balanced
        (fun _ _ _ _ _ => hstands.fault.balanced) (fun _ _ _ _ _ _ => hstands.fault.balanced)
  · cases e <;>
      exact wp_announce hslipped.1.inOrder hslipped.1.inOrder (hslipped.publish rfl)
        (fun _ _ _ hop _ => hslipped.fault (counts_of_onThread hop))
        (fun _ _ _ _ _ _ => hslipped.fault rfl)

def outline (sup : Supervisor) (req : Request) (d : Draws) :
    Invocation.Outline (inOrder req d) sup req d (· = Summary.audit {})
      (fun m _ => Balanced (Supervisor.tid req d) m) where
  started m := Head (Supervisor.tid req d) m
  head _ _ _ _ m := Head (Supervisor.tid req d) m
  exit outcome _ m := Exited (Supervisor.tid req d) outcome m
  failed _ m := Failed (Supervisor.tid req d) m
  handled _ _ m := Balanced (Supervisor.tid req d) m
  closing outcome _ m := Exited (Supervisor.tid req d) outcome m
  opens m hm := by
    subst hm
    have hfresh : Stands (Supervisor.tid req d) .fresh [] [] [] :=
      ⟨rfl, ⟨nofun, List.prefix_refl _⟩, rfl, rfl⟩
    exact wp_announce hfresh.inOrder hfresh.inOrder ⟨hfresh.snoc rfl rfl rfl, rfl⟩
      (fun _ _ _ _ _ => hfresh.fault.balanced) (fun _ _ _ _ _ _ => hfresh.fault.balanced)
  resumes m hm := wp_getLatest _ hm.1.inOrder (fun _ _ _ => hm) (fun _ _ _ _ _ => .idle hm.1)
  iterates _ i state parent m hm := wp_iteration i state parent m hm
  exhausted _ _ _ _ hm := hm.exited
  handles e m hm := by
    refine wp_mono _ _ m ?_ (wp_handler e m hm)
    intro m r h
    cases r <;> exact h
  rethrows _ _ _ hm := wp_finallyBlock _ hm.inOrder hm (fun _ _ _ => hm.metric)
  records _ _ _ hm := wp_finallyBlock _ hm.balanced.inOrder hm
    (fun _ _ _ => hm.balanced.metric)
  concludes outcome _ m hm := by
    unfold Supervisor.conclude
    split
    · rename_i hok
      have hstands := hm.2.2.2 hok
      exact wp_announce hstands.inOrder hstands.inOrder (hstands.snoc rfl rfl rfl).balanced
        (fun _ _ _ _ _ => hstands.fault.balanced) (fun _ _ _ _ _ _ => hstands.fault.balanced)
    · exact hm.balanced

variable {ι : Type} [DecidableEq ι]

/-- In every run in which a raising publish publishes nothing: at any moment
the reported checkpoints are, in order, stored checkpoints of the thread, and
the events under the request id keep to the order, with one verdict at most,
unless exactly one call raised between `agent.invoke.killed` and the metric
insert; once the invocation has ended, they keep to it exactly then. -/
theorem ordered_iff_not_late_once (ops : ι → Operation) (w₀ : World) (s : Stack ι)
    (h : Reach Anyhow (start ops w₀) s) (i : ι) (sup : Supervisor) (req : Request) (d : Draws)
    (hi : ops i = .invoke sup req d) (hr : OnlyRequest ops i d.requestId)
    (h₀ : w₀.published.filter (·.carries d.requestId) = [])
    (hsilent : ∀ e ∈ s.traceOf i, ∀ channel event, e.op = .publish channel event →
      e.failed = true → e.landed = false) :
    let events := s.world.published.filter (·.carries d.requestId)
    List.Sublist (events.filterMap reports)
      ((s.world.checkpoints (Supervisor.tid req d)).map reported) ∧
    (¬ LateOnce (summaryOf s i) →
      Ordered events ∧ (events.filter fun event => isTerminal event.type).length ≤ 1) ∧
    (outcomeOf s i ≠ none → (Ordered events ↔ ¬ LateOnce (summaryOf s i))) := by
  have hfresh : Stands (Supervisor.tid req d) .fresh [] [] [] :=
    ⟨rfl, ⟨nofun, List.prefix_refl _⟩, rfl, rfl⟩
  have hmon := monitored h hi (outline sup req d) (Stands.inOrder hfresh)
    (fun _ _ _ => Stands.balanced (Stands.fault hfresh)) (relied_of_forall _ fun _ _ _ => trivial)
  have hkept : InOrder (Supervisor.tid req d) (summaryOf s i) ∧
      (outcomeOf s i ≠ none → Balanced (Supervisor.tid req d) (summaryOf s i)) := by
    split at hmon
    · exact ⟨hmon.inOrder, fun _ => hmon⟩
    · exact hmon.elim
    · exact ⟨hmon.inOrder, fun _ => hmon⟩
    · rename_i hrunning
      exact ⟨hmon, fun hne => absurd hrunning hne⟩
  obtain ⟨hin, hended⟩ := hkept
  have hevents : s.world.published.filter (·.carries d.requestId) = (summaryOf s i).events := by
    refine events_of_request h hr h₀ fun e he channel event hop => ?_
    cases hf : e.failed with
    | true => simpa [Exactly, hf] using hsilent e he channel event hop hf
    | false => exact exactly_of_ok h he hf
  intro events
  rw [show events = (summaryOf s i).events from hevents]
  refine ⟨?_, fun hlate => ⟨hin.2 hlate, (hin.2 hlate).one_verdict⟩, fun hne => (hended hne).2⟩
  refine hin.1.prefixed.sublist.trans (List.Sublist.map _ ?_)
  exact checkpoints_stored h hin.1.thread

/-- The event of the first step raises, and the request is in error only. -/
theorem ordered_iff_not_late_once_single :
    ∃ s, Reach Anyhow (start (single 8) World.empty) s ∧
      Ordered (s.world.published.filter (·.carries "r")) := by
  obtain ⟨s, h, hsilent, hlate⟩ := Pool.Reach.exists_of_exec
    interp Anyhow (start (single 8) World.empty)
    (P := fun s => (∀ e ∈ s.traceOf 0, e.landed = !e.failed) ∧ ¬ LateOnce (summaryOf s 0))
    (List.replicate 7 (0, calm) ++ [(0, down)] ++ List.replicate 4 (0, calm)) (by decide)
  refine ⟨s, h, (ordered_iff_not_late_once (single 8) World.empty s h 0 _ _ _ rfl (by decide) rfl
    fun e he _ _ _ hf => ?_).2.1 hlate |>.1⟩
  rw [hsilent e he, hf, Bool.not_true]

/-- An invocation, and a kill of its thread. -/
def withKill : Fin 2 → Operation
  | 0 => single 8 0
  | 1 => .requestKill .sqlite "t" "now"

/-- The status update after `agent.invoke.killed` raises, and the request is
reported killed and in error. -/
theorem killed_and_error :
    ∃ s, Reach Anyhow (start withKill World.empty) s ∧
      (∀ e ∈ s.traceOf 0, e.landed = !e.failed) ∧
      (s.world.published.filter (·.carries "r")).map (·.type) =
        [.invokeStart, .invokeKilled, .invokeError] ∧
      ¬ Ordered (s.world.published.filter (·.carries "r")) := by
  obtain ⟨s, h, hsilent, hevents⟩ := Pool.Reach.exists_of_exec
    interp Anyhow (start withKill World.empty)
    (P := fun s => (∀ e ∈ s.traceOf 0, e.landed = !e.failed) ∧
      (s.world.published.filter (·.carries "r")).map (·.type) =
        [.invokeStart, .invokeKilled, .invokeError])
    (List.replicate 3 (1, calm) ++ List.replicate 8 (0, calm) ++ [(0, down)] ++
      List.replicate 4 (0, calm)) (by decide)
  refine ⟨s, h, hsilent, hevents, ?_⟩
  rw [Ordered, phaseOf, ← List.foldlM_map, hevents]
  decide

end NoblePort.Verdict
