import NoblePort.Requests

/-!
# The latency row of a request

The finally block records the outcome it knows of. It covers the function from
`try` to the end of the except clauses, so the row is there and truthful unless
a publish outside that range raises.
-/
namespace NoblePort.Latency

open Coroutine Coroutine.Contract NoblePort.Values NoblePort.Store NoblePort.Runtime
open NoblePort.System NoblePort.Monitor NoblePort.Requests

/-- The two publishes that stand outside the try statement. -/
def outside : Op → Bool
  | .publish _ event => event.type = .invokeStart || event.type = .invokeEnd
  | _ => false

/-- Neither of them raised. -/
def Spared (m : Summary) : Prop := ∀ f ∈ m.faults, outside f.op = false

theorem spared_fault {m : Summary} {op : Op} {e : Exc} :
    Spared (m.fault op e) ↔ Spared m ∧ outside op = false := by
  simp only [Spared, Summary.fault, List.mem_append, List.mem_singleton]
  constructor
  · intro h
    exact ⟨fun f hf => h f (.inl hf), h ⟨op, e⟩ (.inr rfl)⟩
  · rintro ⟨h, hop⟩ f (hf | rfl)
    · exact h f hf
    · exact hop

/-- Database calls succeed; what else raises, raises an `Exception`. -/
def databaseOk (e : Answered) : Bool :=
  match e.op, e.result with
  | .fetch _, .error _ => false
  | .execute _, .error _ => false
  | _, .error exc => !exc.isCancelled
  | _, .ok _ => true

/-- What the row of a call that ended so has to say. -/
def verdict : Except Exc InvokeResult → String
  | .ok res => res.outcome.text
  | .error _ => "error"

def OneRow (rows : List MetricRow) (outcome : String) : Prop :=
  ∃ row, rows = [row] ∧ row.outcome = outcome

/-- An audited call has one truthful row exactly if it was spared. -/
def RowIfSpared (m : Summary) (r : Except Exc InvokeResult) : Prop :=
  m.audited = true → (OneRow m.metrics (verdict r) ↔ Spared m)

/-- Nothing is recorded yet. -/
def Pending (m : Summary) : Prop := m.metrics = [] ∧ Spared m

/-- The row of `outcome` is recorded. -/
def Recorded (outcome : Outcome) (m : Summary) : Prop := OneRow m.metrics outcome.text ∧ Spared m

/-- The rely condition of this module. -/
abbrev reliesOn (_ : Summary) (e : Answered) : Prop := databaseOk e = true

theorem thread_ok {m : Summary} {op : Op} {e : Exc} {landed : Bool} (hop : onThread op = true) :
    ¬ reliesOn m ⟨op, .error e, landed⟩ := by
  cases op with
  | fetch q => exact Bool.false_ne_true
  | execute st => exact Bool.false_ne_true
  | _ => cases hop

theorem Recorded.truthful (outcome : Outcome) {m : Summary} {r : Except Exc InvokeResult}
    (h : Recorded outcome m) (hr : verdict r = outcome.text) : RowIfSpared m r := by
  intro _
  rw [hr]
  exact ⟨fun _ => h.2, fun _ => h.1⟩

variable {sup : Supervisor} {req : Request} {d : Draws}

theorem wp_iteration (i : Nat) (state : Dict) (parent : Option String) (m : Summary)
    (h : Pending m) :
    (monitor reliesOn fun _ => True).wp (sup.iteration req d i state parent)
      (ends (fun next => match next with
        | .stop _ _ => Pending
        | .again _ _ => Pending) fun e m => Pending m ∧ e.isCancelled = false) m := by
  obtain ⟨hnone, hspared⟩ := h
  have hfault {m : Summary} {op : Op} {e : Exc} (hnone : m.metrics = []) (hspared : Spared m)
      (hop : outside op = false) (he : (!e.isCancelled) = true) :
      Pending (m.fault op e) ∧ e.isCancelled = false :=
    ⟨⟨hnone, spared_fault.mpr ⟨hspared, hop⟩⟩, by simpa using he⟩
  refine Monitor.wp_iteration i state parent (fun _ _ _ => trivial) (fun _ _ _ _ ha hr => ?_)
    ⟨hnone, hspared⟩ (fun _ _ _ _ _ _ => ?_)
  · cases ha with
    | flag | insert => cases hr
    | status hop => exact (thread_ok hop hr).elim
    | kill he | start he | finish _ _ he => exact hfault hnone hspared (by simp [outside, he]) hr
    | step | dumps => exact hfault hnone hspared rfl hr
  · split <;> exact ⟨hnone, hspared⟩

def outline (sup : Supervisor) (req : Request) (d : Draws) :
    Invocation.Outline (monitor reliesOn fun _ => True) sup req d (· = Summary.audit {})
      RowIfSpared where
  started := Pending
  head _ _ _ _ := Pending
  exit _ _ := Pending
  failed e m := Pending m ∧ e.isCancelled = false
  handled outcome _ m := Pending m ∧ outcome = .error
  closing outcome _ := Recorded outcome
  opens m hm := by
    subst hm
    refine wp_announce trivial trivial ⟨rfl, fun f hf => by cases hf⟩
      (fun _ _ _ hop he => (thread_ok hop he).elim) (fun _ event _ _ htype _ _ => ?_)
    -- the start event raised: no row, and a fault outside the try statement
    constructor
    · rintro ⟨row, hrow, _⟩
      have hnone : ([] : List MetricRow) = [row] := hrow
      cases hnone
    · intro h
      have hinside := (spared_fault.mp h).2
      simp [outside, htype] at hinside
  resumes m hm := wp_getLatest _ trivial (fun _ _ _ => hm) (by rintro _ _ _ rfl h; cases h)
  iterates _ i state parent m hm := wp_iteration i state parent m hm
  exhausted _ _ _ _ hm := hm
  handles e m hm := by
    obtain ⟨⟨hnone, hspared⟩, he⟩ := hm
    cases e with
    | cancelled => cases he
    | exception cls str =>
      refine wp_announce trivial trivial ⟨⟨hnone, hspared⟩, rfl⟩
        (fun _ _ _ hop he => (thread_ok hop he).elim) (fun channel event _ _ htype _ => ?_)
      have hinside : outside (.publish channel event) = false := by simp [outside, htype]
      exact ⟨⟨hnone, spared_fault.mpr ⟨hspared, hinside⟩⟩, rfl⟩
  rethrows outcome e m hm := by
    obtain ⟨⟨hnone, hspared⟩, rfl⟩ := hm
    refine wp_finallyBlock _ trivial ?_ (fun _ _ h => by cases h)
    exact Recorded.truthful .error ⟨⟨_, by rw [hnone]; rfl, rfl⟩, hspared⟩ rfl
  records outcome resultState m hm :=
    wp_finallyBlock _ trivial ⟨⟨_, by rw [hm.1]; rfl, rfl⟩, hm.2⟩ (fun _ _ h => by cases h)
  concludes outcome resultState m hm := by
    unfold Supervisor.conclude
    split
    · rename_i hok
      subst hok
      refine wp_announce trivial trivial (Recorded.truthful .ok hm rfl)
        (fun _ _ _ hop he => (thread_ok hop he).elim) (fun _ event _ _ htype _ _ => ?_)
      -- the end event raised: the row says ok, and the call raises
      obtain ⟨⟨row, hrow, hrowOk⟩, _⟩ := hm
      constructor
      · rintro ⟨row', hrow', hrowError⟩
        have hsame : m.metrics = [row'] := hrow'
        rw [hrow] at hsame
        cases hsame
        rw [hrowOk] at hrowError
        have htext : "ok" = "error" := hrowError
        exact absurd htext (by decide)
      · intro h
        have hinside := (spared_fault.mp h).2
        simp [outside, htype] at hinside
    · exact Recorded.truthful _ hm rfl

variable {ι : Type} [DecidableEq ι]

/-- In every run in which the database answers the invocation and whatever else
it awaits raises at most an `Exception`: once the audited invocation has ended,
there is one row under its request id with the outcome it ended with, exactly
if neither the start event nor the end event raised. -/
theorem one_row_iff_spared (ops : ι → Operation) (w₀ : World) (s : Stack ι)
    (h : Reach Anyhow (start ops w₀) s) (i : ι) (sup : Supervisor) (req : Request) (d : Draws)
    (hi : ops i = .invoke sup req d) (hr : OnlyRequest ops i d.requestId)
    (h₀ : w₀.agentMetrics.filter (·.eventId == some d.requestId) = [])
    (hdb : ∀ e ∈ s.traceOf i, databaseOk e = true) (haudited : (summaryOf s i).audited = true)
    (r : Except Exc InvokeResult) (hend : outcomeOf s i = some (r.map .invoked)) :
    OneRow (s.world.agentMetrics.filter (·.eventId == some d.requestId)) (verdict r) ↔
      Spared (summaryOf s i) := by
  have hmon := monitored h hi (outline sup req d) trivial (fun _ _ _ h => by cases h)
    (relied_of_forall _ fun e he _ => hdb e he)
  rw [rows_of_request h hr h₀ fun e he row hop => ?_]
  · cases r with
    | ok res =>
      rw [hend] at hmon
      exact hmon haudited
    | error e =>
      rw [hend] at hmon
      exact hmon haudited
  · have hok : e.failed = false := by
      obtain ⟨op, result, landed⟩ := e
      cases hop
      cases result with
      | ok _ => rfl
      | error exc => cases hdb _ he
    exact exactly_of_ok h he hok

instance (m : Summary) : Decidable (Spared m) := inferInstanceAs (Decidable (∀ _ ∈ _, _))

/-- The event of the first step raises, and the row says so. -/
theorem one_row_iff_spared_one :
    ∃ s, Reach Anyhow (start (single 8) World.empty) s ∧
      OneRow (s.world.agentMetrics.filter (·.eventId == some "r")) "error" := by
  obtain ⟨s, h, hraised, hdb, haudited, hspared⟩ := Pool.Reach.exists_of_exec
    interp Anyhow (start (single 8) World.empty)
    (P := fun s => raised s 0 = true ∧ (∀ e ∈ s.traceOf 0, databaseOk e = true) ∧
      (summaryOf s 0).audited = true ∧ Spared (summaryOf s 0))
    (List.replicate 7 (0, calm) ++ [(0, down)] ++ List.replicate 4 (0, calm)) (by decide)
  obtain ⟨e, he⟩ := outcomeOf_of_raised hraised
  exact ⟨s, h, (one_row_iff_spared (single 8) World.empty s h 0 _ _ _ rfl (by decide) rfl hdb haudited
    (.error e) he).mpr hspared⟩

/-- The start event raises: no row. -/
theorem no_row :
    ∃ s e, Reach Anyhow (start (single 8) World.empty) s ∧ (∀ e ∈ s.traceOf 0, databaseOk e = true) ∧
      (summaryOf s 0).audited = true ∧ outcomeOf s 0 = some (.error e) ∧
      ¬ OneRow (s.world.agentMetrics.filter (·.eventId == some "r")) "error" := by
  obtain ⟨s, h, hraised, hdb, haudited, hrows⟩ := Pool.Reach.exists_of_exec
    interp Anyhow (start (single 8) World.empty)
    (P := fun s => raised s 0 = true ∧ (∀ e ∈ s.traceOf 0, databaseOk e = true) ∧
      (summaryOf s 0).audited = true ∧ s.world.agentMetrics = [])
    (List.replicate 4 (0, calm) ++ [(0, down)]) (by decide)
  obtain ⟨e, he⟩ := outcomeOf_of_raised hraised
  refine ⟨s, e, h, hdb, haudited, he, ?_⟩
  rintro ⟨row, hrow, _⟩
  simp [hrows] at hrow

end NoblePort.Latency
