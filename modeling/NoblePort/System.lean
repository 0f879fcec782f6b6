import NoblePort.Runtime

/-!
# The running system

Any number of `invoke`, `request_kill` and `set_thread_status` calls share the
store and the bus, each suspended at its awaits.
-/
namespace NoblePort.System

open Coroutine NoblePort.Values NoblePort.Store NoblePort.ThreadState NoblePort.Records
open NoblePort.Runtime

inductive Operation where
  | invoke (sup : Supervisor) (req : Request) (d : Draws)
  | requestKill (db : Dialect) (threadId now : String)
  | setThreadStatus (db : Dialect) (threadId status : String) (lastEvent : Option String)
      (now : String)

inductive Reply where
  | invoked (result : InvokeResult)
  | killed (reply : KillReply)
  | done

def Operation.program : Operation → Async Reply
  | .invoke sup req d => do
    let result ← sup.invoke req d
    return .invoked result
  | .requestKill db threadId now => do
    let reply ← ThreadState.requestKill db threadId now
    return .killed reply
  | .setThreadStatus db threadId status lastEvent now => do
    ThreadState.setThreadStatus db threadId status lastEvent now
    return .done

abbrev Stack (ι : Type) := Pool ι Op Op.Resp Exc Reply World

variable {ι : Type} [DecidableEq ι]

def start (ops : ι → Operation) (w : World) : Stack ι := ⟨w, fun i => (ops i).program, []⟩

abbrev Reach (cond : Stack ι → ι → Choice → Prop) (s₀ s : Stack ι) : Prop :=
  Pool.Reach interp cond s₀ s

/-- Answer a call at once and without a fault. -/
def alone (op : Op) (w : World) : Except Exc op.Resp × World :=
  ((interp.entry {} w op).result, interp.settle w (interp.entry {} w op))

/-- Run a call to its end with nothing in between. -/
def call {α : Type} (p : Async α) (w : World) : Except Exc α × World := p.run alone w

theorem call_getLatest (t : String) (w : World) :
    call (PostgresCheckpointer.getLatest t) w =
      (.ok ((w.checkpoints t).getLast?.map CheckpointTuple.ofRow), w) := by
  have hrow : alone (.fetch (.latestCheckpoint t)) w = (.ok (w.checkpoints t).getLast?, w) := rfl
  unfold call PostgresCheckpointer.getLatest
  rw [Prog.run_bind, Prog.run_call, hrow]
  cases (w.checkpoints t).getLast? <;> rfl

theorem call_listAll (t : String) (w : World) :
    call (PostgresCheckpointer.listAll t) w = (.ok ((w.checkpoints t).map CheckpointTuple.ofRow), w) :=
  rfl

/-- Any step, failing or not. -/
def Anyhow (_ : Stack ι) (_ : ι) (_ : Choice) : Prop := True

instance (s : Stack ι) (i : ι) (c : Choice) : Decidable (Anyhow s i c) := .isTrue trivial

/-- How the call ended, if it has. -/
def outcomeOf (s : Stack ι) (i : ι) : Option (Except Exc Reply) :=
  match s.task i with
  | .ret r => some (.ok r)
  | .raise e => some (.error e)
  | .await _ _ => none

omit [DecidableEq ι] in
theorem awaits_of_outcomeOf {s : Stack ι} {i : ι} (h : outcomeOf s i = none) :
    (s.task i).awaits ≠ none := by
  unfold outcomeOf at h
  cases ht : s.task i with
  | ret r => simp [ht] at h
  | raise e => simp [ht] at h
  | await op k => nofun

omit [DecidableEq ι] in
theorem outcomeOf_of_awaits {s : Stack ι} {i : ι} {op : Op} (h : (s.task i).awaits = some op) :
    outcomeOf s i = none := by
  unfold outcomeOf
  cases ht : s.task i with
  | await op' k => rfl
  | ret r => rw [ht] at h; cases h
  | raise e => rw [ht] at h; cases h

omit [DecidableEq ι] in
/-- What a contract promises for the end of a call. -/
theorem wp_outcome {σ : Type} {C : Contract Op Op.Resp Exc σ} {Q : σ → Except Exc Reply → Prop}
    {s : Stack ι} {i : ι} {o : σ} {r : Except Exc Reply} (hwp : C.wp (s.task i) Q o)
    (hr : outcomeOf s i = some r) : Q o r := by
  unfold outcomeOf at hr
  cases ht : s.task i with
  | ret reply => rw [ht] at hwp hr; cases hr; exact hwp
  | raise e => rw [ht] at hwp hr; cases hr; exact hwp
  | await op k => rw [ht] at hr; cases hr

def returned (s : Stack ι) (i : ι) : Bool :=
  match s.task i with
  | .ret _ => true
  | _ => false

/-- The call is an invocation that returned with the outcome. -/
def returnedAs (s : Stack ι) (i : ι) (outcome : Outcome) : Bool :=
  match s.task i with
  | .ret (.invoked res) => res.outcome == outcome
  | _ => false

omit [DecidableEq ι] in
theorem outcomeOf_of_returnedAs {s : Stack ι} {i : ι} {outcome : Outcome}
    (h : returnedAs s i outcome = true) :
    ∃ res, outcomeOf s i = some (.ok (.invoked res)) ∧ res.outcome = outcome := by
  unfold returnedAs at h
  unfold outcomeOf
  split at h
  · rename_i res ht
    exact ⟨res, by rw [ht], by simpa using h⟩
  · cases h

def raised (s : Stack ι) (i : ι) : Bool :=
  match s.task i with
  | .raise _ => true
  | _ => false

omit [DecidableEq ι] in
theorem outcomeOf_of_raised {s : Stack ι} {i : ι} (h : raised s i = true) :
    ∃ e, outcomeOf s i = some (.error e) := by
  unfold raised at h
  unfold outcomeOf
  split at h
  · rename_i e ht
    exact ⟨e, by rw [ht]⟩
  · cases h

/-- The step does not fail. -/
def Succeeds (s : Stack ι) (i : ι) (c : Choice) : Prop :=
  (s.task i).awaits.all fun op => !(interp.entry c s.world op).failed

instance (s : Stack ι) (i : ι) (c : Choice) : Decidable (Succeeds s i c) :=
  inferInstanceAs (Decidable (_ = true))

/-- One invocation alone. -/
def single (maxSteps : Int) : Fin 1 → Operation := fun _ =>
  .invoke ⟨.sqlite, "agent.events", maxSteps⟩ ⟨some "t", "hi", []⟩
    ⟨"t", "r", fun _ => "c", "m", fun _ => "now", .nan⟩

/-- No fault, and a step function that copies its state. -/
def calm : Choice := {}

/-- The tasks take their next awaits in this order, and nothing fails. -/
def turns {ι : Type} (order : List ι) : List (ι × Choice) := order.map fun i => (i, calm)

/-- The call raises and has no effect. -/
def down : Choice := { fault := some (.exception (.other "ConnectionError") "down", false) }

/-- No fault, and the step function is `f`. -/
def Steps (f : Dict → Dict) (c : Choice) : Prop := c.fault = none ∧ c.step = fun state => .ok (f state)

theorem stepped {f : Dict → Dict} {cond : Stack ι → ι → Choice → Prop} {s₀ s : Stack ι}
    (h : Reach (fun s i c => cond s i c ∧ Steps f c) s₀ s) (h₀ : s₀.log = []) :
    ∀ x ∈ s.log, ∀ state r landed, x.2 = ⟨.stepFn state, r, landed⟩ → r = .ok (f state) := by
  refine h.log_forall (P := fun e => ∀ state r landed, e = ⟨.stepFn state, r, landed⟩ →
    r = .ok (f state)) ?_ (by simp [h₀])
  rintro s i c ⟨_, hfault, hstep⟩ op state r landed heq
  have hop : op = .stepFn state := congrArg Entry.op heq
  subst hop
  simp only [Interp.entry, interp, World.answer, Choice.strike, hfault, hstep, Entry.mk.injEq,
    heq_eq_eq, true_and] at heq
  exact heq.1.symm

end NoblePort.System
