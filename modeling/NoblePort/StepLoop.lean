import Mathlib.Logic.Function.Iterate
import NoblePort.Completion
import NoblePort.RoundTrip

/-!
# The step loop against its specification

The for/else loop checks the kill flag before a step and the completion flag
after it. Iterating the step function says which of the three exits it takes,
with which state, and what it has stored by then; a state that `json.dumps`
refuses ends the invocation with the exception.
-/
namespace NoblePort.StepLoop

open Coroutine Coroutine.Contract NoblePort.Values NoblePort.Store NoblePort.ThreadState
open NoblePort.Records NoblePort.Runtime NoblePort.System NoblePort.Monitor NoblePort.Requests
open NoblePort.Completion (completed Read read_snoc resumed)
open NoblePort.RoundTrip (Distinct eq eq_decode plain)

section Bounded

variable (sup : Supervisor) (req : Request) (d : Draws)

theorem bounded_setStatus (status event : String) : (sup.setStatus req d status event).Bounded 2 := by
  unfold Supervisor.setStatus setThreadStatus
  rw [upsert_eq]
  exact Prog.Bounded.bind (a := 1) (b := 1) (.call _) fun _ => .call _

theorem bounded_announce (status event : String) (type : EventType) (i : Nat) (payload : Dict) :
    (sup.setStatus req d status event >>= fun _ => sup.publish req d type i payload).Bounded 3 :=
  (bounded_setStatus sup req d status event).bind fun _ => .call _

theorem bounded_audit : (sup.audit req d).Bounded 2 := by
  refine ((Prog.Bounded.call _).tryExcept (b := 0) fun e => ?_).bind fun _ =>
    ((Prog.Bounded.call _).tryExcept (b := 0) fun e => ?_).bind (b := 0) fun _ => .pure _
  · split <;> exact .raise _
  · cases e <;> exact .raise _

theorem bounded_iteration (i : Nat) (state : Dict) (parent : Option String) :
    (sup.iteration req d i state parent).Bounded 6 := by
  have hkilled : (isKillRequested (Supervisor.tid req d)).Bounded 1 :=
    (Prog.Bounded.call _).bind (b := 0) fun row => by cases row <;> exact .pure _
  refine (hkilled.bind (b := 5) fun killed => ?_)
  split
  · exact ((Prog.Bounded.call _).bind fun _ => (bounded_setStatus sup req d _ _).bind (b := 0)
      fun _ => .pure _).mono (by omega)
  · refine (Prog.Bounded.call _).bind (b := 4) fun _ => (Prog.Bounded.call _).bind (b := 3) fun next => ?_
    have hput : (PostgresCheckpointer.put sup.db (Supervisor.tid req d) next parent none
        (d.checkpointId i)).Bounded 2 :=
      (Prog.Bounded.call _).bind (b := 1) fun _ => (Prog.Bounded.call _).bind (b := 0) fun _ => .pure _
    refine hput.bind (b := 1) fun cp => (Prog.Bounded.call _).bind (b := 0) fun _ => ?_
    split <;> exact .pure _

theorem bounded_loop (n i : Nat) (state : Dict) (parent : Option String) :
    (sup.loop req d n i state parent).Bounded (6 * n) := by
  induction n generalizing i state parent with
  | zero => exact .pure _
  | succ n ih =>
    rw [show 6 * (n + 1) = 6 + 6 * n by omega]
    refine (bounded_iteration sup req d i state parent).bind fun next => ?_
    cases next with
    | stop outcome resultState => exact .pure _
    | again state parent => exact ih (i + 1) state (some parent)

/-- The most calls an invocation makes. -/
def mostCalls : Nat := 6 * sup.maxSteps.toNat + 13

theorem bounded_invoke : (sup.invoke req d).Bounded (mostCalls sup) := by
  have hlatest : (PostgresCheckpointer.getLatest (Supervisor.tid req d)).Bounded 1 :=
    (Prog.Bounded.call _).bind (b := 0) fun row => by cases row <;> exact .pure _
  have hbody : (sup.body req d).Bounded (1 + 6 * sup.maxSteps.toNat) :=
    hlatest.bind fun _ => bounded_loop sup req d _ _ _ _
  have hhandler (e : Exc) : (sup.handler req d e).2.Bounded 3 := by
    cases e <;> exact bounded_announce ..
  have hfin (outcome : Outcome) : (Supervisor.finallyBlock req d outcome).Bounded 1 :=
    ((Prog.Bounded.call _).bind (b := 0) fun _ => .pure _).bind (b := 0) fun _ => .pure _
  have hconclude (outcome : Outcome) (resultState : Dict) :
      (sup.conclude req d outcome resultState).Bounded 3 := by
    unfold Supervisor.conclude
    split
    · exact bounded_announce ..
    · exact .pure _
  have hproceed : (sup.proceed req d).Bounded (3 + (1 + 6 * sup.maxSteps.toNat + (3 + 1) + 3)) :=
    (bounded_announce ..).bind fun _ => (hbody.tryFinally hhandler hfin).bind fun r =>
      (hconclude r.1 r.2).bind (b := 0) fun _ => .pure _
  exact ((bounded_audit sup req d).bind fun _ => hproceed).mono (by unfold mostCalls; omega)

end Bounded

section Specification

variable (f : Dict → Dict) (kill : Nat → Bool) (s₀ : Dict) (n : Nat)

/-- The loop leaves in iteration `i`, by one check or the other. -/
def Stops (i : Nat) : Prop := kill i = true ∨ completed (f^[i + 1] s₀) = true

/-- How a loop of at most `n` iterations from state `s₀` ends: the outcome, the
state, and how often the step function is called. -/
inductive Ends : Outcome → Dict → Nat → Prop
  | exhausted : (∀ i < n, ¬ Stops f kill s₀ i) → Ends .maxStepsExceeded (f^[n] s₀) n
  | killed (j : Nat) : j < n → (∀ i < j, ¬ Stops f kill s₀ i) → kill j = true →
      Ends .killed (f^[j] s₀) j
  | completed (j : Nat) : j < n → (∀ i < j, ¬ Stops f kill s₀ i) → kill j = false →
      completed (f^[j + 1] s₀) = true → Ends .ok (f^[j + 1] s₀) (j + 1)

/-- In iteration `j` of a loop that has gone on till then, `enc` refuses the new state. -/
structure Refuses (enc : Dict → Except Exc JsonObject) (e : Exc) (j : Nat) : Prop where
  within : j < n
  onward : ∀ i < j, ¬ Stops f kill s₀ i
  unkilled : kill j = false
  refused : enc (f^[j + 1] s₀) = .error e

/-- The states that so many calls of the step function produce. -/
def produces (calls : Nat) : List Dict := (List.range calls).map fun k => f^[k + 1] s₀

theorem produces_succ (calls : Nat) :
    produces f s₀ (calls + 1) = produces f s₀ calls ++ [f^[calls + 1] s₀] := by
  simp [produces, List.range_succ]

variable {f kill s₀ n}

theorem getLast?_produces {calls : Nat} (h : produces f s₀ calls ≠ []) :
    (produces f s₀ calls).getLast? = some (f^[calls] s₀) := by
  cases calls with
  | zero => exact absurd rfl h
  | succ k => rw [produces_succ, List.getLast?_concat]

theorem Ends.state_eq {outcome : Outcome} {state : Dict} {calls : Nat}
    (h : Ends f kill s₀ n outcome state calls) : state = f^[calls] s₀ := by
  cases h <;> rfl

end Specification

/-- `json.dumps` gives `enc`, and nothing else raises: the step function is `f`,
and `row` is the latest checkpoint found. -/
def Answers (f : Dict → Dict) (enc : Dict → Except Exc JsonObject) (row : Option CheckpointRow) :
    Answered → Prop
  | ⟨.stepFn state, r, _⟩ => r = .ok (f state)
  | ⟨.jsonDumps fields, r, _⟩ => r = enc fields
  | ⟨.fetch (.latestCheckpoint _), r, _⟩ => r = .ok row
  | e => e.failed = false

/-- Only `json.dumps` raises. -/
theorem Answers.raised {f : Dict → Dict} {enc : Dict → Except Exc JsonObject}
    {row : Option CheckpointRow} {op : Op} {e : Exc} {landed : Bool}
    (h : Answers f enc row ⟨op, .error e, landed⟩) : ∃ fields, op = .jsonDumps fields := by
  cases op with
  | jsonDumps fields => exact ⟨fields, rfl⟩
  | fetch q => cases q <;> cases h
  | _ => cases h

theorem Answers.not_onThread {f : Dict → Dict} {enc : Dict → Except Exc JsonObject}
    {row : Option CheckpointRow} {op : Op} {e : Exc} {landed : Bool}
    (h : Answers f enc row ⟨op, .error e, landed⟩) : onThread op = false := by
  obtain ⟨fields, rfl⟩ := h.raised
  rfl

/-- What `json.dumps` returns is what the model makes of the dict. -/
def Encodes : Answered → Prop
  | ⟨.jsonDumps fields, .ok text, _⟩ => dumps fields = .ok text
  | _ => True

/-- The rows store the states as `enc` writes them. -/
def Stores (enc : Dict → Except Exc JsonObject) (rows : List CheckpointRow) (states : List Dict) : Prop :=
  rows.map (fun row => (.ok row.state : Except Exc JsonObject)) = states.map enc

theorem Stores.append {enc : Dict → Except Exc JsonObject} {rows : List CheckpointRow}
    {states : List Dict} (h : Stores enc rows states) (row : CheckpointRow) {state : Dict}
    (htext : enc state = .ok row.state) : Stores enc (rows ++ [row]) (states ++ [state]) := by
  rw [Stores, List.map_append, List.map_append, h, List.map_singleton, List.map_singleton, htext]

section Invoked

variable (f : Dict → Dict) (enc : Dict → Except Exc JsonObject) (row : Option CheckpointRow)
  (sup : Supervisor) (req : Request) (d : Draws)

/-- The rows of `m` are on the thread and store the states. -/
structure Filed (states : List Dict) (m : Summary) : Prop where
  stored : Stores enc m.checkpoints states
  texts : Stores dumps m.checkpoints states
  named : ∀ cp ∈ m.checkpoints, cp.threadId = Supervisor.tid req d

/-- After `i` iterations that all went on. -/
structure Head (n i : Nat) (state : Dict) (m : Summary) : Prop where
  left : i + n = sup.maxSteps.toNat
  reads : m.killReads.length = i
  state_eq : state = f^[i] (resumed req d row)
  produced : m.produced = produces f (resumed req d row) i
  filed : Filed enc req d m.produced m
  onward : ∀ kill, Read kill m.killReads → ∀ k < i, ¬ Stops f kill (resumed req d row) k

/-- The loop is over, as specified for the flags it read. -/
structure Over (outcome : Outcome) (state : Dict) (m : Summary) : Prop where
  ends : ∀ kill, Read kill m.killReads →
    Ends f kill (resumed req d row) sup.maxSteps.toNat outcome state m.produced.length
  produced : m.produced = produces f (resumed req d row) m.produced.length
  filed : Filed enc req d m.produced m

/-- The loop was left in iteration `j`, whose state could not be stored. -/
structure LeftAt (e : Exc) (j : Nat) (m : Summary) : Prop where
  refuses : ∀ kill, Read kill m.killReads →
    Refuses f kill (resumed req d row) sup.maxSteps.toNat enc e j
  produced : m.produced = produces f (resumed req d row) (j + 1)
  filed : Filed enc req d (produces f (resumed req d row) j) m

abbrev Left (e : Exc) (m : Summary) : Prop := ∃ j, LeftAt f enc row sup req d e j m

variable {f enc row sup req d}

abbrev answering (f : Dict → Dict) (enc : Dict → Except Exc JsonObject) (row : Option CheckpointRow) :
    Contract Op Op.Resp Exc Summary :=
  monitor (fun _ e => Answers f enc row e ∧ Encodes e) fun _ => True

/-- What one more step and its put make of `m`. -/
structure Stepped (f : Dict → Dict) (enc : Dict → Except Exc JsonObject) (req : Request) (d : Draws)
    (state : Dict) (m m' : Summary) : Prop where
  reads : m'.killReads = m.killReads ++ [false]
  produced : m'.produced = m.produced ++ [f state]
  filed : Filed enc req d m'.produced m'

/-- One more checkpoint. -/
theorem Filed.append {states : List Dict} {m m' : Summary} (h : Filed enc req d states m)
    {state : Dict} {text : JsonObject} {cid : String} {parent : Option String}
    (hcheckpoints : m'.checkpoints = m.checkpoints ++ [⟨Supervisor.tid req d, cid, parent, text⟩])
    (henc : enc state = .ok text) (htext : dumps state = .ok text) :
    Filed enc req d (states ++ [state]) m' := by
  refine ⟨?_, ?_, ?_⟩
  · rw [hcheckpoints]
    exact h.stored.append _ henc
  · rw [hcheckpoints]
    exact h.texts.append _ htext
  · rw [hcheckpoints]
    exact List.forall_mem_append.mpr ⟨h.named, List.forall_mem_singleton.mpr rfl⟩

theorem Filed.congr {states : List Dict} {m m' : Summary} (h : Filed enc req d states m)
    (hcheckpoints : m'.checkpoints = m.checkpoints) : Filed enc req d states m' := by
  constructor <;> rw [hcheckpoints]
  · exact h.stored
  · exact h.texts
  · exact h.named

namespace Head

variable {n i : Nat} {state : Dict} {m m' : Summary}

theorem count (h : Head f enc row sup req d n i state m) : m.produced.length = i := by
  simp [h.produced, produces]

/-- The check of this iteration stops the loop. -/
theorem killed (h : Head f enc row sup req d (n + 1) i state m)
    (hreads : m'.killReads = m.killReads ++ [true]) (hproduced : m'.produced = m.produced)
    (hcheckpoints : m'.checkpoints = m.checkpoints) : Over f enc row sup req d .killed state m' := by
  have hleft := h.left
  constructor
  · intro kill hread
    rw [hreads] at hread
    obtain ⟨hread, hkill⟩ := read_snoc.mp hread
    rw [h.reads] at hkill
    rw [hproduced, h.count, h.state_eq]
    exact .killed i (by omega) (h.onward kill hread) hkill
  · rw [hproduced, h.count]
    exact h.produced
  · rw [hproduced]
    exact h.filed.congr hcheckpoints

theorem next (h : Head f enc row sup req d n i state m) : f state = f^[i + 1] (resumed req d row) := by
  rw [Function.iterate_succ_apply', ← h.state_eq]

/-- The states produced when this iteration has taken its step. -/
theorem produces_next (h : Head f enc row sup req d n i state m)
    (hproduced : m'.produced = m.produced ++ [f state]) :
    m'.produced = produces f (resumed req d row) (i + 1) := by
  rw [hproduced, produces_succ, ← h.produced, h.next]

/-- The flags read when the check of this iteration has let it go on. -/
theorem onward_next (h : Head f enc row sup req d n i state m)
    (hreads : m'.killReads = m.killReads ++ [false]) {kill : Nat → Bool} (hread : Read kill m'.killReads) :
    (∀ k < i, ¬ Stops f kill (resumed req d row) k) ∧ kill i = false := by
  rw [hreads] at hread
  obtain ⟨hread, hkill⟩ := read_snoc.mp hread
  rw [h.reads] at hkill
  exact ⟨h.onward kill hread, hkill⟩

/-- `json.dumps` refuses the state of this iteration. -/
theorem refused (h : Head f enc row sup req d (n + 1) i state m) {e : Exc}
    (hreads : m'.killReads = m.killReads ++ [false]) (hproduced : m'.produced = m.produced ++ [f state])
    (hcheckpoints : m'.checkpoints = m.checkpoints) (henc : enc (f state) = .error e) :
    LeftAt f enc row sup req d e i m' := by
  have hleft := h.left
  refine ⟨fun kill hread => ?_, h.produces_next hproduced, ?_⟩
  · obtain ⟨honward, hkill⟩ := h.onward_next hreads hread
    exact ⟨by omega, honward, hkill, h.next ▸ henc⟩
  · rw [← h.produced]
    exact h.filed.congr hcheckpoints

/-- The state of this iteration ends the loop. -/
theorem completed (h : Head f enc row sup req d (n + 1) i state m) (hs : Stepped f enc req d state m m')
    (hdone : Completion.completed (f state) = true) : Over f enc row sup req d .ok (f state) m' := by
  have hleft := h.left
  have hproduces := h.produces_next hs.produced
  have hcount : m'.produced.length = i + 1 := by simp [hproduces, produces]
  refine ⟨fun kill hread => ?_, hcount ▸ hproduces, hs.filed⟩
  obtain ⟨honward, hkill⟩ := h.onward_next hs.reads hread
  rw [hcount, h.next]
  exact .completed i (by omega) honward hkill (h.next ▸ hdone)

theorem again (h : Head f enc row sup req d (n + 1) i state m) (hs : Stepped f enc req d state m m')
    (hopen : ¬ Completion.completed (f state) = true) :
    Head f enc row sup req d n (i + 1) (f state) m' := by
  have hleft := h.left
  refine ⟨by omega, by simp [hs.reads, h.reads], h.next, h.produces_next hs.produced, hs.filed, ?_⟩
  intro kill hread k hk
  obtain ⟨honward, hkill⟩ := h.onward_next hs.reads hread
  rcases Nat.lt_succ_iff_lt_or_eq.mp hk with hk | rfl
  · exact honward k hk
  · rintro (hkilled | hcompleted)
    · rw [hkilled] at hkill
      cases hkill
    · rw [← h.next] at hcompleted
      exact hopen hcompleted

end Head

theorem wp_iteration (n i : Nat) (state : Dict) (parent : Option String) (m : Summary)
    (h : Head f enc row sup req d (n + 1) i state m) :
    (answering f enc row).wp (sup.iteration req d i state parent)
      (ends (fun next => match next with
        | .stop outcome state => Over f enc row sup req d outcome state
        | .again state _ => Head f enc row sup req d n (i + 1) state) (Left f enc row sup req d)) m := by
  refine Monitor.wp_iteration i state parent (fun _ _ _ => trivial) (fun m' op e landed ha hr => ?_)
    (h.killed rfl rfl rfl) (fun next text _ _ hnext htext => ?_)
  · cases ha with
    | dumps next hnext =>
      obtain ⟨_, hnext⟩ := hnext
      cases hnext.1
      exact ⟨i, h.refused rfl rfl rfl hr.1.symm⟩
    | status hop => cases hop.symm.trans hr.1.not_onThread
    | _ => cases hr.1
  · cases hnext.1
    have hfiled : Filed enc req d (m.produced ++ [f state]) (m.ended req d i state parent (f state) text) :=
      h.filed.append rfl htext.1.symm htext.2
    split
    · rename_i hcompleted
      exact h.completed ⟨rfl, rfl, hfiled⟩ hcompleted
    · rename_i hopen
      exact h.again ⟨rfl, rfl, hfiled⟩ hopen

/-- The loop is over as specified, or was left by a state that could not be stored. -/
def Returns (f : Dict → Dict) (enc : Dict → Except Exc JsonObject) (row : Option CheckpointRow)
    (sup : Supervisor) (req : Request) (d : Draws) (m : Summary) : Except Exc InvokeResult → Prop
  | .ok res => Over f enc row sup req d res.outcome res.state m
  | .error e => Left f enc row sup req d e m

theorem Over.congr {outcome : Outcome} {state : Dict} {m m' : Summary}
    (h : Over f enc row sup req d outcome state m) (hreads : m'.killReads = m.killReads)
    (hproduced : m'.produced = m.produced) (hcheckpoints : m'.checkpoints = m.checkpoints) :
    Over f enc row sup req d outcome state m' := by
  refine ⟨?_, ?_, ?_⟩
  · rw [hreads, hproduced]
    exact h.ends
  · rw [hproduced]
    exact h.produced
  · rw [hproduced]
    exact h.filed.congr hcheckpoints

theorem Left.congr {e : Exc} {m m' : Summary} (h : Left f enc row sup req d e m)
    (hreads : m'.killReads = m.killReads) (hproduced : m'.produced = m.produced)
    (hcheckpoints : m'.checkpoints = m.checkpoints) : Left f enc row sup req d e m' := by
  obtain ⟨j, hrefuses, hproduces, hfiled⟩ := h
  exact ⟨j, by rw [hreads]; exact hrefuses, hproduced.trans hproduces, hfiled.congr hcheckpoints⟩

def outline (f : Dict → Dict) (enc : Dict → Except Exc JsonObject) (row : Option CheckpointRow)
    (sup : Supervisor) (req : Request) (d : Draws) :
    Invocation.Outline (answering f enc row) sup req d (· = Summary.audit {})
      (Returns f enc row sup req d) where
  started m := m.killReads = [] ∧ m.produced = [] ∧ m.checkpoints = []
  head n i state _ m := Head f enc row sup req d n i state m
  exit outcome state m := Over f enc row sup req d outcome state m
  failed := Left f enc row sup req d
  handled _ := Left f enc row sup req d
  closing outcome state m := Over f enc row sup req d outcome state m
  opens m hm := by
    subst hm
    exact wp_announce trivial trivial ⟨rfl, rfl, rfl⟩ (fun _ _ _ hop h => by cases hop.symm.trans h.1.not_onThread)
      (fun _ _ _ _ _ h => by cases h.1)
  resumes m hm := by
    obtain ⟨hreads, hproduced, hcheckpoints⟩ := hm
    refine wp_getLatest _ trivial (fun row' _ h => ?_) (fun _ _ _ hop h => by
      subst hop
      cases h.1)
    cases h.1
    refine ⟨Nat.zero_add _, by rw [hreads]; rfl, rfl, hproduced, ?_,
      fun _ _ k hk => absurd hk (Nat.not_lt_zero k)⟩
    rw [hproduced]
    constructor <;> simp [hcheckpoints, Stores]
  iterates n i state parent m hm := wp_iteration n i state parent m hm
  exhausted i state _ m hm := by
    have hi : i = sup.maxSteps.toNat := hm.left
    refine ⟨fun kill hread => ?_, by rw [hm.count]; exact hm.produced, hm.filed⟩
    rw [hm.count, hm.state_eq, hi]
    exact .exhausted fun k hk => hm.onward kill hread k (by omega)
  handles e m hm := by
    cases e <;> exact wp_announce trivial trivial (hm.congr rfl rfl rfl)
      (fun _ _ _ hop h => by cases hop.symm.trans h.1.not_onThread) (fun _ _ _ _ _ h => by cases h.1)
  rethrows _ _ _ hm := wp_finallyBlock _ trivial (hm.congr rfl rfl rfl) (fun _ _ h => by cases h.1)
  records _ _ _ hm := wp_finallyBlock _ trivial (hm.congr rfl rfl rfl) (fun _ _ h => by cases h.1)
  concludes outcome state m hm := by
    unfold Supervisor.conclude
    split
    · exact wp_announce trivial trivial (hm.congr rfl rfl rfl)
        (fun _ _ _ hop h => by cases hop.symm.trans h.1.not_onThread) (fun _ _ _ _ _ h => by cases h.1)
    · exact hm

theorem wp_answered (f : Dict → Dict) (row : Option CheckpointRow) (sup : Supervisor) (req : Request)
    (d : Draws) {text : JsonObject} (haudit : enc (Supervisor.auditPayload req d) = .ok text) :
    (answering f enc row).wp (sup.invoke req d) (Returns f enc row sup req d) {} := by
  refine wp_invoke (outline f enc row sup req d) trivial fun op e _ hcall h => ?_
  cases hcall with
  | dumps =>
    have herror := h.1.trans haudit
    cases herror
  | insert jsonb r => cases h.1

end Invoked

variable {ι : Type} [DecidableEq ι]

theorem encodes_logged {cond : Stack ι → ι → Choice → Prop} {s₀ s : Stack ι}
    (h : Reach cond s₀ s) (h₀ : s₀.log = []) : ∀ x ∈ s.log, Encodes x.2 := by
  refine h.log_forall (fun s _ c _ op => ?_) (by simp [h₀])
  unfold Encodes
  split
  · rename_i heq
    exact dumps_of_entry heq
  · trivial

/-- Under these answers an invocation is within so many calls, or it has
returned with the loop over or raised what left the loop. -/
theorem over_of_answers {ops : ι → Operation} {w₀ : World} {s : Stack ι}
    (h : Reach Anyhow (start ops w₀) s) {i : ι} {sup : Supervisor} {req : Request} {d : Draws}
    (hi : ops i = .invoke sup req d) {f : Dict → Dict} {enc : Dict → Except Exc JsonObject}
    {row : Option CheckpointRow} {text : JsonObject}
    (haudit : enc (Supervisor.auditPayload req d) = .ok text)
    (hanswers : ∀ e ∈ s.traceOf i, Answers f enc row e) :
    (outcomeOf s i = none → (s.traceOf i).length < mostCalls sup) ∧
      ∀ r, outcomeOf s i = some r →
        (∃ res, r = .ok (.invoked res) ∧ Over f enc row sup req d res.outcome res.state (summaryOf s i)) ∨
        ∃ e, r = .error e ∧ Left f enc row sup req d e (summaryOf s i) := by
  constructor
  · intro hnone
    refine h.trace_lt rfl ?_ (awaits_of_outcomeOf hnone)
    simp only [start, hi]
    exact (bounded_invoke sup req d).bind (b := 0) fun _ => .pure _
  · intro r hr
    have hstands := stands h hi (wp_answered f row sup req d haudit)
      (relied_of_forall _ fun e he _ => ⟨hanswers e he, encodes_logged h rfl _ (Pool.mem_traceOf.mp he)⟩)
    rw [hr] at hstands
    cases r with
    | error e => exact .inr ⟨e, rfl, hstands⟩
    | ok reply => cases reply with
      | invoked res => exact .inl ⟨res, rfl, hstands⟩
      | _ => exact hstands.elim

/-- The row has the JSON text of the state, and what is read back from the text
equals the state just when that is plain. -/
structure Records (row : CheckpointRow) (state : Dict) : Prop where
  text : dumps state = .ok row.state
  readBack : Distinct (.dict state) →
    eq (.dict state) (.dict (CheckpointTuple.ofRow row).state) = plain (.dict state)

theorem records_of_text {row : CheckpointRow} {state : Dict} (h : dumps state = .ok row.state) :
    Records row state := by
  refine ⟨h, fun hdistinct => eq_decode (.dict state) (.obj row.state) hdistinct ?_⟩
  change (dumps state).map Json.obj = _
  rw [h]
  rfl

theorem Stores.records {rows : List CheckpointRow} {states : List Dict} (h : Stores dumps rows states) :
    List.Forall₂ Records rows states := by
  rw [Stores, ← List.forall₂_eq_eq_eq, List.forall₂_map_left_iff, List.forall₂_map_right_iff] at h
  exact h.imp fun _ _ htext => records_of_text htext.symm

/-- The checkpoints of the trace are on thread `t` and record the states in
order, one for each, as `enc` writes them. -/
structure Appends (enc : Dict → Except Exc JsonObject) (t : String) (states : List Dict)
    (tr : List Answered) : Prop where
  stored : Stores enc (tr.flatMap storedBy) states
  records : List.Forall₂ Records (tr.flatMap storedBy) states
  named : ∀ row ∈ tr.flatMap storedBy, row.threadId = t

theorem getLast?_records {rows : List CheckpointRow} {states : List Dict}
    (h : List.Forall₂ Records rows states) {state : Dict} (hlast : states.getLast? = some state) :
    ∃ row, rows.getLast? = some row ∧ Records row state := by
  induction h with
  | nil => cases hlast
  | cons hrecords hrest ih =>
    cases hrest with
    | nil =>
      cases hlast
      exact ⟨_, rfl, hrecords⟩
    | cons hnext hrest => exact ih hlast

/-- What the invocation made of the specification: the outcome, the state and
the calls of the step function are the specified ones, each produced state was
put on the thread in order, and the last of them is the one returned. -/
structure Meets (f : Dict → Dict) (enc : Dict → Except Exc JsonObject) (kill : Nat → Bool) (s₀ : Dict)
    (n : Nat) (t : String) (res : InvokeResult) (tr : List Answered) : Prop where
  ends : Ends f kill s₀ n res.outcome res.state (tr.flatMap producedBy).length
  produced : tr.flatMap producedBy = produces f s₀ (tr.flatMap producedBy).length
  appends : Appends enc t (tr.flatMap producedBy) tr
  last : tr.flatMap producedBy ≠ [] →
    ∃ row, (tr.flatMap storedBy).getLast? = some row ∧ Records row res.state

/-- The invocation raised `e` after `j + 1` calls of the step function, the last
of which gave a state without a text, and the `j` states before it were put. -/
structure Raises (f : Dict → Dict) (enc : Dict → Except Exc JsonObject) (kill : Nat → Bool) (s₀ : Dict)
    (n : Nat) (t : String) (e : Exc) (j : Nat) (tr : List Answered) : Prop where
  refuses : Refuses f kill s₀ n enc e j
  produced : tr.flatMap producedBy = produces f s₀ (j + 1)
  appends : Appends enc t (produces f s₀ j) tr

/-- What the answered calls stored is what the summary has. -/
theorem stored_of_answers {ops : ι → Operation} {w₀ : World} {s : Stack ι}
    (h : Reach Anyhow (start ops w₀) s) {i : ι} {f : Dict → Dict} {enc : Dict → Except Exc JsonObject}
    {row : Option CheckpointRow} (hanswers : ∀ e ∈ s.traceOf i, Answers f enc row e) :
    (summaryOf s i).checkpoints = (s.traceOf i).flatMap storedBy := by
  refine foldl_note (fun e he m => ?_) {}
  cases hfailed : e.failed with
  | false => exact note_stored (exactly_of_ok h he hfailed) m
  | true =>
    obtain ⟨op, result, landed⟩ := e
    cases result with
    | ok r => cases hfailed
    | error exc =>
      obtain ⟨fields, rfl⟩ := (hanswers _ he).raised
      exact (List.append_nil _).symm

theorem Filed.appends {enc : Dict → Except Exc JsonObject} {req : Request} {d : Draws}
    {states : List Dict} {m : Summary} {tr : List Answered} (h : Filed enc req d states m)
    (hstored : m.checkpoints = tr.flatMap storedBy) : Appends enc (Supervisor.tid req d) states tr := by
  obtain ⟨hstores, htexts, hnamed⟩ := h
  rw [hstored] at hstores htexts hnamed
  exact ⟨hstores, htexts.records, hnamed⟩

/-- In every run in which nothing that an invocation awaits raises, `json.dumps`
apart, and its step function is a function `f`: it makes no more than so many
calls, and when it is over it has returned as specified for `f`, the state it
resumed and the kill flags it read, or raised what `json.dumps` did at the first
state that has no text. -/
theorem step_loop_meets_specification (ops : ι → Operation) (w₀ : World) (s : Stack ι)
    (h : Reach Anyhow (start ops w₀) s) (i : ι) (sup : Supervisor) (req : Request) (d : Draws)
    (hi : ops i = .invoke sup req d) (f : Dict → Dict) (enc : Dict → Except Exc JsonObject)
    (row : Option CheckpointRow) (kill : Nat → Bool) (text : JsonObject)
    (haudit : enc (Supervisor.auditPayload req d) = .ok text)
    (hanswers : ∀ e ∈ s.traceOf i, Answers f enc row e)
    (hread : Read kill (summaryOf s i).killReads) :
    match outcomeOf s i with
    | none => (s.traceOf i).length < mostCalls sup
    | some (.ok (.invoked res)) => Meets f enc kill (resumed req d row) sup.maxSteps.toNat
        (Supervisor.tid req d) res (s.traceOf i)
    | some (.error e) => ∃ j, Raises f enc kill (resumed req d row) sup.maxSteps.toNat
        (Supervisor.tid req d) e j (s.traceOf i)
    | some _ => False := by
  obtain ⟨hrunning, hended⟩ := over_of_answers h hi haudit hanswers
  have hproduced : (summaryOf s i).produced = (s.traceOf i).flatMap producedBy := produced_eq _
  have hstored := stored_of_answers h hanswers
  split
  · rename_i hnone
    exact hrunning hnone
  · rename_i res hres
    rcases hended _ hres with ⟨_, heq, hends, hcalls, hfiled⟩ | ⟨_, heq, _⟩
    · cases heq
      rw [hproduced] at hends hcalls hfiled
      have happends := hfiled.appends hstored
      refine ⟨hends kill hread, hcalls, happends, fun hne => getLast?_records happends.records ?_⟩
      rw [(hends kill hread).state_eq]
      rw [hcalls] at hne
      conv_lhs => rw [hcalls]
      exact getLast?_produces hne
    · cases heq
  · rename_i e hres
    rcases hended _ hres with ⟨_, heq, _⟩ | ⟨_, heq, j, hrefuses, hcalls, hfiled⟩
    · cases heq
    · cases heq
      rw [hproduced] at hcalls
      exact ⟨j, hrefuses kill hread, hcalls, hfiled.appends hstored⟩
  · rename_i r hother hraised hr
    rcases hended _ hr with ⟨res, heq, _⟩ | ⟨e, heq, _⟩
    · exact hother res heq
    · exact hraised e heq

/-- The call found no checkpoint if it looked for one, and did not fail unless
`json.dumps` did. -/
def smooth : Answered → Bool
  | ⟨.jsonDumps _, _, _⟩ => true
  | ⟨.fetch (.latestCheckpoint _), .ok none, _⟩ => true
  | ⟨.fetch (.latestCheckpoint _), _, _⟩ => false
  | e => !e.failed

theorem answers_of_smooth {f : Dict → Dict} {s : Stack ι} {ops : ι → Operation} {w₀ : World}
    (h : Reach (fun s i c => Anyhow s i c ∧ Steps f c) (start ops w₀) s) {i : ι}
    (hsmooth : ∀ e ∈ s.traceOf i, smooth e = true) : ∀ e ∈ s.traceOf i, Answers f dumps none e := by
  intro e he
  have hlogged := Pool.mem_traceOf.mp he
  have hdumped : ∀ x ∈ s.log, ∀ fields r landed, x.2 = ⟨.jsonDumps fields, r, landed⟩ →
      r = dumps fields := by
    refine h.log_forall (P := fun e => ∀ fields r landed, e = ⟨.jsonDumps fields, r, landed⟩ →
      r = dumps fields) ?_ (by simp [start])
    rintro s i c ⟨_, hfault, _⟩ op fields r landed heq
    have hop : op = .jsonDumps fields := congrArg Entry.op heq
    subst hop
    simp only [Interp.entry, interp, World.answer, hfault, Entry.mk.injEq, heq_eq_eq, true_and] at heq
    exact heq.1.symm
  have hgood := hsmooth e he
  obtain ⟨op, result, landed⟩ := e
  cases op with
  | stepFn state => exact stepped h rfl _ hlogged _ _ _ rfl
  | jsonDumps fields => exact hdumped _ hlogged _ _ _ rfl
  | fetch q =>
    cases q with
    | latestCheckpoint t =>
      cases result with
      | error e => cases hgood
      | ok row =>
        cases row with
        | none => rfl
        | some row => cases hgood
    | _ => exact (Bool.not_eq_true' _).mp hgood
  | _ => exact (Bool.not_eq_true' _).mp hgood

/-- A step function that copies its state, and one iteration. -/
theorem step_loop_meets_specification_one :
    ∃ s res, Reach Anyhow (start (single 1) World.empty) s ∧
      outcomeOf s 0 = some (.ok (.invoked res)) ∧ res.outcome = .maxStepsExceeded ∧
      ∃ s₀, Meets id dumps (fun _ => false) s₀ 1 "t" res (s.traceOf 0) := by
  obtain ⟨s, h, hdone, hsmooth, hreads⟩ := Pool.Reach.exists_of_exec_good
    interp Anyhow (start (single 1) World.empty) (Steps id)
    (P := fun s => returnedAs s 0 .maxStepsExceeded = true ∧
      (∀ e ∈ s.traceOf 0, smooth e = true) ∧ (summaryOf s 0).killReads = [false])
    (List.replicate 13 (0, calm)) (fun p hp => by rw [(List.mem_replicate.mp hp).2]; exact ⟨rfl, rfl⟩)
    (by decide)
  obtain ⟨res, hres, houtcome⟩ := outcomeOf_of_returnedAs hdone
  have hreach : Reach Anyhow (start (single 1) World.empty) s := h.mono fun _ _ _ _ => trivial
  have hmeets := step_loop_meets_specification (single 1) World.empty s hreach 0 _ _ _ rfl id dumps none
    (fun _ => false) _ rfl (answers_of_smooth h hsmooth)
    (hreads ▸ read_snoc.mpr ⟨show Read _ [] by simp [Read], rfl⟩)
  rw [hres] at hmeets
  exact ⟨s, res, hreach, hres, houtcome, _, hmeets⟩

section Lossy

/-- A step function that puts a tuple in the state. -/
def windowed (state : Dict) : Dict := Dict.set state "window" (.tuple [.int 1, .int 2])

/-- A step function that puts the state in itself. -/
def knotted (state : Dict) : Dict := Dict.set state "self" .cycle

/-- The state that the invocation returned is not the one its latest checkpoint gives back. -/
def unlike {ι : Type} (s : Stack ι) (i : ι) : Bool :=
  match s.task i, (s.world.checkpoints "t").getLast? with
  | .ret (.invoked res), some row => !eq (.dict res.state) (.dict (CheckpointTuple.ofRow row).state)
  | _, _ => false

theorem exists_of_unlike {ι : Type} {s : Stack ι} {i : ι} (h : unlike s i = true) :
    ∃ res row, outcomeOf s i = some (.ok (.invoked res)) ∧
      (s.world.checkpoints "t").getLast? = some row ∧
      eq (.dict res.state) (.dict (CheckpointTuple.ofRow row).state) = false := by
  unfold unlike at h
  split at h
  · rename_i res row htask hrow
    exact ⟨res, row, by rw [outcomeOf, htask], hrow, by simpa using h⟩
  · cases h

/-- With no fault, a state with a tuple is returned that no checkpoint gives
back, and a state that holds itself ends in an exception. -/
theorem lossy_states :
    (∃ s res row, Reach Anyhow (start (single 1) World.empty) s ∧
      (∀ e ∈ s.traceOf 0, Answers windowed dumps none e) ∧
      outcomeOf s 0 = some (.ok (.invoked res)) ∧ (s.world.checkpoints "t").getLast? = some row ∧
      eq (.dict res.state) (.dict (CheckpointTuple.ofRow row).state) = false) ∧
    ∃ s e, Reach Anyhow (start (single 1) World.empty) s ∧
      (∀ e ∈ s.traceOf 0, Answers knotted dumps none e) ∧ outcomeOf s 0 = some (.error e) := by
  have hgood (f : Dict → Dict) (n : Nat) : ∀ p ∈ List.replicate n
      ((0 : Fin 1), { step := fun state => .ok (f state) : Choice }), Steps f p.2 := by
    intro p hp
    rw [(List.mem_replicate.mp hp).2]
    exact ⟨rfl, rfl⟩
  constructor
  · obtain ⟨s, h, hunlike, hsmooth⟩ := Pool.Reach.exists_of_exec_good
      interp Anyhow (start (single 1) World.empty) (Steps windowed)
      (P := fun s => unlike s 0 = true ∧ ∀ e ∈ s.traceOf 0, smooth e = true)
      _ (hgood windowed 13) (by decide)
    obtain ⟨res, row, hres, hrow, hne⟩ := exists_of_unlike hunlike
    exact ⟨s, res, row, h.mono fun _ _ _ _ => trivial, answers_of_smooth h hsmooth, hres, hrow, hne⟩
  · obtain ⟨s, h, hraised, hsmooth⟩ := Pool.Reach.exists_of_exec_good
      interp Anyhow (start (single 1) World.empty) (Steps knotted)
      (P := fun s => raised s 0 = true ∧ ∀ e ∈ s.traceOf 0, smooth e = true)
      _ (hgood knotted 14) (by decide)
    obtain ⟨e, he⟩ := outcomeOf_of_raised hraised
    exact ⟨s, e, h.mono fun _ _ _ _ => trivial, answers_of_smooth h hsmooth, he⟩

end Lossy

end NoblePort.StepLoop
