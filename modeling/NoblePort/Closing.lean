import NoblePort.Requests

/-!
# Closing an invocation

Without faults an invocation that returns has closed itself, with one terminal
event and a terminal status, exactly when it was killed or completed. The third
exit of the step loop, running out of steps, closes nothing.
-/
namespace NoblePort.Closing

open Coroutine Coroutine.Contract NoblePort.Values NoblePort.Store NoblePort.Runtime
open NoblePort.System NoblePort.Monitor NoblePort.Requests

/-- The terminal event and the status that agree with an outcome. No event
names `max_steps_exceeded`, so there any terminal ones would do. -/
def agrees : Outcome → EventType → String → Prop
  | .ok, type, status => type = .invokeEnd ∧ status = "completed"
  | .killed, type, status => type = .invokeKilled ∧ status = "killed"
  | .cancelled, type, status => type = .invokeCancelled ∧ status = "cancelled"
  | .error, type, status => type = .invokeError ∧ status = "error"
  | .maxStepsExceeded, _, status => status ≠ "running"

/-- The events end in their only terminal one, and it and the status agree
with the outcome. -/
def Closed (outcome : Outcome) (events : List Event) (status : Option String) : Prop :=
  ∃ before last st, events = before ++ [last] ∧ isTerminal last.type = true ∧
    (∀ e ∈ before, isTerminal e.type = false) ∧ status = some st ∧ agrees outcome last.type st

/-- Some kill check read a true flag, or the step function produced a completed state. -/
def Decided (m : Summary) : Prop :=
  true ∈ m.killReads ∨ ∃ state ∈ m.produced, Dict.truthyAt state "completed" = true

def Unfinished (events : List Event) : Prop := ∀ e ∈ events, isTerminal e.type = false

theorem Unfinished.snoc {events : List Event} {event : Event} (h : Unfinished events)
    (he : isTerminal event.type = false) : Unfinished (events ++ [event]) := by
  intro e hmem
  rcases List.mem_append.mp hmem with hmem | hmem
  · exact h e hmem
  · rw [List.mem_singleton.mp hmem]
    exact he

theorem not_closed {outcome : Outcome} {events : List Event} {status : Option String}
    (h : Unfinished events) : ¬ Closed outcome events status := by
  rintro ⟨before, last, _, rfl, hlast, _⟩
  rw [h last (by simp)] at hlast
  cases hlast

/-- Running: nothing terminal has happened and nothing has decided the end. -/
def Open (m : Summary) : Prop := Unfinished m.events ∧ ¬ Decided m

/-- Where the body of the try statement ends. -/
def Exited (outcome : Outcome) (m : Summary) : Prop :=
  match outcome with
  | .ok => Unfinished m.events ∧ Decided m
  | .killed => Closed .killed m.events m.status ∧ Decided m
  | .maxStepsExceeded => Open m
  | .cancelled | .error => False

def faultless (_ : Summary) (e : Answered) : Prop := e.failed = false

variable {sup : Supervisor} {req : Request} {d : Draws}

theorem wp_iteration (i : Nat) (state : Dict) (parent : Option String) (m : Summary) (h : Open m) :
    (monitor faultless fun _ => True).wp (sup.iteration req d i state parent)
      (ends (fun next => match next with
        | .stop outcome _ => Exited outcome
        | .again _ _ => Open) fun _ _ => False) m := by
  obtain ⟨hevents, hopen⟩ := h
  refine Monitor.wp_iteration i state parent (fun _ _ _ => trivial)
    (fun _ _ _ _ _ hr => by cases hr) ?_ (fun next _ _ _ _ _ => ?_)
  · exact ⟨⟨m.events, _, "killed", rfl, rfl, hevents, rfl, rfl, rfl⟩,
      .inl (List.mem_append_right m.killReads (List.mem_singleton_self true))⟩
  · have hunfinished (a b : Event) (ha : a.type = .stepStart) (hb : b.type = .stepEnd) :
        Unfinished (m.events ++ [a] ++ [b]) := (hevents.snoc (by rw [ha]; rfl)).snoc (by rw [hb]; rfl)
    split
    · rename_i hcompleted
      have hnext : next ∈ m.produced ++ [next] := by simp
      exact ⟨hunfinished _ _ rfl rfl, .inr ⟨next, hnext, hcompleted⟩⟩
    · rename_i hcompleted
      refine ⟨hunfinished _ _ rfl rfl, ?_⟩
      rintro (hkill | ⟨x, hx, hdone⟩)
      · rcases List.mem_append.mp (show true ∈ m.killReads ++ [false] from hkill) with hkill | hkill
        · exact hopen (.inl hkill)
        · cases List.mem_singleton.mp hkill
      · rcases List.mem_append.mp (show x ∈ m.produced ++ [next] from hx) with hx | hx
        · exact hopen (.inr ⟨x, hx, hdone⟩)
        · rw [List.mem_singleton.mp hx] at hdone
          exact hcompleted hdone

/-- Closing is what deciding comes to. -/
def ClosedIfDecided (m : Summary) : Except Exc InvokeResult → Prop
  | .ok res => Closed res.outcome m.events m.status ↔ Decided m
  | .error _ => True

def outline (sup : Supervisor) (req : Request) (d : Draws) :
    Invocation.Outline (monitor faultless fun _ => True) sup req d
      (· = Summary.audit {}) ClosedIfDecided where
  started := Open
  head _ _ _ _ := Open
  exit outcome _ := Exited outcome
  failed _ _ := False
  handled _ _ _ := False
  closing outcome _ := Exited outcome
  opens m hm := by
    subst hm
    refine wp_announce trivial trivial ⟨fun e he => ?_, ?_⟩ (fun _ _ _ _ _ => trivial)
      (fun _ _ _ _ _ _ => trivial)
    · rw [List.mem_singleton.mp (show e ∈ [_] from he)]
      rfl
    · rintro (h | ⟨_, h, _⟩) <;> cases h
  resumes m hm := wp_getLatest _ trivial (fun _ _ _ => hm) (fun _ _ _ _ h => by cases h)
  iterates _ i state parent m hm := wp_iteration i state parent m hm
  exhausted _ _ _ _ hm := hm
  handles _ _ hm := hm.elim
  rethrows _ _ _ hm := hm.elim
  records outcome _ m hm := wp_finallyBlock outcome trivial
    (by cases outcome <;> exact hm) (fun _ _ _ => trivial)
  concludes outcome resultState m hm := by
    cases outcome with
    | ok =>
      unfold Supervisor.conclude
      rw [if_pos rfl]
      refine wp_announce trivial trivial ?_ (fun _ _ _ _ _ => trivial) (fun _ _ _ _ _ _ => trivial)
      exact ⟨fun _ => hm.2, fun _ => ⟨m.events, _, "completed", rfl, rfl, hm.1, rfl, rfl, rfl⟩⟩
    | killed => exact ⟨fun _ => hm.2, fun _ => hm.1⟩
    | maxStepsExceeded => exact ⟨fun h => (not_closed hm.1 h).elim, fun h => (hm.2 h).elim⟩
    | cancelled => exact hm.elim
    | error => exact hm.elim

variable {ι : Type} [DecidableEq ι]

/-- In every run in which nothing the invocation awaits fails: once it has
returned, it is closed exactly if it read a true kill flag or the step function
produced a completed state. -/
theorem closed_iff_decided (ops : ι → Operation) (w₀ : World) (s : Stack ι)
    (h : Reach Anyhow (start ops w₀) s) (i : ι) (sup : Supervisor) (req : Request) (d : Draws)
    (hi : ops i = .invoke sup req d) (hr : OnlyRequest ops i d.requestId)
    (h₀ : w₀.published.filter (·.carries d.requestId) = [])
    (hfaultless : ∀ e ∈ s.traceOf i, e.failed = false) (res : InvokeResult)
    (hres : outcomeOf s i = some (.ok (.invoked res))) :
    Closed res.outcome (s.world.published.filter (·.carries d.requestId)) (summaryOf s i).status ↔
      Decided (summaryOf s i) := by
  have hmon := monitored h hi (outline sup req d) trivial (fun _ _ _ => trivial)
    (relied_of_forall _ fun e he _ => hfaultless e he)
  rw [hres] at hmon
  rw [events_of_request h hr h₀ fun e he _ _ _ => exactly_of_ok h he (hfaultless e he)]
  exact hmon

instance (m : Summary) : Decidable (Decided m) := inferInstanceAs (Decidable (_ ∨ _))

theorem closed_iff_decided_one :
    ∃ s res, Reach Anyhow (start (single 1) World.empty) s ∧
      outcomeOf s 0 = some (.ok (.invoked res)) ∧
      Closed res.outcome (s.world.published.filter (·.carries "r")) (summaryOf s 0).status := by
  obtain ⟨s, h, hok, hfaultless, hdecided⟩ := Pool.Reach.exists_of_exec
    interp Anyhow (start (single 1) World.empty)
    (P := fun s => returnedAs s 0 .ok = true ∧ (∀ e ∈ s.traceOf 0, e.failed = false) ∧
      Decided (summaryOf s 0))
    (List.replicate 16 (0, { step := defaultSupervisorStep fun _ => "" })) (by decide)
  obtain ⟨res, hres, _⟩ := outcomeOf_of_returnedAs hok
  exact ⟨s, res, h, hres, (closed_iff_decided (single 1) World.empty s h 0 _ _ _ rfl (by decide) rfl
    hfaultless res hres).mpr hdecided⟩

/-- A step function that does not complete: the invocation returns with its
steps used up, no terminal event and its thread still running. -/
theorem not_closed_one :
    ∃ s res, Reach Succeeds (start (single 1) World.empty) s ∧
      outcomeOf s 0 = some (.ok (.invoked res)) ∧ (summaryOf s 0).status = some "running" ∧
      ¬ Closed res.outcome (s.world.published.filter (·.carries "r")) (summaryOf s 0).status := by
  obtain ⟨s, h, hmax, hstatus, hevents⟩ := Pool.Reach.exists_of_exec
    interp Succeeds (start (single 1) World.empty)
    (P := fun s => returnedAs s 0 .maxStepsExceeded = true ∧
      (summaryOf s 0).status = some "running" ∧
      ∀ e ∈ s.world.published.filter (fun e => Event.carries e "r"), isTerminal e.type = false)
    (List.replicate 13 (0, {})) (by decide)
  obtain ⟨res, hres, _⟩ := outcomeOf_of_returnedAs hmax
  exact ⟨s, res, h, hres, hstatus, not_closed hevents⟩

end NoblePort.Closing
