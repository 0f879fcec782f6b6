import NoblePort.Monitor

/-!
# The status a failed invocation leaves

Both except clauses write a status, and they see the faults of the try body
only. A fault before, in the finally block or after leaves the status of the
moment. Every exception has a text, so the `str(e)` of a clause does not raise.
-/
namespace NoblePort.Faults

open Coroutine Coroutine.Contract NoblePort.Values NoblePort.Store NoblePort.Runtime
open NoblePort.System NoblePort.Monitor

/-- The calls that can raise outside the try body and its except clauses. -/
def beyond : Op → Bool
  | .publish _ event => event.type = .invokeStart || event.type = .invokeEnd
  | .execute (.insertAgentMetrics _) => true
  | _ => false

/-- The status that fits an exception. -/
def failure (e : Exc) : String := if e.isCancelled then "cancelled" else "error"

/-- The first fault is inside the try body. -/
def StartsInside (m : Summary) : Prop := ∃ f ∈ m.faults.head?, beyond f.op = false

/-- Besides, the first and the last fault are both cancellations or both not. -/
def StaysInside (m : Summary) : Prop :=
  ∃ first ∈ m.faults.head?, ∃ last ∈ m.faults.getLast?, beyond first.op = false ∧
    first.exc.isCancelled = last.exc.isCancelled

def threadOk (_ : Summary) (e : Answered) : Prop := onThread e.op = true → e.failed = false

/-- A call that raises after it wrote a status has written one that fits
exactly if its faults stay inside, and one of the two failures exactly if they
start inside. -/
def FitsIfInside (m : Summary) : Except Exc InvokeResult → Prop
  | .ok _ => True
  | .error e => m.status ≠ none →
      (m.status = some (failure e) ↔ StaysInside m) ∧
      (m.status = some "error" ∨ m.status = some "cancelled" ↔ StartsInside m)

/-- No fault yet, and a status that is no failure. -/
def Fine (m : Summary) : Prop :=
  m.faults = [] ∧ ∃ st, m.status = some st ∧ st ≠ "error" ∧ st ≠ "cancelled"

/-- One fault, inside the try body. -/
def Caught (e : Exc) (m : Summary) : Prop := ∃ op, m.faults = [⟨op, e⟩] ∧ beyond op = false

/-- An except clause wrote the failure of the first fault, and `e` is on its way. -/
def Written (e : Exc) (m : Summary) : Prop :=
  ∃ f rest, m.faults = f :: rest ∧ beyond f.op = false ∧ m.status = some (failure f.exc) ∧
    ∃ last ∈ m.faults.getLast?, last.exc = e

theorem failure_eq {e e' : Exc} : failure e = failure e' ↔ e.isCancelled = e'.isCancelled := by
  unfold failure
  cases e.isCancelled <;> cases e'.isCancelled <;> simp

theorem failure_cases (e : Exc) : failure e = "error" ∨ failure e = "cancelled" := by
  unfold failure
  cases e.isCancelled <;> simp

theorem Written.fits {e : Exc} {m : Summary} (h : Written e m) : FitsIfInside m (.error e) := by
  obtain ⟨f, rest, hfaults, hop, hstatus, last, hlast, rfl⟩ := h
  intro _
  rw [hstatus]
  constructor
  · rw [Option.some.injEq, failure_eq]
    constructor
    · intro hkind
      exact ⟨f, by rw [hfaults]; rfl, last, hlast, hop, hkind⟩
    · rintro ⟨first, hfirst, last', hlast', _, hkind⟩
      rw [hfaults] at hfirst
      cases hfirst
      cases Option.mem_unique hlast hlast'
      exact hkind
  · constructor
    · intro _
      exact ⟨f, by rw [hfaults]; rfl, hop⟩
    · intro _
      rcases failure_cases f.exc with h | h <;> simp [h]

/-- A first fault beyond the try body, with no failure written. -/
theorem fits_of_beyond {m : Summary} {op : Op} {e : Exc} (hm : Fine m) (hop : beyond op = true) :
    FitsIfInside (m.fault op e) (.error e) := by
  obtain ⟨hnone, st, hstatus, herror, hcancelled⟩ := hm
  have hfaults : (m.fault op e).faults = [⟨op, e⟩] := by rw [Summary.fault, hnone]; rfl
  have hst : (m.fault op e).status = some st := hstatus
  intro _
  rw [hst]
  constructor
  · constructor
    · intro h
      rcases failure_cases e with he | he <;> simp_all
    · rintro ⟨first, hfirst, _, _, hinside, _⟩
      rw [hfaults] at hfirst
      cases hfirst
      rw [hop] at hinside
      cases hinside
  · constructor
    · rintro (h | h) <;> cases h
      · exact absurd rfl herror
      · exact absurd rfl hcancelled
    · rintro ⟨first, hfirst, hinside⟩
      rw [hfaults] at hfirst
      cases hfirst
      rw [hop] at hinside
      cases hinside

variable {sup : Supervisor} {req : Request} {d : Draws}

theorem thread_ok {m : Summary} {op : Op} {e : Exc} {landed : Bool} (hop : onThread op = true) :
    ¬ threadOk m ⟨op, .error e, landed⟩ := fun h => by cases h hop

theorem caught {m : Summary} {op : Op} {e : Exc} (hnone : m.faults = []) (hop : beyond op = false) :
    Caught e (m.fault op e) := ⟨op, by rw [Summary.fault, hnone]; rfl, hop⟩

theorem fine_of_running {m : Summary} (hnone : m.faults = []) (hstatus : m.status = some "running") :
    Fine m := ⟨hnone, _, hstatus, by decide, by decide⟩

/-- No fault yet, and the thread is marked running. -/
def Running (m : Summary) : Prop := m.faults = [] ∧ m.status = some "running"

theorem wp_iteration (i : Nat) (state : Dict) (parent : Option String) (m : Summary)
    (h : Running m) :
    (monitor threadOk fun _ => True).wp (sup.iteration req d i state parent)
      (ends (fun next => match next with
        | .stop _ _ => Fine
        | .again _ _ => Running) Caught) m := by
  obtain ⟨hnone, hstatus⟩ := h
  refine Monitor.wp_iteration i state parent (fun _ _ _ => trivial) (fun _ _ _ _ ha hr => ?_)
    ⟨hnone, _, rfl, by decide, by decide⟩ (fun _ _ _ _ _ _ => ?_)
  · cases ha with
    | flag => exact (thread_ok rfl hr).elim
    | status hop => exact (thread_ok hop hr).elim
    | kill he | start he | finish _ _ he => exact caught hnone (by simp [beyond, he])
    | step | dumps | insert => exact caught hnone rfl
  · split
    · exact fine_of_running hnone hstatus
    · exact ⟨hnone, hstatus⟩

theorem wp_handler (e : Exc) (m : Summary) (h : Caught e m) :
    (monitor threadOk fun _ => True).wp (sup.handler req d e).2 (ends (fun _ => Written e) Written) m := by
  obtain ⟨op, hfaults, hop⟩ := h
  have hwritten (m : Summary) (hm : m.faults = [⟨op, e⟩]) (hs : m.status = some (failure e)) :
      Written e m := ⟨⟨op, e⟩, [], hm, hop, hs, ⟨op, e⟩, by rw [hm]; rfl, rfl⟩
  have hagain (m : Summary) (op' : Op) (e' : Exc) (hm : m.faults = [⟨op, e⟩])
      (hs : m.status = some (failure e)) : Written e' (m.fault op' e') :=
    ⟨⟨op, e⟩, [⟨op', e'⟩], by rw [Summary.fault, hm]; rfl, hop, hs, ⟨op', e'⟩,
      by rw [Summary.fault, hm]; rfl, rfl⟩
  cases e <;>
    exact wp_announce trivial trivial (hwritten _ hfaults rfl)
      (fun _ _ _ hop h => (thread_ok hop h).elim) (fun _ _ e' _ _ _ => hagain _ _ e' hfaults rfl)

def outline (sup : Supervisor) (req : Request) (d : Draws) :
    Invocation.Outline (monitor threadOk fun _ => True) sup req d (· = Summary.audit {})
      FitsIfInside where
  started := Running
  head _ _ _ _ := Running
  exit _ _ := Fine
  failed := Caught
  handled _ := Written
  closing _ _ := Fine
  opens m hm := by
    subst hm
    exact wp_announce trivial trivial ⟨rfl, rfl⟩ (fun _ _ _ hop h => (thread_ok hop h).elim)
      (fun _ event _ _ he _ => fits_of_beyond (fine_of_running rfl rfl) (by simp [beyond, he]))
  resumes m hm := wp_getLatest _ trivial (fun _ _ _ => hm)
    (by rintro _ _ _ rfl _; exact caught hm.1 rfl)
  iterates _ i state parent m hm := wp_iteration i state parent m hm
  exhausted _ _ _ _ hm := fine_of_running hm.1 hm.2
  handles e m hm := wp_handler e m hm
  rethrows outcome e m hm := by
    refine wp_finallyBlock _ trivial hm.fits (fun e' _ _ => Written.fits ?_)
    obtain ⟨f, rest, hfaults, hop, hstatus, _⟩ := hm
    exact ⟨f, rest ++ [⟨_, e'⟩], by rw [Summary.fault, hfaults]; rfl, hop, hstatus, ⟨_, e'⟩,
      by rw [Summary.fault, List.getLast?_concat]; rfl, rfl⟩
  records outcome _ m hm := wp_finallyBlock _ trivial hm (fun _ _ _ => fits_of_beyond hm rfl)
  concludes outcome _ m hm := by
    unfold Supervisor.conclude
    split
    · exact wp_announce trivial trivial trivial (fun _ _ _ hop h => (thread_ok hop h).elim)
        (fun _ event _ _ he _ => fits_of_beyond ⟨hm.1, _, rfl, by decide, by decide⟩
          (by simp [beyond, he]))
    · exact trivial

variable {ι : Type} [DecidableEq ι]

/-- In every run in which `agent_thread_state` answers the invocation: once it
has raised after it marked its thread running, the status it wrote last fits
the exception exactly if its faults stay inside the try body, and is a failure
at all exactly if they start there. -/
theorem status_fits_iff_inside (ops : ι → Operation) (w₀ : World) (s : Stack ι)
    (h : Reach Anyhow (start ops w₀) s) (i : ι) (sup : Supervisor) (req : Request) (d : Draws)
    (hi : ops i = .invoke sup req d)
    (hthread : ∀ e ∈ s.traceOf i, onThread e.op = true → e.failed = false)
    (hmarked : (summaryOf s i).status ≠ none) (e : Exc) (hraised : outcomeOf s i = some (.error e)) :
    ((summaryOf s i).status = some (failure e) ↔ StaysInside (summaryOf s i)) ∧
    ((summaryOf s i).status = some "error" ∨ (summaryOf s i).status = some "cancelled" ↔
      StartsInside (summaryOf s i)) := by
  have hmon := monitored h hi (outline sup req d) trivial (fun _ _ _ h => (h rfl).elim)
    (relied_of_forall _ fun e he _ => hthread e he)
  rw [hraised] at hmon
  exact hmon hmarked

instance (m : Summary) : Decidable (StaysInside m) := inferInstanceAs (Decidable (∃ _ ∈ _, ∃ _ ∈ _, _))

/-- The step function raises, and the thread is left in error. -/
theorem status_fits_iff_inside_step :
    ∃ s e, Reach Anyhow (start (single 8) World.empty) s ∧ outcomeOf s 0 = some (.error e) ∧
      (summaryOf s 0).status = some (failure e) := by
  obtain ⟨s, h, hraised, hthread, hmarked, hinside⟩ := Pool.Reach.exists_of_exec
    interp Anyhow (start (single 8) World.empty)
    (P := fun s => raised s 0 = true ∧
      (∀ e ∈ s.traceOf 0, onThread e.op = true → e.failed = false) ∧
      (summaryOf s 0).status ≠ none ∧ StaysInside (summaryOf s 0))
    (List.replicate 8 (0, calm) ++ [(0, down)] ++ List.replicate 4 (0, calm)) (by decide)
  obtain ⟨e, he⟩ := outcomeOf_of_raised hraised
  exact ⟨s, e, h, he, (status_fits_iff_inside (single 8) World.empty s h 0 _ _ _ rfl hthread hmarked
    e he).1.mpr hinside⟩

/-- The start event raises, and the thread is left running. -/
theorem left_running :
    ∃ s e, Reach Anyhow (start (single 8) World.empty) s ∧
      (∀ e ∈ s.traceOf 0, onThread e.op = true → e.failed = false) ∧
      outcomeOf s 0 = some (.error e) ∧ (summaryOf s 0).status = some "running" := by
  obtain ⟨s, h, hraised, hthread, hstatus⟩ := Pool.Reach.exists_of_exec
    interp Anyhow (start (single 8) World.empty)
    (P := fun s => raised s 0 = true ∧
      (∀ e ∈ s.traceOf 0, onThread e.op = true → e.failed = false) ∧
      (summaryOf s 0).status = some "running")
    (List.replicate 4 (0, calm) ++ [(0, down)]) (by decide)
  obtain ⟨e, he⟩ := outcomeOf_of_raised hraised
  exact ⟨s, e, h, hthread, he, hstatus⟩

end NoblePort.Faults
