import Mathlib.Data.Fintype.Basic
import NoblePort.Ownership

/-!
# Threads do not interfere

What a thread is in the world depends on the operations about that thread
alone: the steps of all others can be erased from a run.
-/
namespace NoblePort.Threads

open Coroutine NoblePort.Values NoblePort.Store NoblePort.Runtime NoblePort.System
open NoblePort.Requests (requestId)
open NoblePort.Ownership

/-- What thread `t` is in the world. -/
structure Projection where
  audits : List AuditRow
  metrics : List MetricRow
  checkpoints : List CheckpointRow
  row : Option ThreadRow
  events : List Event

def project (t : String) (w : World) : Projection where
  audits := w.auditLog.filter fun row => row.threadId == some t
  metrics := w.agentMetrics.filter fun row => row.threadId == some t
  checkpoints := w.checkpoints t
  row := w.thread t
  events := w.published.filter fun event => event.threadId == t

/-- What a call about the thread adds. -/
def Projection.add (p : Projection) : Op → Projection
  | .execute (.insertAuditLog _ row) => { p with audits := p.audits ++ [row] }
  | .execute (.insertAgentMetrics row) => { p with metrics := p.metrics ++ [row] }
  | .execute (.insertCheckpoint _ row) => { p with checkpoints := p.checkpoints ++ [row] }
  | .execute (.insertThreadState row) => { p with row := p.row.or (some row) }
  | .execute (.updateThreadState status kill event now _) =>
    { p with row := p.row.map fun row => ⟨row.threadId, status, kill, event, now⟩ }
  | .publish _ event => { p with events := p.events ++ [event] }
  | _ => p

section Calls

variable {t t' : String} {r m : Option String} {op : Op}

theorem project_effect (w : World) (h : Names t r m op) :
    project t (w.effect op) = (project t w).add op := by
  cases op with
  | execute st =>
    cases st with
    | insertAuditLog jsonb row =>
      obtain ⟨ht, _⟩ := h
      simp [project, World.effect, World.apply, Projection.add, World.thread, World.checkpoints, ht]
    | insertAgentMetrics row =>
      obtain ⟨ht, _⟩ := h
      simp [project, World.effect, World.apply, Projection.add, World.thread, World.checkpoints, ht]
    | insertCheckpoint jsonb row =>
      have ht : row.threadId = t := h
      simp [project, World.effect, World.apply, Projection.add, World.thread, World.checkpoints, ht]
    | insertThreadState row =>
      have ht : row.threadId = t := h
      have hrow := World.thread_insert w row t
      rw [ht, beq_self_eq_true, if_pos rfl] at hrow
      rw [project, World.effect, hrow]
      rfl
    | updateThreadState status kill event now t' =>
      obtain rfl : t' = t := h
      rw [project, World.effect, World.thread_update_same]
      rfl
  | publish channel event =>
    have ht : event.threadId = t := h
    simp [project, World.effect, Projection.add, World.thread, World.checkpoints, ht]
  | _ => rfl

/-- A call about another thread changes nothing. -/
theorem project_other (w : World) (h : Names t' r m op) (hne : t' ≠ t) :
    project t (w.effect op) = project t w := by
  cases op with
  | execute st =>
    cases st with
    | insertAuditLog jsonb row =>
      obtain ⟨ht, _⟩ := h
      simp [project, World.effect, World.apply, World.thread, World.checkpoints, ht, hne]
    | insertAgentMetrics row =>
      obtain ⟨ht, _⟩ := h
      simp [project, World.effect, World.apply, World.thread, World.checkpoints, ht, hne]
    | insertCheckpoint jsonb row =>
      have ht : row.threadId = t' := h
      simp [project, World.effect, World.apply, World.thread, World.checkpoints, ht, hne]
    | insertThreadState row =>
      obtain rfl : row.threadId = t' := h
      rw [project, World.effect, World.thread_insert_other _ _ _ hne]
      rfl
    | updateThreadState status kill event now t'' =>
      obtain rfl : t'' = t' := h
      rw [project, World.effect, World.thread_update_other _ _ _ _ _ _ _ hne]
      rfl
  | publish channel event =>
    have ht : event.threadId = t' := h
    simp [project, World.effect, World.thread, World.checkpoints, ht, hne]
  | _ => rfl

end Calls

variable {ι : Type} {ops : ι → Operation} {t : String}

/-- The operations about thread `t`. -/
def about (ops : ι → Operation) (t : String) (i : ι) : Bool := threadOf (ops i) == t

/-- What the operations about thread `t` depend on: what the thread is, and
which of their ids are taken. -/
structure Sight (ι : Type) where
  projection : Projection
  requestTaken : ι → Bool
  metricTaken : ι → Bool

def sight (ops : ι → Operation) (t : String) (w : World) : Sight ι where
  projection := project t w
  requestTaken i := about ops t i && w.auditLog.any fun row => some row.id == requestId (ops i)
  metricTaken i := about ops t i && w.agentMetrics.any fun row => some row.id == metricId (ops i)

/-- No two operations were drawn the same id. -/
structure DistinctIds (ops : ι → Operation) : Prop where
  request : ∀ i j, requestId (ops i) = requestId (ops j) → requestId (ops i) ≠ none → i = j
  metric : ∀ i j, metricId (ops i) = metricId (ops j) → metricId (ops i) ≠ none → i = j

/-- The id of the audit row a call inserts. -/
def auditIdOf : Op → Option String
  | .execute (.insertAuditLog _ row) => some row.id
  | _ => none

/-- The id of the metric row a call inserts. -/
def metricIdOf : Op → Option String
  | .execute (.insertAgentMetrics row) => some row.id
  | _ => none

def Sight.add (s : Sight ι) (ops : ι → Operation) (t : String) (op : Op) : Sight ι where
  projection := s.projection.add op
  requestTaken i := s.requestTaken i ||
    (about ops t i && (auditIdOf op).any fun id => some id == requestId (ops i))
  metricTaken i := s.metricTaken i ||
    (about ops t i && (metricIdOf op).any fun id => some id == metricId (ops i))

theorem requestTaken_effect (w : World) (op : Op) (i : ι) :
    (sight ops t (w.effect op)).requestTaken i = ((sight ops t w).requestTaken i ||
      (about ops t i && (auditIdOf op).any fun id => some id == requestId (ops i))) := by
  cases op with
  | execute st => cases st <;>
    simp [sight, World.effect, World.apply, auditIdOf, Bool.and_or_distrib_left]
  | _ => simp [sight, World.effect, auditIdOf]

theorem metricTaken_effect (w : World) (op : Op) (i : ι) :
    (sight ops t (w.effect op)).metricTaken i = ((sight ops t w).metricTaken i ||
      (about ops t i && (metricIdOf op).any fun id => some id == metricId (ops i))) := by
  cases op with
  | execute st => cases st <;>
    simp [sight, World.effect, World.apply, metricIdOf, Bool.and_or_distrib_left]
  | _ => simp [sight, World.effect, metricIdOf]

section Kept

variable {i : ι} {op : Op} (hi : about ops t i = true) (h : owns (ops i) op)

include hi in
theorem names_of_about (h : owns (ops i) op) : Names t (requestId (ops i)) (metricId (ops i)) op := by
  have ht : threadOf (ops i) = t := by simpa [about] using hi
  rw [owns, ht] at h
  exact h

include hi h

/-- A call about the thread changes what is in sight by what is in sight. -/
theorem sight_effect (w : World) :
    sight ops t (w.effect op) = (sight ops t w).add ops t op := by
  rw [Sight.add, ← funext (requestTaken_effect w op), ← funext (metricTaken_effect w op)]
  rw [show (sight ops t w).projection.add op = project t (w.effect op) from
    (project_effect w (names_of_about hi h)).symm]
  rfl

theorem violates_sight {w w' : World} {st : Stmt} (hop : op = .execute st)
    (hsame : sight ops t w = sight ops t w') : w.violates st = w'.violates st := by
  subst hop
  have hnames := names_of_about hi h
  have hproject : project t w = project t w' := congrArg Sight.projection hsame
  cases st with
  | insertAuditLog jsonb row =>
    have htaken := congrFun (congrArg Sight.requestTaken hsame) i
    simpa [sight, hi, ← hnames.2, World.violates] using htaken
  | insertAgentMetrics row =>
    have htaken := congrFun (congrArg Sight.metricTaken hsame) i
    simpa [sight, hi, ← hnames.2, World.violates] using htaken
  | insertCheckpoint jsonb row =>
    obtain rfl : row.threadId = t := hnames
    have hrows : w.checkpoints row.threadId = w'.checkpoints row.threadId :=
      congrArg Projection.checkpoints hproject
    have hany := congrArg (fun rows => rows.any fun r => r.checkpointId == row.checkpointId) hrows
    simpa [World.checkpoints, List.any_filter, World.violates] using hany
  | insertThreadState row =>
    obtain rfl : row.threadId = t := hnames
    have hrow : w.thread row.threadId = w'.thread row.threadId := congrArg Projection.row hproject
    have hsome := congrArg Option.isSome hrow
    simpa [World.thread, World.violates, List.isSome_find?] using hsome
  | updateThreadState => rfl

/-- The answers to calls about the thread are in sight. -/
theorem answer_sight {w w' : World} (c : Choice) (hsame : sight ops t w = sight ops t w') :
    interp.answer c w op = interp.answer c w' op := by
  have hproject : project t w = project t w' := congrArg Sight.projection hsame
  cases op with
  | fetch q =>
    have hrows : w.rows c.scan q = w'.rows c.scan q := by
      have hnames := names_of_about hi h
      cases q with
      | auditLog t' n => exact hnames.elim
      | latestCheckpoint t' =>
        obtain rfl : t' = t := hnames
        exact congrArg (fun p => p.checkpoints.getLast?) hproject
      | checkpoints t' =>
        obtain rfl : t' = t := hnames
        exact congrArg Projection.checkpoints hproject
      | _ t' =>
        obtain rfl : t' = t := hnames
        exact congrArg Projection.row hproject
    simp only [interp, World.answer, hrows]
  | execute st => simp only [interp, World.answer, violates_sight hi h rfl hsame]
  | _ => rfl

end Kept

/-- An id is not the one drawn for another operation. -/
theorem other_id {id : Operation → Option String} {i j : ι} {new : String} (hij : i ≠ j)
    (hids : ∀ i j, id (ops i) = id (ops j) → id (ops i) ≠ none → i = j)
    (hnew : some new = id (ops i)) : (some new == id (ops j)) = false := by
  rw [hnew, beq_eq_false_iff_ne]
  intro heq
  exact hij (hids i j heq (by rw [← hnew]; nofun))

/-- A call of another thread's operation is out of sight. -/
theorem sight_hidden (hids : DistinctIds ops) {i : ι} {op : Op} (w : World)
    (hi : about ops t i = false) (h : owns (ops i) op) :
    sight ops t (w.effect op) = sight ops t w := by
  have hne : threadOf (ops i) ≠ t := by simpa [about] using hi
  have hother {j : ι} (hj : about ops t j = true) : i ≠ j := by
    rintro rfl
    rw [hi] at hj
    cases hj
  have hrequest (j : ι) : (sight ops t (w.effect op)).requestTaken j =
      (sight ops t w).requestTaken j := by
    rw [requestTaken_effect]
    cases hj : about ops t j with
    | false => simp
    | true =>
      cases op with
      | execute st => cases st with
        | insertAuditLog jsonb row => simp [auditIdOf, other_id (hother hj) hids.request h.2]
        | _ => simp [auditIdOf]
      | _ => simp [auditIdOf]
  have hmetric (j : ι) : (sight ops t (w.effect op)).metricTaken j =
      (sight ops t w).metricTaken j := by
    rw [metricTaken_effect]
    cases hj : about ops t j with
    | false => simp
    | true =>
      cases op with
      | execute st => cases st with
        | insertAgentMetrics row => simp [metricIdOf, other_id (hother hj) hids.metric h.2]
        | _ => simp [metricIdOf]
      | _ => simp [metricIdOf]
  rw [sight, ← sight, Sight.mk.injEq]
  exact ⟨project_other w h hne, funext hrequest, funext hmetric⟩

/-- The operations about thread `t` see what they depend on. -/
theorem separates (hids : DistinctIds ops) :
    Separates interp (about ops t) (fun i => owns (ops i)) (sight ops t) where
  hidden i c w op hi h := by
    unfold Interp.settle
    split
    · exact sight_hidden hids w hi h
    · rfl
  answer i c w w' op hi h hsame := answer_sight hi h c hsame
  effect i c w w' op hi h hsame := by
    have hlanded : (interp.entry c w op).landed = (interp.entry c w' op).landed :=
      congrArg Prod.snd (answer_sight hi h c hsame)
    unfold Interp.settle
    rw [hlanded]
    cases (interp.entry c w' op).landed with
    | false => exact hsame
    | true =>
      change sight ops t (w.effect op) = sight ops t (w'.effect op)
      rw [sight_effect hi h, sight_effect hi h, hsame]

variable [DecidableEq ι]

/-- The picks of the operations about thread `t`. -/
def picksOf (ops : ι → Operation) (t : String) (picks : List (ι × Choice)) : List (ι × Choice) :=
  picks.filter fun p => about ops t p.1

/-- However the steps of all operations interleave: what a thread is in the
world, and what the operations about it return, is what they make of it when
they alone take their steps, in the same order. -/
theorem threads_do_not_interfere (ops : ι → Operation) (hids : DistinctIds ops) (w₀ : World)
    (picks : List (ι × Choice)) (s : Stack ι)
    (h : (start ops w₀).follow interp picks = some s) (t : String) :
    ∃ s', (start ops w₀).follow interp (picksOf ops t picks) = some s' ∧
      project t s.world = project t s'.world ∧
      ∀ i, threadOf (ops i) = t → outcomeOf s i = outcomeOf s' i := by
  have hstart : Pool.Alike (about ops t) (sight ops t) (start ops w₀) (start ops w₀) :=
    ⟨rfl, fun _ _ => rfl⟩
  obtain ⟨s', hs', halike⟩ := hstart.follow (separates hids) (owned_start ops w₀) picks h
  refine ⟨s', hs', congrArg Sight.projection halike.view, ?_⟩
  intro i hi
  rw [outcomeOf, outcomeOf, halike.task i (by simpa [about] using hi)]

/-- An invocation and a kill on thread `a`, and an invocation on thread `b`. -/
def crowd : Fin 3 → Operation
  | 0 => .invoke ⟨.sqlite, "agent.events", 8⟩ ⟨some "a", "hi", []⟩
      ⟨"a", "r0", fun _ => "c", "m0", fun _ => "now", .nan⟩
  | 1 => .requestKill .sqlite "a" "now"
  | 2 => .invoke ⟨.sqlite, "agent.events", 8⟩ ⟨some "b", "hi", []⟩
      ⟨"b", "r2", fun _ => "c", "m2", fun _ => "now", .nan⟩

/-- The two invocations take turns, until the one on `a` is killed. -/
def crowded {ι : Type} (a kill b : ι) : List (ι × Choice) :=
  turns ((List.replicate 6 [a, b]).flatten ++ List.replicate 3 kill ++ List.replicate 4 b ++ List.replicate 5 a)

/-- The rows of both threads, by their status. -/
def statuses (w : World) : List (String × String) :=
  w.agentThreadState.map fun row => (row.threadId, row.status)

/-- The invocation on `b` runs while the one on `a` is killed. By itself the latter
ends the same. -/
theorem threads_do_not_interfere_crowd :
    ∃ s s', (start crowd World.empty).follow interp (crowded 0 1 2) = some s ∧
      (start crowd World.empty).follow interp (picksOf crowd "a" (crowded 0 1 2)) = some s' ∧
      statuses s.world = [("a", "killed"), ("b", "running")] ∧ project "a" s.world = project "a" s'.world ∧
      ∃ res, outcomeOf s 0 = some (.ok (.invoked res)) ∧ res.outcome = .killed ∧
        outcomeOf s 0 = outcomeOf s' 0 := by
  have hids : DistinctIds crowd := ⟨by decide, by decide⟩
  obtain ⟨s, hs, hend⟩ := (Option.any_eq_true _ _).mp
    (show ((start crowd World.empty).follow interp (crowded 0 1 2)).any (fun s => decide
      (returnedAs s 0 .killed = true ∧ statuses s.world = [("a", "killed"), ("b", "running")])) = true by decide)
  obtain ⟨hkilled, hrows⟩ := of_decide_eq_true hend
  obtain ⟨res, hres, houtcome⟩ := outcomeOf_of_returnedAs hkilled
  obtain ⟨s', hs', hproject, hreturns⟩ := threads_do_not_interfere crowd hids World.empty _ s hs "a"
  exact ⟨s, s', hs, hs', hrows, hproject, res, hres, houtcome, hreturns 0 rfl⟩

end NoblePort.Threads
