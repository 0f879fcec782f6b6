import NoblePort.Deployed
import NoblePort.StepLoop

/-!
# Every deployment comes to an end

A task makes a bounded number of calls on the drivers, and of the tasks that
are not over one can always go on without waiting for the lock.
-/
namespace NoblePort.Progress

open Coroutine NoblePort.Values NoblePort.Store NoblePort.ThreadState NoblePort.Runtime NoblePort.System
open NoblePort.Drivers NoblePort.Deployed

variable {ι : Type}

section Bounds

variable (i : ι)

theorem bounded_locked {α : Type} {body : Driver ι α} {n : Nat} (h : body.Bounded n) :
    (locked i body).Bounded (n + 2) := by
  have hleave : (leaving i body).Bounded (n + 1) := h.attempt.bind fun r =>
    (Prog.Bounded.call _).bind (b := 0) fun _ => by cases r <;> trivial
  exact ((Prog.Bounded.call _).bind fun _ => hleave).mono (by omega)

theorem bounded_publish (bus : EventBus) (channel : String) (event : Event) :
    (unread (bus.publish (ι := ι) channel event)).Bounded 4 := by
  have hrecord (n : Int) : (do
      Prog.call (DriverOp.record (ι := ι) channel event)
      return n : Driver ι Int).Bounded 1 := (Prog.Bounded.call _).bind (b := 0) fun _ => .pure _
  cases bus with
  | null => exact ((hrecord 1).bind (b := 0) fun _ => .pure _).mono (by omega)
  | redis =>
    have hpublish : (RedisEventBus.publish (ι := ι) channel event).Bounded 4 :=
      (Prog.Bounded.call _).bind (b := 3) fun _ => (Prog.Bounded.call _).bind (b := 2) fun _ =>
        (Prog.Bounded.call _).bind (b := 1) hrecord
    exact hpublish.bind (b := 0) fun _ => .pure _

/-- Five calls are the most: the lock, the query, its rows, its end, and the lock. -/
theorem bounded_behind (bus : EventBus) (op : Op) : (behind bus i op).Bounded 5 := by
  cases op with
  | jsonDumps d => exact (Prog.Bounded.call _).mono (by omega)
  | stepFn state => exact (Prog.Bounded.call _).mono (by omega)
  | publish channel event => exact (bounded_publish bus channel event).mono (by omega)
  | execute st =>
    exact (bounded_locked i ((Prog.Bounded.call _).bind fun _ => .call _)).mono (by omega)
  | fetch q =>
    exact bounded_locked i ((Prog.Bounded.call _).bind (b := 2) fun _ =>
      (Prog.Bounded.call _).bind (b := 1) fun _ => (Prog.Bounded.call _).bind (b := 0) fun _ => .pure _)

end Bounds

/-- The most calls an operation makes on the store and the bus. -/
def mostCalls : Operation → Nat
  | .invoke sup _ _ => StepLoop.mostCalls sup
  | .requestKill .. => 3
  | .setThreadStatus .. => 2

theorem bounded_upsert (db : Dialect) (t status : String) (killed : Option Bool) (event : Option String)
    (now : String) : (upsert db t status killed event now).Bounded 2 := by
  rw [upsert_eq]
  exact Prog.Bounded.bind (a := 1) (b := 1) (.call _) fun _ => .call _

theorem bounded_program (op : Operation) : op.program.Bounded (mostCalls op) := by
  cases op with
  | invoke sup req d => exact (StepLoop.bounded_invoke sup req d).bind (b := 0) fun _ => .pure _
  | requestKill db t now =>
    refine Prog.Bounded.bind (a := 3) (b := 0) ?_ fun _ => .pure _
    refine Prog.Bounded.bind (a := 1) (b := 2) (.call _) fun existing => ?_
    cases existing <;> exact Prog.Bounded.bind (b := 0) (bounded_upsert ..) fun _ => .pure _
  | setThreadStatus db t status event now => exact (bounded_upsert ..).bind (b := 0) fun _ => .pure _

variable [DecidableEq ι]

/-- The next call of task `i` is answered without waiting for another task. -/
def CanGoOn (s : Deployment ι) (i : ι) : Prop :=
  ∃ op, (s.task i).awaits = some op ∧ ∀ j, op = .acquire j → s.world.lockedBy = none

/-- In every run of a deployment, whatever fails in it: no task makes more calls
on the drivers than its operation has, and as long as not all tasks are over one
of them can go on. So nothing waits forever. -/
theorem deployment_ends (bus : EventBus) (ops : ι → Operation) (file : World) (s' : Deployment ι)
    (h : Drivers.Reach (deploy bus ops file) s') :
    (∀ i, (s'.traceOf i).length ≤ 5 * mostCalls (ops i)) ∧
    ((∃ i, (s'.task i).awaits ≠ none) → ∃ i, CanGoOn s' i) := by
  constructor
  · intro i
    have hbounded : ((deploy bus ops file).task i).Bounded (5 * mostCalls (ops i)) :=
      (bounded_program (ops i)).subst (bounded_behind i bus)
    obtain ⟨left, hleft, _⟩ := h.bounded rfl hbounded
    omega
  · rintro ⟨i, hi⟩
    cases hl : s'.world.lockedBy with
    | none =>
      obtain ⟨op, hop⟩ := Option.ne_none_iff_exists'.mp hi
      exact ⟨i, op, hop, fun _ _ => hl⟩
    | some owner =>
      obtain ⟨op, hop, hacquire⟩ := lock_holder_goes_on bus ops file s' h owner hl
      exact ⟨owner, op, hop, fun j hj => absurd hj (hacquire j)⟩

/-- Two kills, the second of which waits for the lock. -/
theorem deployment_ends_contended : ∃ s' : Deployment (Fin 2),
    Drivers.Reach (deploy .null (fun _ => .requestKill .sqlite "t" "now") World.empty) s' ∧
      s'.world.lockedBy = some 0 ∧ (∃ i, CanGoOn s' i) ∧ ∀ i, (s'.traceOf i).length ≤ 15 := by
  obtain ⟨s', h, hlocked, hawaits⟩ := Pool.Reach.exists_of_exec drivers Unforced
    (P := fun s' => s'.world.lockedBy = some (0 : Fin 2) ∧ (s'.task 1).awaits.isSome = true)
    (deploy .null (fun _ => .requestKill .sqlite "t" "now") World.empty) [(0, smooth)] (by decide)
  obtain ⟨hcalls, hgoes⟩ := deployment_ends .null (fun _ : Fin 2 => .requestKill .sqlite "t" "now")
    World.empty s' h
  refine ⟨s', h, hlocked, hgoes ⟨1, fun hnone => ?_⟩, hcalls⟩
  rw [hnone] at hawaits
  cases hawaits

end NoblePort.Progress
