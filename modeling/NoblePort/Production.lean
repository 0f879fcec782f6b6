import NoblePort.Durability
import NoblePort.Postgres
import NoblePort.Progress

/-!
# What holds on Postgres

Nothing keeps the statements of several tasks apart there but the database. The
audit row is committed before anything of its invocation is seen outside, and
the pool never runs dry for good.
-/
namespace NoblePort.Production

open Coroutine NoblePort.Values NoblePort.Store NoblePort.Runtime NoblePort.System
open NoblePort.Drivers (DriverOp Driver DriverChoice EventBus Machine locked leaving unread smooth)
open NoblePort.Deployed (Encodes)
open NoblePort.Durability (OnFile Vouched onFile_of_outside vouched_of_sent)
open NoblePort.Postgres

variable {ι : Type} [DecidableEq ι]

section Committed

variable {bus : EventBus} {ops : ι → Operation} {database : World} {s' : Deployment ι}

theorem step_committed (h : Reach (deploy bus ops database) s') {step : ι × Dict}
    (hstep : step ∈ s'.world.stepped) : OnFile ops s'.world.tables step.1 := by
  obtain ⟨s, hs, hmirrors⟩ := pooled_mirrors bus ops database s' h
  rw [hmirrors.visible]
  obtain ⟨e, he, hop⟩ := hmirrors.stepped step hstep
  exact onFile_of_outside hs .start (fun x hx _ => hx) he (by rw [hop]; rfl)

theorem shown_committed (h : Reach (deploy bus ops database) s') :
    (∀ message ∈ s'.world.delivered, ∃ event, Encodes message event ∧ Vouched ops s'.world.tables event) ∧
    ∀ listed ∈ s'.world.recorded, Vouched ops s'.world.tables listed.2 := by
  obtain ⟨s, hs, hmirrors⟩ := pooled_mirrors bus ops database s' h
  rw [hmirrors.visible]
  exact vouched_of_sent hs .start (fun x hx _ => hx) hmirrors.sent

/-- As `asyncpg` binds the parameters, an agent that starts without audit rows
never shows itself: nothing is sent and no step function called. -/
theorem bound_silent (h : Pool.Reach servers Binding (deploy bus ops database) s')
    (hempty : database.auditLog = []) :
    s'.world.delivered = [] ∧ s'.world.recorded = [] ∧ s'.world.stepped = [] := by
  have hreach : Reach (deploy bus ops database) s' := h.mono fun _ _ _ _ => trivial
  have hnone : ∀ i, ¬ OnFile ops s'.world.tables i := by
    rintro i ⟨sup, req, d, payload, _, _, hrow⟩
    rw [(bound_unwritten h).1, hempty] at hrow
    exact List.not_mem_nil hrow
  obtain ⟨hdelivered, hrecorded⟩ := shown_committed hreach
  refine ⟨List.eq_nil_iff_forall_not_mem.mpr fun message hmessage => ?_,
    List.eq_nil_iff_forall_not_mem.mpr fun listed hlisted => ?_,
    List.eq_nil_iff_forall_not_mem.mpr fun step hstep => hnone _ (step_committed hreach hstep)⟩
  · obtain ⟨_, _, i, _, _, _, hfile⟩ := hdelivered message hmessage
    exact hnone i hfile
  · obtain ⟨i, _, _, _, hfile⟩ := hrecorded listed hlisted
    exact hnone i hfile

end Committed

/-- Audit first: in every run on the pool, whatever fails, the database has the
audit row of the invocation for every message that has reached Redis, every
event that the bus lists and every call of the step function. That is of a server
that takes audit rows: `bound_silent` has the runs of one that does not. -/
theorem audit_committed_first (bus : EventBus) (ops : ι → Operation) (database : World) (s' : Deployment ι)
    (h : Reach (deploy bus ops database) s') :
    (∀ message ∈ s'.world.delivered, ∃ event, Encodes message event ∧ Vouched ops s'.world.tables event) ∧
    (∀ listed ∈ s'.world.recorded, Vouched ops s'.world.tables listed.2) ∧
    ∀ step ∈ s'.world.stepped, OnFile ops s'.world.tables step.1 := by
  obtain ⟨hdelivered, hrecorded⟩ := shown_committed h
  exact ⟨hdelivered, hrecorded, fun step hstep => step_committed h hstep⟩

/-- An invocation on Postgres. -/
def lone : Fin 1 → Operation := fun _ =>
  .invoke ⟨.postgres, "agent.events", 1⟩ ⟨some "t", "hi", []⟩
    ⟨"t", "r", fun _ => "c", "m", fun _ => "now", .nan⟩

/-- On Redis, up to its first checkpoint. -/
theorem audit_committed_first_lone : ∃ s', Reach (deploy .redis lone World.empty) s' ∧
    s'.world.delivered.length = 2 ∧ s'.world.stepped.length = 1 ∧ OnFile lone s'.world.tables 0 := by
  obtain ⟨s', h, hdelivered, hstepped⟩ := Pool.Reach.exists_of_exec servers Unforced
    (P := fun s' => s'.world.delivered.length = 2 ∧ s'.world.stepped.length = 1)
    (deploy .redis lone World.empty) (List.replicate 28 (0, smooth)) (by decide)
  obtain ⟨step, hstep⟩ := List.exists_mem_of_length_pos (by rw [hstepped]; exact Nat.one_pos)
  have honly : step.1 = 0 := Subsingleton.elim _ _
  exact ⟨s', h, hdelivered, hstepped,
    honly ▸ (audit_committed_first .redis lone World.empty s' h).2.2 step hstep⟩

section Holding

variable (i : ι)

/-- Whether the task has a connection, by its own calls. It takes no second one,
and gives back only what it has. -/
def holding : Contract (DriverOp ι) DriverOp.Resp Exc Bool where
  observe held e :=
    match e.op, e.result with
    | .acquire _, .ok _ => true
    | .release _, _ => false
    | _, _ => held
  rely _ _ := True
  guarantee held
    | .acquire j => j = i ∧ held = false
    | .release j => j = i ∧ held = true
    | _ => True

/-- The calls that are not about a connection. -/
def quiet : DriverOp ι → Bool
  | .acquire _ | .release _ => false
  | _ => true

omit [DecidableEq ι] in
theorem observe_quiet {e : Entry (DriverOp ι) DriverOp.Resp Exc} (h : quiet e.op = true) (held : Bool) :
    (holding i).observe held e = held := by
  obtain ⟨op, r, landed⟩ := e
  cases op <;> first | rfl | cases h

omit [DecidableEq ι] in
theorem keeps_call {S : Bool → Prop} {op : DriverOp ι} (h : quiet op = true) :
    (holding i).Keeps S (.call op) := by
  refine .call (fun held _ => ?_) fun held r landed hheld _ => ?_
  · cases op <;> trivial
  · rwa [observe_quiet i h]

omit [DecidableEq ι] in
theorem wp_leaving {α : Type} {body : Driver ι α} (h : (holding i).Keeps (· = true) body) :
    (holding i).wp (leaving i body) (fun held _ => held = false) true := by
  unfold leaving
  rw [Contract.wp_bind, Contract.wp_attempt]
  refine Contract.wp_mono _ _ _ ?_ (h.wp true rfl)
  rintro held r rfl
  rw [Contract.andThen_ok, Contract.wp_bind, Contract.wp_call]
  refine ⟨⟨rfl, rfl⟩, fun answer landed _ => ?_⟩
  cases answer with
  | ok u => cases r <;> exact rfl
  | error e => exact rfl

omit [DecidableEq ι] in
theorem keeps_locked {α : Type} {body : Driver ι α} (h : (holding i).Keeps (· = true) body) :
    (holding i).Keeps (· = false) (locked i body) := by
  constructor
  rintro held rfl
  unfold locked
  rw [Contract.wp_bind, Contract.wp_call]
  refine ⟨⟨rfl, rfl⟩, fun answer landed _ => ?_⟩
  cases answer with
  | ok u => exact wp_leaving i h
  | error e => exact rfl

omit [DecidableEq ι] in
theorem keeps_publish {S : Bool → Prop} (bus : EventBus) (channel : String) (event : Event) :
    (holding i).Keeps S (unread (bus.publish (ι := ι) channel event)) := by
  refine .bind ?_ fun _ => .ret _
  cases bus with
  | null => exact .bind (keeps_call i rfl) fun _ => .ret _
  | redis =>
    exact .bind (keeps_call i rfl) fun _ => .bind (keeps_call i rfl) fun _ =>
      .bind (keeps_call i rfl) fun _ => .bind (keeps_call i rfl) fun _ => .ret _

omit [DecidableEq ι] in
theorem keeps_behind (bus : EventBus) (op : Op) : (holding i).Keeps (· = false) (behind bus i op) := by
  cases op with
  | jsonDumps d => exact keeps_call i rfl
  | stepFn state => exact keeps_call i rfl
  | publish channel event => exact keeps_publish i bus channel event
  | execute st => exact keeps_locked i (keeps_call i rfl)
  | fetch q => exact keeps_locked i (keeps_call i rfl)

omit [DecidableEq ι] in
theorem bounded_behind (bus : EventBus) (op : Op) : (behind bus i op).Bounded 4 := by
  cases op with
  | jsonDumps d => exact (Prog.Bounded.call _).mono (by omega)
  | stepFn state => exact (Prog.Bounded.call _).mono (by omega)
  | publish channel event => exact Progress.bounded_publish bus channel event
  | execute st => exact (Progress.bounded_locked i (.call _)).mono (by omega)
  | fetch q => exact (Progress.bounded_locked i (.call _)).mono (by omega)

end Holding

/-- Whether task `i` has a connection, by what it has been answered. -/
def holds (s' : Deployment ι) (i : ι) : Bool := (holding i).after false (s'.traceOf i)

/-- The pool has lent what the tasks have. -/
structure Lent (s' : Deployment ι) : Prop where
  count : ∀ i, s'.world.holders.count i = if holds s' i then 1 else 0
  atMost : s'.world.holders.length ≤ maxSize

section Step

variable {bus : EventBus} {ops : ι → Operation} {database : World} {s' v' : Deployment ι} {i : ι}

theorem wp_task (h : Reach (deploy bus ops database) s') (i : ι) :
    (holding i).wp (s'.task i) (fun held _ => held = false) (holds s' i) :=
  h.wp_task rfl ((Contract.Keeps.subst (keeps_behind i bus) (ops i).program).wp false rfl)
    (Contract.relied_of_forall _ fun _ _ _ => trivial)

/-- What one call does to the connections that are out. -/
structure Moves (i : ι) (m m' : Server ι) (held' : Bool) : Prop where
  own : m'.holders.count i = if held' then 1 else 0
  others : ∀ j, j ≠ i → m'.holders.count j = m.holders.count j
  atMost : m'.holders.length ≤ maxSize

theorem moves_acquire {m : Server ι} (hcount : m.holders.count i = 0) (hmost : m.holders.length ≤ maxSize)
    (c : DriverChoice) : Moves i m (servers.settle m (servers.entry c m (.acquire i)))
      ((holding i).observe false (servers.entry c m (.acquire i))) := by
  have hfault (e : Exc) (landed : Bool) (h : c.fault = some (e, landed)) :
      m.answer c (.acquire i) = (.error e, false) := by
    simp only [Server.answer, h]
  have hwaits (h : c.fault = none) : m.answer c (.acquire i) =
      if m.holders.length < maxSize then (.ok (), true) else (.error .cancelled, false) := by
    simp only [Server.answer, h]
  have hrefused (e : Exc) (h : m.answer c (.acquire i) = (.error e, false)) :
      Moves i m (servers.settle m (servers.entry c m (.acquire i)))
        ((holding i).observe false (servers.entry c m (.acquire i))) := by
    rw [show servers.entry c m (.acquire i) = ⟨.acquire i, .error e, false⟩ by
      rw [Interp.entry, show servers.answer c m (.acquire i) = (.error e, false) from h]]
    exact ⟨hcount, fun _ _ => rfl, hmost⟩
  cases hc : c.fault with
  | some f => exact hrefused f.1 (hfault f.1 f.2 hc)
  | none =>
    have hanswer := hwaits hc
    by_cases hfree : m.holders.length < maxSize
    · rw [if_pos hfree] at hanswer
      rw [show servers.entry c m (.acquire i) = ⟨.acquire i, .ok (), true⟩ by
        rw [Interp.entry, show servers.answer c m (.acquire i) = (.ok (), true) from hanswer]]
      refine ⟨?_, fun j hj => ?_, ?_⟩
      · change (m.holders ++ [i]).count i = 1
        rw [List.count_append, hcount, List.count_singleton_self]
      · change (m.holders ++ [i]).count j = _
        rw [List.count_append, List.count_singleton, if_neg (by simpa using hj.symm), Nat.add_zero]
      · change (m.holders ++ [i]).length ≤ _
        rw [List.length_append]
        exact hfree
    · rw [if_neg hfree] at hanswer
      exact hrefused .cancelled hanswer

theorem moves_release {m : Server ι} (hcount : m.holders.count i = 1) (hmost : m.holders.length ≤ maxSize)
    (c : DriverChoice) : Moves i m (servers.settle m (servers.entry c m (.release i)))
      ((holding i).observe true (servers.entry c m (.release i))) := by
  have hlanded : (servers.entry c m (.release i)).landed = true := by
    change (m.answer c (.release i)).2 = true
    unfold Server.answer
    cases c.fault <;> rfl
  rw [Interp.settle, if_pos hlanded]
  refine ⟨?_, fun j hj => List.count_erase_of_ne hj, List.length_erase_le.trans hmost⟩
  change (m.holders.erase i).count i = 0
  rw [List.count_erase_self, hcount]

theorem moves_quiet {op : DriverOp ι} (hop : quiet op = true) {m : Server ι} {held : Bool}
    (hcount : m.holders.count i = if held then 1 else 0) (hmost : m.holders.length ≤ maxSize)
    (c : DriverChoice) : Moves i m (servers.settle m (servers.entry c m op))
      ((holding i).observe held (servers.entry c m op)) := by
  have hsame : (servers.settle m (servers.entry c m op)).holders = m.holders := by
    unfold Interp.settle
    split
    · cases op <;> first | rfl | cases hop
    · rfl
  rw [observe_quiet i hop]
  exact ⟨hsame ▸ hcount, fun _ _ => congrArg _ hsame, hsame ▸ hmost⟩

theorem lent_step (h : Reach (deploy bus ops database) s') (hs : Lent s') {c : DriverChoice}
    (hstep : s'.step servers i c = some v') : Lent v' := by
  obtain ⟨op, k, ht, hworld, _, hlog⟩ := Pool.step_cases servers hstep
  have hwp := wp_task h i
  rw [ht] at hwp
  have hg : (holding i).guarantee (holds s' i) op := hwp.1
  have hcount := hs.count i
  have hmoves : Moves i s'.world v'.world ((holding i).observe (holds s' i) (servers.entry c s'.world op)) := by
    rw [hworld]
    cases op with
    | acquire j =>
      obtain ⟨rfl, hfree⟩ := hg
      rw [hfree] at hcount ⊢
      exact moves_acquire hcount hs.atMost c
    | release j =>
      obtain ⟨rfl, hheld⟩ := hg
      rw [hheld] at hcount ⊢
      exact moves_release hcount hs.atMost c
    | _ => exact moves_quiet rfl hcount hs.atMost c
  refine ⟨fun j => ?_, hmoves.atMost⟩
  by_cases hj : j = i
  · subst hj
    have hholds : holds v' j = (holding j).observe (holds s' j) (servers.entry c s'.world op) := by
      rw [holds, Pool.traceOf_step_same hlog, Contract.after_append]
      rfl
    rw [hholds, hmoves.own]
  · rw [hmoves.others j hj, hs.count j, holds, holds, Pool.traceOf_step_other hlog (Ne.symm hj)]

theorem lent (h : Reach (deploy bus ops database) s') : Lent s' := by
  induction h with
  | start => exact ⟨fun i => rfl, Nat.zero_le _⟩
  | step hr _ hstep ih => exact lent_step hr ih hstep

theorem holds_of_mem (hs : Lent s') (hi : i ∈ s'.world.holders) : holds s' i = true := by
  by_contra hnot
  have hcount := hs.count i
  rw [if_neg hnot] at hcount
  exact List.count_eq_zero.mp hcount hi

/-- A task that has a connection is in the middle of a call, and its next call on
the drivers is not for another one. -/
theorem holder_goes_on (h : Reach (deploy bus ops database) s') (hi : i ∈ s'.world.holders) :
    ∃ op, (s'.task i).awaits = some op ∧ ∀ j, op ≠ .acquire j := by
  have hheld := holds_of_mem (lent h) hi
  have hwp := wp_task h i
  rw [hheld] at hwp
  cases ht : s'.task i with
  | ret r =>
    rw [ht] at hwp
    cases hwp
  | raise e =>
    rw [ht] at hwp
    cases hwp
  | await op k =>
    rw [ht] at hwp
    refine ⟨op, rfl, fun j hj => ?_⟩
    subst hj
    cases hwp.1.2

end Step

/-- The next call of task `i` is answered without waiting for another task. -/
def CanGoOn (s' : Deployment ι) (i : ι) : Prop :=
  ∃ op, (s'.task i).awaits = some op ∧ ∀ j, op = .acquire j → s'.world.holders.length < maxSize

/-- In every run on the pool, whatever fails in it: no task has two connections,
at most ten are out, and each is with a task in the middle of a call. No task
makes more calls on the drivers than its operation has, and as long as not all
tasks are over one of them can go on. So no connection is lost, and nothing waits
forever. -/
theorem pool_never_stuck (bus : EventBus) (ops : ι → Operation) (database : World) (s' : Deployment ι)
    (h : Reach (deploy bus ops database) s') :
    (s'.world.holders.Nodup ∧ s'.world.holders.length ≤ maxSize ∧
      ∀ i ∈ s'.world.holders, (s'.task i).awaits ≠ none) ∧
    (∀ i, (s'.traceOf i).length ≤ 4 * Progress.mostCalls (ops i)) ∧
    ((∃ i, (s'.task i).awaits ≠ none) → ∃ i, CanGoOn s' i) := by
  have hlent := lent h
  refine ⟨⟨?_, hlent.atMost, fun i hi => ?_⟩, fun i => ?_, ?_⟩
  · refine List.nodup_iff_count_le_one.mpr fun i => ?_
    rw [hlent.count i]
    split <;> omega
  · obtain ⟨op, hop, _⟩ := holder_goes_on h hi
    rw [hop]
    nofun
  · have hbounded : ((deploy bus ops database).task i).Bounded (4 * Progress.mostCalls (ops i)) :=
      (Progress.bounded_program (ops i)).subst (bounded_behind i bus)
    obtain ⟨left, hleft, _⟩ := h.bounded rfl hbounded
    omega
  · rintro ⟨i, hi⟩
    by_cases hfree : s'.world.holders.length < maxSize
    · obtain ⟨op, hop⟩ := Option.ne_none_iff_exists'.mp hi
      exact ⟨i, op, hop, fun _ _ => hfree⟩
    · obtain ⟨owner, howner⟩ := List.exists_mem_of_length_pos (l := s'.world.holders)
        (Nat.lt_of_lt_of_le (by decide) (Nat.le_of_not_lt hfree))
      obtain ⟨op, hop, hacquire⟩ := holder_goes_on h howner
      exact ⟨owner, op, hop, fun j hj => absurd hj (hacquire j)⟩

/-- Eleven kills, ten of which have a connection. -/
theorem pool_never_stuck_exhausted : ∃ s' : Deployment (Fin 11),
    Reach (deploy .null (fun _ => .requestKill .postgres "t" "now") World.empty) s' ∧
      s'.world.holders.length = maxSize ∧ (∃ i, CanGoOn s' i) ∧ s'.world.holders.Nodup := by
  obtain ⟨s', h, hout, hawaits⟩ := Pool.Reach.exists_of_exec servers Unforced
    (P := fun s' => s'.world.holders.length = maxSize ∧ (s'.task (10 : Fin 11)).awaits.isSome = true)
    (deploy .null (fun _ => .requestKill .postgres "t" "now") World.empty)
    ((List.finRange 10).map fun i => (i.castSucc, smooth)) (by decide)
  obtain ⟨⟨hnodup, _, _⟩, _, hgoes⟩ := pool_never_stuck .null
    (fun _ : Fin 11 => .requestKill .postgres "t" "now") World.empty s' h
  refine ⟨s', h, hout, hgoes ⟨10, fun hnone => ?_⟩, hnodup⟩
  rw [hnone] at hawaits
  cases hawaits

end NoblePort.Production
