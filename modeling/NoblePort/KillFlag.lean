import Mathlib.Data.Fintype.Basic
import NoblePort.System
import NoblePort.Invocation

/-!
# The kill flag under interleaving

`_upsert` reads a row and writes it back at a later await, so the flag it
writes is the flag of the read. The flag stays set exactly as long as no kill
lands inside such a gap.
-/
namespace NoblePort.KillFlag

open Coroutine NoblePort.Values NoblePort.Store NoblePort.ThreadState NoblePort.Records
open NoblePort.Runtime NoblePort.System

/-- The last answered call, when it read a thread row: the thread and its flag. -/
abbrev Read := Option (String × Bool)

/-- Every write of a thread row carries the flag of the read just before it,
raised to true where the row is that of the thread `kill`. -/
def upsertContract (kill : Option String) : Contract Op Op.Resp Exc Read where
  observe _ e :=
    match e with
    | ⟨.fetch (.threadKillRequested t), .ok (some row), _⟩ => some (t, row.killRequested.truthy)
    | _ => none
  rely _ _ := True
  guarantee s op :=
    match op with
    | .execute (.updateThreadState _ flag _ _ t) =>
      ∃ read, s = some (t, read) ∧ flag.truthy = (read || kill == some t)
    | .execute (.insertThreadState row) => row.killRequested.truthy = (kill == some row.threadId)
    | _ => True

/-- Nothing is assumed of what was read before. -/
abbrev Anywhere : Read → Prop := fun _ => True

theorem keeps_upsert (db : Dialect) (t status : String) (killed : Option Bool)
    (event : Option String) (now : String) (kill : Option String)
    (h : killed = none ∧ kill = none ∨ killed = some true ∧ kill = some t) :
    (upsertContract kill).Keeps Anywhere (upsert db t status killed event now) := by
  constructor
  intro s _
  rw [upsert_eq]
  refine Contract.wp_call_seq _ trivial (fun existing _ _ => ?_) fun _ _ _ => trivial
  rw [Contract.wp_call]
  refine ⟨?_, fun _ _ _ => trivial⟩
  rcases h with ⟨rfl, rfl⟩ | ⟨rfl, rfl⟩ <;>
    cases existing <;> cases db <;> simp [upsertContract, upsertStmt]

theorem keeps_call {kill : Option String} {op : Op} (h : Invocation.plain op = true) :
    (upsertContract kill).Keeps Anywhere (.call op) := by
  refine .call (fun s _ => ?_) fun _ _ _ _ _ => trivial
  cases op with
  | execute st => cases st with
    | insertThreadState row => cases h
    | updateThreadState status flag event now t => cases h
    | _ => trivial
  | _ => trivial

theorem keeps_requestKill (db : Dialect) (t now : String) :
    (upsertContract (some t)).Keeps Anywhere (requestKill db t now) :=
  Invocation.keeps_requestKill (keeps_call rfl) (keeps_upsert _ _ _ _ _ _ _ (.inr ⟨rfl, rfl⟩))

/-- The thread an operation requests to kill. -/
def killTarget : Operation → Option String
  | .requestKill _ t _ => some t
  | _ => none

theorem keeps_program (op : Operation) :
    (upsertContract (killTarget op)).Keeps Anywhere op.program := by
  cases op with
  | invoke sup req d =>
    have haudit : (upsertContract none).Keeps Anywhere (sup.audit req d) :=
      Invocation.keeps_audit (keeps_call rfl)
        fun _ => .call (fun _ _ => trivial) fun _ _ _ _ _ => trivial
    exact .bind (.bind haudit fun _ => Invocation.keeps_proceed (.of_calls
      (fun _ _ => keeps_upsert _ _ _ _ _ _ _ (.inl ⟨rfl, rfl⟩)) fun _ => keeps_call)) fun _ => .ret _
  | requestKill db t now => exact .bind (keeps_requestKill db t now) fun _ => .ret _
  | setThreadStatus db t status event now =>
    exact .bind (keeps_upsert _ _ _ _ _ _ _ (.inl ⟨rfl, rfl⟩)) fun _ => .ret _

/-- The call writes a false flag into the row of `t`. -/
def clears (t : String) : Op → Bool
  | .execute (.updateThreadState _ flag _ _ t') => t' == t && !flag.truthy
  | _ => false

/-- The call writes a true flag into the row of `t`. -/
def sets (t : String) : Op → Bool
  | .execute (.updateThreadState _ flag _ _ t') => t' == t && flag.truthy
  | .execute (.insertThreadState row) => row.threadId == t && row.killRequested.truthy
  | _ => false

/-- A `request_kill(t)` that returns has set the flag. -/
def wroteContract (t : String) : Contract Op Op.Resp Exc Bool where
  observe s e := s || (sets t e.op && e.landed)
  rely _ e := e.failed = false → e.landed = true
  guarantee _ _ := True

theorem upsert_wrote (db : Dialect) (t now : String) {α : Type} (f : Unit → Async α)
    (Q : Bool → Except Exc α → Prop) (s : Bool) (herror : ∀ s e, Q s (.error e))
    (hf : (wroteContract t).wp (f ()) Q true) :
    (wroteContract t).wp
      (upsert db t "kill_requested" (some true) (some "kill_requested") now >>= f) Q s := by
  rw [upsert_eq, Contract.wp_bind]
  refine Contract.wp_call_seq _ trivial (fun existing _ _ => ?_) fun e _ _ => herror _ e
  rw [Contract.wp_call]
  refine ⟨trivial, ?_⟩
  intro r landed hl
  cases r with
  | error e => exact herror _ e
  | ok u =>
    have hset : sets t (.execute (upsertStmt db t "kill_requested" (some true)
        (some "kill_requested") now existing)) = true := by
      cases existing <;> cases db <;> simp [upsertStmt, sets]
    have hlanded : landed = true := hl rfl
    simpa [wroteContract, hset, hlanded] using hf

theorem requestKill_wrote (db : Dialect) (t now : String) :
    (wroteContract t).wp (Operation.requestKill db t now).program
      (fun s r => ∀ reply, r = .ok reply → s = true) false := by
  simp only [Operation.program, requestKill]
  rw [Contract.wp_bind]
  refine Contract.wp_call_seq _ trivial (fun existing _ _ => ?_) fun _ _ _ => nofun
  cases existing <;>
    exact upsert_wrote db t now _ _ _ (fun _ _ => nofun) (fun _ _ => rfl)

variable {ι : Type} [DecidableEq ι] {ops : ι → Operation} {t : String} {w₀ : World}

/-- No `request_kill(t)` writes while another call stands between its read of
the row of `t` and its write of a false flag. -/
def Undisturbed (ops : ι → Operation) (t : String) (s : Stack ι) (i : ι) (_ : Choice) : Prop :=
  killTarget (ops i) = some t → (s.task i).awaits.any (sets t) → ∀ j, ¬ (s.task j).awaits.any (clears t)

/-- What a suspended write of the row of `t` knows of the row. -/
def WriteReady (ops : ι → Operation) (t : String) (s : Stack ι) : Prop :=
  ∀ j status flag event now,
    (s.task j).awaits = some (.execute (.updateThreadState status flag event now t)) →
    (s.world.thread t).isSome ∧ flag.truthy = (s.world.killRequested t || killTarget (ops j) == some t)

theorem observe_read {kill : Option String} {s : Read} {e : Answered} {t : String} {read : Bool}
    (h : (upsertContract kill).observe s e = some (t, read)) :
    ∃ row landed, e = ⟨.fetch (.threadKillRequested t), .ok (some row), landed⟩ ∧
      read = row.killRequested.truthy := by
  simp only [upsertContract] at h
  split at h
  · simp only [Option.some.injEq, Prod.mk.injEq] at h
    obtain ⟨rfl, rfl⟩ := h
    exact ⟨_, _, rfl, rfl⟩
  · cases h

/-- What a task is about to write is guaranteed by its program. -/
theorem guaranteed {cond : Stack ι → ι → Choice → Prop} {s : Stack ι} (h : Reach cond (start ops w₀) s)
    {i : ι} {op : Op} (ha : (s.task i).awaits = some op) :
    (upsertContract (killTarget (ops i))).guarantee
      ((upsertContract (killTarget (ops i))).after none (s.traceOf i)) op :=
  h.guarantee_awaits rfl (Contract.wp_mono _ _ _ (fun _ _ _ => trivial)
    ((keeps_program (ops i)).wp none trivial))
    (Contract.relied_of_forall _ fun _ _ _ => trivial) ha

section Steps

variable {cond : Stack ι → ι → Choice → Prop} {s s' : Stack ι} {i : ι} {c : Choice}

/-- One step sets the flag exactly when it is a landed write of a kill of `t`. -/
theorem step_flag (h : Reach cond (start ops w₀) s) (hw : WriteReady ops t s) {op : Op}
    (ha : (s.task i).awaits = some op) :
    (interp.settle s.world (interp.entry c s.world op)).killRequested t =
      (s.world.killRequested t ||
        (killTarget (ops i) == some t && sets t op && (interp.entry c s.world op).landed)) := by
  have hg := guaranteed h ha
  unfold Interp.settle
  cases hl : (interp.entry c s.world op).landed with
  | false => simp
  | true =>
    cases op with
    | execute st =>
      have hv := allowed_of_landed hl
      cases st with
      | insertThreadState row =>
        simp only [upsertContract] at hg
        simp only [if_true, Interp.entry, interp_effect, World.effect, sets, Bool.and_true]
        rw [World.killRequested_insert _ _ _ hv, hg]
        by_cases ht : row.threadId = t
        · subst ht
          simp [World.killRequested, World.violates_thread hv]
        · simp [ht]
      | updateThreadState status flag event now t' =>
        simp only [if_true, Interp.entry, interp_effect, World.effect, sets, Bool.and_true]
        by_cases ht : t' = t
        · subst ht
          obtain ⟨hrow, hflag⟩ := hw i status flag event now ha
          rw [World.killRequested_update _ _ _ _ _ _ _ hrow, hflag]
          cases killTarget (ops i) == some t' <;> simp
        · rw [World.killRequested_update_other _ _ _ _ _ _ _ ht]
          simp [ht]
      | _ => simp [Interp.entry, World.effect, World.apply, World.killRequested, World.thread, sets]
    | _ => simp [Interp.entry, World.effect, World.killRequested, World.thread, sets]

/-- Suspended writes stay in step with the row across an undisturbed step. -/
theorem step_writeReady (h : Reach (Undisturbed ops t) (start ops w₀) s) (hw : WriteReady ops t s)
    (hu : Undisturbed ops t s i c) (hs : s.step interp i c = some s') : WriteReady ops t s' := by
  have h' := h.step hu hs
  obtain ⟨op, k, ht, hworld, htask, hlog⟩ := Pool.step_cases _ hs
  have ha := Pool.awaits_of_task ht
  intro j status flag event now haw
  by_cases hij : i = j
  · subst hij
    -- the step of the task itself was the read that precedes its write
    obtain ⟨read, hread, hflag⟩ := guaranteed h' haw
    rw [Pool.traceOf_step_same hlog, Contract.after_append, Contract.after_cons,
      Contract.after_nil] at hread
    obtain ⟨row, landed, hentry, rfl⟩ := observe_read hread
    obtain ⟨hop, hrows⟩ := rows_of_entry hentry
    subst hop
    have hrow : s.world.thread t = some row := hrows.symm
    have hsame : s'.world = s.world := by
      rw [hworld]
      unfold Interp.settle
      split <;> rfl
    rw [hsame]
    refine ⟨by simp [hrow], ?_⟩
    rw [hflag]
    simp [World.killRequested, hrow]
  · rw [htask, Function.update_of_ne (Ne.symm hij)] at haw
    obtain ⟨hrow, hflag⟩ := hw j status flag event now haw
    rw [hworld]
    refine ⟨World.thread_settle_isSome hrow, ?_⟩
    rw [step_flag h hw ha, hflag]
    cases hk : killTarget (ops i) == some t && sets t op with
    | false => simp
    | true =>
      -- a kill lands: by assumption no write of a false flag is suspended
      simp only [Bool.and_eq_true, beq_iff_eq] at hk
      have hclear := hu hk.1 (by simp [ha, hk.2]) j
      simp only [haw, Option.any_some, clears, BEq.rfl, Bool.true_and, Bool.not_eq_true',
        Bool.not_eq_false] at hclear
      rw [hflag] at hclear
      cases hr : s.world.killRequested t with
      | true => simp
      | false =>
        have hkill : killTarget (ops j) = some t := by simpa [hr] using hclear
        simp [hkill]

end Steps

theorem reach_writeReady {s : Stack ι} (h : Reach (Undisturbed ops t) (start ops w₀) s) :
    WriteReady ops t s := by
  induction h with
  | start =>
    intro j status flag event now ha
    have hstart : Reach (Undisturbed ops t) (start ops w₀) (start ops w₀) := .start
    obtain ⟨read, hread, _⟩ := guaranteed hstart ha
    cases hread
  | step h hu hs ih => exact step_writeReady h ih hu hs

/-- The answered call of task `x.1` is a kill of `t` that took effect. -/
def killsLanded (ops : ι → Operation) (t : String) (x : ι × Answered) : Bool :=
  killTarget (ops x.1) == some t && sets t x.2.op && x.2.landed

theorem flag_eq {s : Stack ι} (h : Reach (Undisturbed ops t) (start ops w₀) s) :
    s.world.killRequested t = (w₀.killRequested t || s.log.any (killsLanded ops t)) := by
  induction h with
  | start => simp [start]
  | step h hu hs ih =>
    obtain ⟨op, k, ht, hworld, _, hlog⟩ := Pool.step_cases _ hs
    rw [hworld, hlog, step_flag h (reach_writeReady h) (by rw [ht]; rfl), ih, List.any_append,
      Bool.or_assoc]
    simp [killsLanded, Interp.entry]

/-- A `request_kill(t)` that returned left its write in the log. -/
theorem killsLanded_of_returned {cond : Stack ι → ι → Choice → Prop} {s : Stack ι}
    (h : Reach cond (start ops w₀) s) {i : ι} (hi : killTarget (ops i) = some t)
    (hr : returned s i = true) : s.log.any (killsLanded ops t) = true := by
  have hrely : (wroteContract t).Relied false (s.traceOf i) := by
    apply Contract.relied_of_forall
    intro e he _
    refine h.log_forall (P := fun e => e.failed = false → e.landed = true) ?_ (by simp [start]) _
      (Pool.mem_traceOf.mp he)
    exact fun _ _ _ _ _ => landed_of_not_failed
  have hwp : (wroteContract t).wp ((start ops w₀).task i)
      (fun s r => ∀ reply, r = .ok reply → s = true) false := by
    cases hop : ops i with
    | requestKill db t' now =>
      rw [hop] at hi
      cases hi
      simpa [start, hop] using requestKill_wrote db t now
    | _ => simp [hop, killTarget] at hi
  have hend := h.wp_task rfl hwp hrely
  cases ht : s.task i with
  | ret r =>
    rw [ht] at hend
    have hafter : (wroteContract t).after false (s.traceOf i) = true := hend r rfl
    have hany : ∀ (tr : List Answered) (b : Bool), (wroteContract t).after b tr =
        (b || tr.any fun e => sets t e.op && e.landed) := by
      intro tr
      induction tr with
      | nil => simp
      | cons e tr ih =>
        intro b
        rw [Contract.after_cons, ih]
        simp [wroteContract, Bool.or_assoc]
    rw [hany, Bool.false_or, List.any_eq_true] at hafter
    obtain ⟨e, he, hsets⟩ := hafter
    refine List.any_eq_true.mpr ⟨(i, e), Pool.mem_traceOf.mp he, ?_⟩
    simpa [killsLanded, hi] using hsets
  | raise e => simp [returned, ht] at hr
  | await op k => simp [returned, ht] at hr

/-- In every run in which no kill of `t` lands inside a gap, a returned
`request_kill(t)` leaves the flag set in every later state, and the flag is
not set before a kill has written. -/
theorem kill_flag_sticky (ops : ι → Operation) (t : String) (w₀ : World)
    (h₀ : w₀.killRequested t = false) (s : Stack ι) (h : Reach (Undisturbed ops t) (start ops w₀) s) :
    (∀ i, killTarget (ops i) = some t → returned s i = true →
      ∀ s', Reach (Undisturbed ops t) s s' → s'.world.killRequested t = true) ∧
    (s.world.killRequested t = true → ∃ x ∈ s.log, killsLanded ops t x = true) := by
  constructor
  · intro i hi hr s' h'
    obtain ⟨x, hx, hkill⟩ := List.any_eq_true.mp (killsLanded_of_returned h hi hr)
    rw [flag_eq (h.trans h'), Bool.or_eq_true]
    exact .inr (List.any_eq_true.mpr ⟨x, h'.log_prefix.subset hx, hkill⟩)
  · intro hflag
    rw [flag_eq h, h₀, Bool.false_or] at hflag
    exact List.any_eq_true.mp hflag

instance [Fintype ι] (s : Stack ι) (i : ι) (c : Choice) : Decidable (Undisturbed ops t s i c) :=
  inferInstanceAs (Decidable (_ → _ → ∀ _, ¬ _))

/-- A status update and a kill that overlap, and a status update after the kill. -/
def overlapping : Fin 3 → Operation
  | 0 => .setThreadStatus .sqlite "t" "running" none "0"
  | 1 => .requestKill .sqlite "t" "1"
  | 2 => .setThreadStatus .sqlite "t" "completed" none "2"

/-- The kill has begun when the first update writes; the last update has all of
its awaits after it. -/
theorem kill_flag_sticky_overlapping :
    ∃ s, Reach (Undisturbed overlapping "t") (start overlapping World.empty) s ∧
      s.log.map Prod.fst = [0, 1, 0, 1, 1, 2, 2] ∧ returned s 1 = true ∧
      (s.world.thread "t").map ThreadRow.status = some "completed" ∧ s.world.killRequested "t" = true ∧
      ∃ x ∈ s.log, killsLanded overlapping "t" x = true := by
  obtain ⟨s, h, horder, hkilled, hstatus⟩ := Pool.Reach.exists_of_exec
    interp (Undisturbed overlapping "t") (start overlapping World.empty)
    (P := fun s => s.log.map Prod.fst = [0, 1, 0, 1, 1, 2, 2] ∧ returned s 1 = true ∧
      (s.world.thread "t").map ThreadRow.status = some "completed") (turns [0, 1, 0, 1, 1, 2, 2]) (by decide)
  obtain ⟨hsticky, hwrote⟩ := kill_flag_sticky overlapping "t" World.empty rfl s h
  have hflag := hsticky 1 rfl hkilled s .start
  exact ⟨s, h, horder, hkilled, hstatus, hflag, hwrote hflag⟩

/-- Two status updates and a kill; the second update reads the row before the kill. -/
def lostUpdate : Fin 3 → Operation
  | 0 => .setThreadStatus .sqlite "t" "running" none "0"
  | 1 => .setThreadStatus .sqlite "t" "completed" none "1"
  | 2 => .requestKill .sqlite "t" "2"

/-- Without a failing step a returned kill can be lost. -/
theorem kill_flag_lost :
    ∃ s, Reach Succeeds (start lostUpdate World.empty) s ∧
      returned s 2 = true ∧ s.world.killRequested "t" = false :=
  Pool.Reach.exists_of_exec interp _ _
    [(0, {}), (0, {}), (1, {}), (2, {}), (2, {}), (2, {}), (1, {})] (by decide)

end NoblePort.KillFlag
