import NoblePort.Durability
import NoblePort.KillFlag
import NoblePort.Standing

/-!
# A kill on file is final

Nothing takes a kill flag back. In a process that has found one on the file
every write of the row writes it again and every check sees it, so on that thread
there is never a step again.
-/
namespace NoblePort.Finality

open Coroutine NoblePort.Values NoblePort.Store NoblePort.ThreadState NoblePort.Records
open NoblePort.Runtime NoblePort.Runtime.Supervisor NoblePort.System NoblePort.Ownership
open NoblePort.Standing (SeesFlag flagOf)

section Flag

variable {ι : Type} [DecidableEq ι] {ops : ι → Operation} {w₀ : World} {t : String}
  {cond : Stack ι → ι → Choice → Prop} {s s' : Stack ι} {i : ι} {c : Choice}

/-- The flag of `t` stands, and no write of its row is on the way that would take it back. -/
structure Latched (t : String) (s : Stack ι) : Prop where
  flag : s.world.killRequested t = true
  writes : ∀ j status flag event now,
    (s.task j).awaits = some (.execute (.updateThreadState status flag event now t)) → flag.truthy = true

theorem thread_of_killed {w : World} (h : w.killRequested t = true) :
    ∃ row, w.thread t = some row ∧ row.killRequested.truthy = true := by
  unfold World.killRequested at h
  split at h
  · rename_i row hrow
    exact ⟨row, hrow, h⟩
  · cases h

omit [DecidableEq ι] in
theorem Latched.ready (h : Latched t s) : KillFlag.WriteReady ops t s := by
  obtain ⟨row, hrow, _⟩ := thread_of_killed h.flag
  intro j status flag event now ha
  refine ⟨by rw [hrow]; rfl, ?_⟩
  rw [h.writes j status flag event now ha, h.flag, Bool.true_or]

theorem latched_start (h₀ : w₀.killRequested t = true) : Latched t (start ops w₀) where
  flag := h₀
  writes j status flag event now ha := by
    have hstart : Reach Anyhow (start ops w₀) (start ops w₀) := .start
    obtain ⟨read, hread, _⟩ := KillFlag.guaranteed hstart ha
    cases hread

/-- A task that comes to its write has just read the flag. -/
theorem latched_step (h : Reach cond (start ops w₀) s) (hl : Latched t s) (hc : cond s i c)
    (hs : s.step interp i c = some s') : Latched t s' := by
  have h' := h.step hc hs
  obtain ⟨op, k, ht, hworld, htask, hlog⟩ := Pool.step_cases _ hs
  constructor
  · rw [hworld, KillFlag.step_flag h hl.ready (Pool.awaits_of_task ht), hl.flag, Bool.true_or]
  · intro j status flag event now ha
    by_cases hij : i = j
    · subst hij
      obtain ⟨read, hread, hflag⟩ := KillFlag.guaranteed h' ha
      rw [Pool.traceOf_step_same hlog, Contract.after_append, Contract.after_cons,
        Contract.after_nil] at hread
      obtain ⟨row, landed, hentry, rfl⟩ := KillFlag.observe_read hread
      obtain ⟨_, hrows⟩ := rows_of_entry hentry
      obtain ⟨row', hrow', htrue⟩ := thread_of_killed hl.flag
      have hsame : some row = some row' := hrows.trans hrow'
      rw [hflag, Option.some.inj hsame, htrue, Bool.true_or]
    · rw [htask, Function.update_of_ne (Ne.symm hij)] at ha
      exact hl.writes j status flag event now ha

theorem latched_reach (h : Reach cond (start ops w₀) s) (h₀ : w₀.killRequested t = true) : Latched t s := by
  induction h with
  | start => exact latched_start h₀
  | step h hc hs ih => exact latched_step h ih hc hs

/-- Every check of the run has seen the flag. -/
theorem seen (h : Reach cond (start ops w₀) s) (h₀ : w₀.killRequested t = true) :
    ∀ x ∈ s.log, SeesFlag t x.2 := by
  induction h with
  | start => exact List.forall_mem_nil _
  | @step s s' i c h hc hs ih =>
    obtain ⟨op, k, _, _, _, hlog⟩ := Pool.step_cases _ hs
    intro x hx
    rw [hlog] at hx
    rcases List.mem_append.mp hx with hx | hx
    · exact ih x hx
    · rw [List.mem_singleton.mp hx]
      exact Standing.sees_flag (latched_reach h h₀).flag c op

end Flag

section Programs

/-- The events of an invocation that never steps. -/
def stepless : EventType → Bool
  | .invokeStart | .invokeKilled | .invokeCancelled | .invokeError => true
  | .stepStart | .stepEnd | .invokeEnd => false

/-- Neither a step nor what comes of one. -/
def Harmless : Op → Prop
  | .stepFn _ | .execute (.insertCheckpoint _ _) => False
  | .publish _ event => stepless event.type = true
  | _ => True

/-- While its kill checks see the flag of `t`, an operation makes harmless calls only. -/
def barred (t : String) : Contract Op Op.Resp Exc Unit where
  observe _ _ := ()
  rely _ e := SeesFlag t e
  guarantee _ op := Harmless op

variable {t : String}

theorem keeps_call {op : Op} (h : Harmless op) : (barred t).Keeps (fun _ => True) (.call op) :=
  .call (fun _ _ => h) fun _ _ _ _ _ => trivial

theorem keeps_upsert (db : Dialect) (t' status : String) (killed : Option Bool) (event : Option String)
    (now : String) : (barred t).Keeps (fun _ => True) (upsert db t' status killed event now) :=
  Invocation.keeps_upsert _ _ _ _ _ _ (keeps_call trivial) fun st h => keeps_call (by
    cases st <;> trivial)

variable (sup : Supervisor) (req : Request) (d : Draws)

/-- How the step loop can end. -/
def Stopped (outcome : Outcome) : Prop := outcome ≠ .ok ∧ (1 ≤ sup.maxSteps → outcome = .killed)

theorem keeps_announce (status event : String) (type : EventType) (h : stepless type = true) (i : Nat)
    (payload : Dict) : (barred t).Keeps (fun _ => True)
      (setStatus sup req d status event >>= fun _ => publish sup req d type i payload) :=
  .bind (keeps_upsert ..) fun _ => keeps_call h

theorem wp_iteration (i : Nat) (state : Dict) (parent : Option String) :
    (barred (tid req d)).wp (iteration sup req d i state parent)
      (Contract.ends (fun next _ => ∃ state, next = .stop .killed state) fun _ _ => True) () := by
  unfold iteration
  rw [Contract.wp_bind]
  refine Contract.wp_call_seq _ trivial (fun row _ hsees => ?_) fun _ _ _ => trivial
  cases row with
  | none => cases hsees rfl
  | some row =>
    have hflag : row.killRequested.truthy = true := hsees rfl
    change (barred (tid req d)).wp (if row.killRequested.truthy then _ else _) _ _
    rw [if_pos hflag]
    refine Contract.wp_seq _ _ _ _ ((keeps_call (by exact rfl)).wp _ trivial) (fun _ _ _ => ?_) fun _ _ _ => trivial
    refine Contract.wp_seq _ _ _ _ ((keeps_upsert ..).wp _ trivial) (fun _ _ _ => ?_) fun _ _ _ => trivial
    exact ⟨state, rfl⟩

theorem keeps_finallyBlock (outcome : Outcome) :
    (barred t).Keeps (fun _ => True) (finallyBlock req d outcome) :=
  Invocation.keeps_finallyBlock (keeps_call trivial)

def outline : Invocation.Outline (barred (tid req d)) sup req d (fun _ => True)
    (fun _ r => ∀ res, r = .ok res → 1 ≤ sup.maxSteps → res.outcome = .killed) where
  started _ := True
  head n i _ _ _ := n = sup.maxSteps.toNat ∧ i = 0
  exit outcome _ _ := Stopped sup outcome
  failed _ _ := True
  handled _ _ _ := True
  closing outcome _ _ := Stopped sup outcome
  opens _ _ := Invocation.ends_of_keeps (keeps_announce sup req d _ _ _ rfl _ _) trivial
    (fun _ _ _ => trivial) fun _ _ _ _ h => by cases h
  resumes _ _ := Invocation.ends_of_keeps (Invocation.keeps_getLatest (keeps_call trivial)) trivial
    (fun _ _ _ => ⟨rfl, rfl⟩) fun _ _ _ => trivial
  iterates n i state parent _ _ := by
    refine Contract.wp_mono _ _ _ (fun _ r h => ?_) (wp_iteration sup req d i state parent)
    cases r with
    | error e => trivial
    | ok next =>
      obtain ⟨state, rfl⟩ := h
      exact ⟨by decide, fun _ => rfl⟩
  exhausted _ _ _ _ h := ⟨by decide, fun hsteps => by have := h.1; omega⟩
  handles e _ _ := by
    refine Invocation.ends_of_keeps (S := fun _ => True) ?_ trivial (fun _ _ _ => trivial) fun _ _ _ => trivial
    cases e <;> exact keeps_announce sup req d _ _ _ rfl _ _
  rethrows outcome _ _ _ := Invocation.ends_of_keeps (keeps_finallyBlock req d outcome) trivial
    (fun _ _ _ _ h => by cases h) fun _ _ _ _ h => by cases h
  records outcome _ _ h := Invocation.ends_of_keeps (keeps_finallyBlock req d outcome) trivial
    (fun _ _ _ => h) fun _ _ _ _ h => by cases h
  concludes outcome _ _ h := by
    unfold conclude
    rw [if_neg h.1]
    rintro res ⟨⟩
    exact h.2

/-- What an operation on a killed thread can return. -/
def Ended (o : Operation) (r : Except Exc Reply) : Prop :=
  ∀ sup req d, o = .invoke sup req d → 1 ≤ sup.maxSteps → ∀ reply, r = .ok reply →
    ∃ res, reply = .invoked res ∧ res.outcome = .killed

theorem wp_program (o : Operation) : (barred (threadOf o)).wp o.program (fun _ r => Ended o r) () := by
  cases o with
  | invoke sup req d =>
    have hinvoke : (barred (tid req d)).wp (sup.invoke req d)
        (fun _ r => ∀ res, r = .ok res → 1 ≤ sup.maxSteps → res.outcome = .killed) () := by
      refine Contract.wp_seq _ _ _ _ ((Invocation.keeps_audit (keeps_call trivial)
        fun _ => keeps_call trivial).wp _ trivial) (fun _ _ _ => ?_) fun _ _ _ _ h => by cases h
      exact Invocation.wp_proceed (outline sup req d) () trivial
    refine Contract.wp_seq _ _ _ _ hinvoke (fun _ res hres => ?_) fun _ _ _ _ _ _ _ _ _ h => by cases h
    rintro _ _ _ ⟨⟩ hsteps _ ⟨⟩
    exact ⟨res, rfl, hres res rfl hsteps⟩
  | requestKill db t now =>
    refine Contract.wp_mono _ _ _ (fun _ _ _ _ _ _ ho => by cases ho)
      (Contract.Keeps.wp (S := fun _ => True) ?_ () trivial)
    exact .bind (Invocation.keeps_requestKill (keeps_call trivial) (keeps_upsert ..)) fun _ => .ret _
  | setThreadStatus db t status event now =>
    refine Contract.wp_mono _ _ _ (fun _ _ _ _ _ _ ho => by cases ho)
      (Contract.Keeps.wp (S := fun _ => True) ?_ () trivial)
    exact .bind (keeps_upsert ..) fun _ => .ret _

end Programs

section Runs

variable {ι : Type} [DecidableEq ι] {ops : ι → Operation} {w₀ : World} {t : String}
  {cond : Stack ι → ι → Choice → Prop} {s : Stack ι}

theorem relied (h : Reach cond (start ops w₀) s) (h₀ : w₀.killRequested t = true) (i : ι) :
    (barred t).Relied () (s.traceOf i) :=
  Contract.relied_of_forall _ fun _ he _ => seen h h₀ _ (Pool.mem_traceOf.mp he)

omit [DecidableEq ι] in
theorem barred_start {i : ι} (ht : threadOf (ops i) = t) :
    (barred t).wp ((start ops w₀).task i) (fun _ r => Ended (ops i) r) () :=
  ht ▸ wp_program (ops i)

theorem harmless_logged (h : Reach cond (start ops w₀) s) (h₀ : w₀.killRequested t = true)
    {x : ι × Answered} (hx : x ∈ s.log) (ht : threadOf (ops x.1) = t) : Harmless x.2.op := by
  obtain ⟨pre, post, htr⟩ := List.append_of_mem (Pool.mem_traceOf.mpr hx)
  exact h.guarantee_logged rfl (barred_start ht) (relied h h₀ x.1) htr

theorem ended_reach (h : Reach cond (start ops w₀) s) (h₀ : w₀.killRequested t = true) {i : ι}
    (ht : threadOf (ops i) = t) {r : Except Exc Reply} (hr : outcomeOf s i = some r) : Ended (ops i) r :=
  wp_outcome (Q := fun _ r => Ended (ops i) r) (h.wp_task rfl (barred_start ht) (relied h h₀ i)) hr

theorem checkpoints_reach (h : Reach cond (start ops w₀) s) (h₀ : w₀.killRequested t = true) :
    s.world.checkpoints t = w₀.checkpoints t := by
  induction h with
  | start => rfl
  | @step s s' i c h hc hs ih =>
    obtain ⟨op, k, ht, hworld, _, _⟩ := Pool.step_cases _ hs
    have hop := Pool.awaits_of_task ht
    rw [hworld, Lineage.checkpoints_settle, ih]
    rcases Lineage.stored_cases c s.world op with hnone | ⟨jsonb, row, rfl, hstored, _⟩
    · rw [hnone, List.filter_nil, List.append_nil]
    · have hrow : row.threadId = threadOf (ops i) := (Ancestry.guarantee_awaited h hop).1
      have hother : row.threadId ≠ t := by
        intro heq
        exact h.guarantee_awaits rfl (barred_start (hrow.symm.trans heq)) (relied h h₀ i) hop
      rw [hstored, List.filter_cons_of_neg (by simpa using hother), List.filter_nil, List.append_nil]

theorem stepless_logged (h : Reach cond (start ops w₀) s) (h₀ : w₀.killRequested t = true)
    {x : ι × Answered} (hx : x ∈ s.log) {event : Event} (hby : event ∈ Requests.eventsBy x.2)
    (ht : event.threadId = t) : stepless event.type = true := by
  obtain ⟨pre, post, htr⟩ := List.append_of_mem (Pool.mem_traceOf.mpr hx)
  have hown := h.guarantee_logged rfl (owned_start ops w₀ x.1) (Contract.relied_of_forall _ fun _ _ _ => trivial) htr
  have hharmless := harmless_logged h h₀ hx
  obtain ⟨i, op, r, landed⟩ := x
  cases op with
  | publish channel event' =>
    obtain rfl : event = event' := by
      cases landed with
      | true => exact List.mem_singleton.mp hby
      | false => cases hby
    exact hharmless ((show event.threadId = threadOf (ops i) from hown).symm.trans ht)
  | _ => cases hby

end Runs

section Lives

open NoblePort.Drivers NoblePort.Deployed NoblePort.Durability

variable {ι : Type} [DecidableEq ι]

theorem lives_latched {disk₀ disk : World} {t : String} (h : Lives disk₀ disk)
    (h₀ : disk₀.killRequested t = true) :
    disk.killRequested t = true ∧ disk.checkpoints t = disk₀.checkpoints t := by
  induction h with
  | first => exact ⟨h₀, rfl⟩
  | next bus ops s' _ hreach ih =>
    obtain ⟨s₁, s, h₁, _, _, hcommitted, _⟩ := moment hreach
    rw [hcommitted]
    exact ⟨(latched_reach h₁ ih.1).flag, (checkpoints_reach h₁ ih.1).trans ih.2⟩

/-- What the bus got of thread `t` tells of no step. -/
def Quiet (t : String) (m : Machine ι) : Prop :=
  (∀ message ∈ m.delivered, ∃ event, Encodes message event ∧
    (event.threadId = t → stepless event.type = true)) ∧
  ∀ listed ∈ m.recorded, listed.2.threadId = t → stepless listed.2.type = true

theorem quiet_of_sent {bus : EventBus} {ops : ι → Operation} {disk : World} {t : String} {m : Machine ι}
    {s : Stack ι} (h : System.Reach Anyhow (start ops disk) s) (h₀ : disk.killRequested t = true)
    (hsent : Sent bus disk m s.past) : Quiet t m := by
  have hgot := hsent.2
  have hstepless (post : String × Event) (hpost : post ∈ posted s.log) (ht : post.2.threadId = t) :
      stepless post.2.type = true := by
    obtain ⟨x, hx, hby⟩ := exists_eventsBy hpost
    exact stepless_logged h h₀ hx hby ht
  refine ⟨fun message hmessage => ?_, fun listed hlisted => hstepless _ (mem_of_recorded hgot hlisted)⟩
  obtain ⟨post, hpost, _, hencodes⟩ := mem_of_delivered hgot hmessage
  exact ⟨post.2, hencodes, hstepless post hpost⟩

/-- Once a kill of `t` is on the file, in every later life of the process, with
any operations, any of their calls failing and crashes anywhere: the file keeps
the flag and the checkpoints of `t`, the step function is never called on `t`, the
bus hears of no step there, and an invocation on `t` that returns was killed. -/
theorem kill_on_file_is_final (disk₀ disk : World) (t : String) (hkilled : disk₀.killRequested t = true)
    (hlives : Lives disk₀ disk) (bus : EventBus) (ops : ι → Operation) (s' : Deployment ι)
    (h : Drivers.Reach (deploy bus ops disk) s') :
    s'.world.db.committed.killRequested t = true ∧
    s'.world.db.committed.checkpoints t = disk₀.checkpoints t ∧
    (∀ step ∈ s'.world.stepped, threadOf (ops step.1) ≠ t) ∧ Quiet t s'.world ∧
    ∀ i, threadOf (ops i) = t → ∀ r, (s'.task i).outcome = some r → Ended (ops i) r := by
  have hnow := lives_latched (.next bus ops s' hlives h) hkilled
  have hdisk := (lives_latched hlives hkilled).1
  obtain ⟨s₁, s, h₁, h₂, hrelated, _, _⟩ := moment h
  have hs := h₁.trans h₂
  refine ⟨hnow.1, hnow.2, fun step hstep ht => ?_, quiet_of_sent hs hdisk hrelated.shared.sent,
    fun i ht r hr => ?_⟩
  · obtain ⟨e, he, hop⟩ := hrelated.shared.stepped step hstep
    have hharmless := harmless_logged hs hdisk he ht
    rw [hop] at hharmless
    exact hharmless
  · exact ended_reach hs hdisk ht ((mirrors_of_related hrelated).ended i r hr)

/-- An invocation of `t` in a life of its own. -/
def reborn (r : String) : Fin 1 → Operation := fun _ =>
  .invoke ⟨.sqlite, "agent.events", 8⟩ ⟨some "t", "hi", []⟩
    ⟨"t", r, fun _ => "c", r, fun _ => "now", .nan⟩

/-- A process that one task runs in, up to its crash after `calls` driver calls. -/
def life (bus : EventBus) (ops : ι → Operation) (i : ι) (calls : Nat) (file : World) :
    Option (Deployment ι) :=
  (deploy bus ops file).exec drivers Unforced (List.replicate calls (i, smooth))

/-- The first process crashes once the kill is committed, before it is answered,
the second in the middle of an invocation. The third goes on to the end. -/
theorem three_lives : ((life .null lostKill 0 13 World.empty).any fun s₁ =>
    s₁.world.db.committed.killRequested "t" &&
    (life .redis (reborn "r1") 0 20 s₁.world.db.committed).any fun s₂ =>
      decide (s₂.world.db.committed.auditLog.length = 1) &&
      (life .redis (reborn "r2") 0 45 s₂.world.db.committed).any fun s₃ =>
        ((s₃.task 0).outcome.any fun r => r.isOk) && decide (s₃.world.delivered.length = 2)) = true := by
  decide

/-- A kill that the crash of its process left on the file, a life that crashes on
it, and a life in which the thread is invoked to the end. -/
theorem kill_on_file_is_final_reborn : ∃ disk₀ disk s' res, Lives World.empty disk₀ ∧
    disk₀.killRequested "t" = true ∧ Lives disk₀ disk ∧ disk.auditLog.length = 1 ∧
    Drivers.Reach (deploy .redis (reborn "r2") disk) s' ∧ s'.world.delivered.length = 2 ∧
    (s'.task 0).outcome = some (.ok (.invoked res)) ∧ res.outcome = .killed ∧
    s'.world.db.committed.killRequested "t" = true := by
  obtain ⟨s₁, h₁, hrun⟩ := (Option.any_eq_true _ _).mp three_lives
  obtain ⟨hkilled, hrun⟩ := Bool.and_eq_true_iff.mp hrun
  obtain ⟨s₂, h₂, hrun⟩ := (Option.any_eq_true _ _).mp hrun
  obtain ⟨haudited, hrun⟩ := Bool.and_eq_true_iff.mp hrun
  obtain ⟨s₃, h₃, hrun⟩ := (Option.any_eq_true _ _).mp hrun
  obtain ⟨hended, hdelivered⟩ := Bool.and_eq_true_iff.mp hrun
  obtain ⟨r, hr, hok⟩ := (Option.any_eq_true _ _).mp hended
  have hfirst : Lives World.empty s₁.world.db.committed := .next .null lostKill s₁ .first (.of_picks h₁)
  have hsecond : Lives s₁.world.db.committed s₂.world.db.committed :=
    .next .redis (reborn "r1") s₂ .first (.of_picks h₂)
  have hthird : Drivers.Reach (deploy .redis (reborn "r2") s₂.world.db.committed) s₃ := .of_picks h₃
  obtain ⟨hflag, _, _, _, hends⟩ :=
    kill_on_file_is_final _ _ "t" hkilled hsecond .redis (reborn "r2") s₃ hthird
  cases r with
  | error e => cases hok
  | ok reply =>
    obtain ⟨res, rfl, houtcome⟩ := hends 0 rfl _ hr _ _ _ rfl (by decide) reply rfl
    exact ⟨_, _, s₃, res, hfirst, hkilled, hsecond, of_decide_eq_true haudited, hthird,
      of_decide_eq_true hdelivered, hr, houtcome, hflag⟩

end Lives

section Acknowledged

open NoblePort.Drivers NoblePort.Deployed NoblePort.Durability
open NoblePort.KillFlag (sets clears killTarget killsLanded)

/-- Some write of a true flag into the row of `t` was answered without an exception. -/
def told (t : String) : Contract Op Op.Resp Exc Bool where
  observe b e := b || (sets t e.op && !e.failed)
  rely _ _ := True
  guarantee _ _ := True

theorem upsert_told (db : Dialect) (t now : String) {α : Type} (f : Unit → Async α)
    (Q : Bool → Except Exc α → Prop) (b : Bool) (herror : ∀ b e, Q b (.error e))
    (hf : (told t).wp (f ()) Q true) :
    (told t).wp (upsert db t "kill_requested" (some true) (some "kill_requested") now >>= f) Q b := by
  rw [upsert_eq, Contract.wp_bind]
  refine Contract.wp_call_seq _ trivial (fun existing _ _ => ?_) fun e _ _ => herror _ e
  have hset : sets t (.execute (upsertStmt db t "kill_requested" (some true)
      (some "kill_requested") now existing)) = true := by
    cases existing <;> cases db <;> simp [upsertStmt, sets]
  rw [Contract.wp_call]
  refine ⟨trivial, fun r landed _ => ?_⟩
  cases r with
  | error e => exact herror _ e
  | ok u => simpa [told, hset, Entry.failed] using hf

theorem requestKill_told (db : Dialect) (t now : String) :
    (told t).wp (Operation.requestKill db t now).program (fun b r => ∀ reply, r = .ok reply → b = true)
      false := by
  simp only [Operation.program, requestKill]
  rw [Contract.wp_bind]
  refine Contract.wp_call_seq _ trivial (fun existing _ _ => ?_) fun _ _ _ _ h => by cases h
  cases existing <;> exact upsert_told db t now _ _ _ (fun _ _ _ h => by cases h) fun _ _ => rfl

theorem after_told (t : String) (tr : List Answered) (b : Bool) :
    (told t).after b tr = (b || tr.any fun e => sets t e.op && !e.failed) := by
  induction tr generalizing b with
  | nil => simp
  | cons e tr ih =>
    rw [Contract.after_cons, ih]
    simp [told, Bool.or_assoc]

variable {ι : Type} [DecidableEq ι] {ops : ι → Operation} {w₀ : World} {t : String}
  {cond : Stack ι → ι → Choice → Prop} {s : Stack ι}

/-- A kill that has returned was told that its write is done. -/
theorem told_of_returned (h : System.Reach cond (start ops w₀) s) {i : ι} (hi : killTarget (ops i) = some t)
    {reply : Reply} (hr : outcomeOf s i = some (.ok reply)) :
    ∃ e, (i, e) ∈ s.log ∧ sets t e.op = true ∧ e.failed = false := by
  have hwp : (told t).wp ((start ops w₀).task i) (fun b r => ∀ reply, r = .ok reply → b = true) false := by
    cases hop : ops i with
    | requestKill db t' now =>
      rw [hop] at hi
      cases hi
      simpa [start, hop] using requestKill_told db t now
    | _ => simp [hop, killTarget] at hi
  have hafter := wp_outcome (h.wp_task rfl hwp (Contract.relied_of_forall _ fun _ _ _ => trivial)) hr reply rfl
  rw [after_told, Bool.false_or, List.any_eq_true] at hafter
  obtain ⟨e, he, htold⟩ := hafter
  rw [Bool.and_eq_true, Bool.not_eq_true'] at htold
  exact ⟨e, Pool.mem_traceOf.mp he, htold⟩

/-- Where kills are all that is done on `t`, nothing disturbs them. -/
theorem undisturbed (honly : ∀ i, threadOf (ops i) = t → killTarget (ops i) = some t)
    (h : System.Reach Anyhow (start ops w₀) s) : System.Reach (KillFlag.Undisturbed ops t) (start ops w₀) s := by
  induction h with
  | start => exact .start
  | @step s s' i c h hc hs ih =>
    refine .step ih (fun _ _ j hclears => ?_) hs
    obtain ⟨op, ha, hclear⟩ := (Option.any_eq_true _ _).mp hclears
    have hown := h.guarantee_awaits rfl (owned_start ops w₀ j) (Contract.relied_of_forall _ fun _ _ _ => trivial) ha
    have hwrites := KillFlag.guaranteed h ha
    unfold clears at hclear
    split at hclear
    · rename_i status flag event now t'
      rw [Bool.and_eq_true, beq_iff_eq] at hclear
      obtain ⟨rfl, hfalse⟩ := hclear
      obtain ⟨read, _, hflag⟩ := hwrites
      have hthread : t' = threadOf (ops j) := hown
      rw [honly j hthread.symm] at hflag
      simp [hflag] at hfalse
    · cases hclear

/-- As long as kills are all that a process does on `t`, the kill is on the file
once one of them has returned, whatever fails and wherever the process stops. -/
theorem returned_kill_is_on_file (bus : EventBus) (ops : ι → Operation) (file : World) (s' : Deployment ι)
    (h : Drivers.Reach (deploy bus ops file) s') (t : String)
    (honly : ∀ i, threadOf (ops i) = t → killTarget (ops i) = some t) (i : ι)
    (hi : killTarget (ops i) = some t) (reply : Reply) (hr : (s'.task i).outcome = some (.ok reply)) :
    s'.world.db.committed.killRequested t = true := by
  obtain ⟨s₁, s, h₁, h₂, hrelated, hcommitted, hack⟩ := moment h
  obtain ⟨e, he, hsets, hok⟩ := told_of_returned (h₁.trans h₂) hi ((mirrors_of_related hrelated).ended i _ hr)
  have hst : ∃ st, e.op = .execute st := by
    cases hop : e.op <;> rw [hop] at hsets <;> first | exact ⟨_, rfl⟩ | cases hsets
  have hlogged := hack (i, e) he ⟨hok, hst⟩
  have hlanded : e.landed = true := h₁.log_forall (P := fun e => e.failed = false → e.landed = true)
    (fun _ _ _ _ _ => landed_of_not_failed) (by simp [start]) _ hlogged hok
  rw [hcommitted]
  change s₁.world.killRequested t = true
  rw [KillFlag.flag_eq (undisturbed honly h₁), Bool.or_eq_true]
  exact .inr (List.any_eq_true.mpr ⟨(i, e), hlogged, by simp [killsLanded, hi, hsets, hlanded]⟩)

/-- The kill of a thread that nobody has seen yet. -/
theorem returned_kill_is_on_file_lone : ∃ s' reply,
    Drivers.Reach (deploy .null lostKill World.empty) s' ∧ (s'.task 0).outcome = some (.ok reply) ∧
    s'.world.db.committed.killRequested "t" = true := by
  obtain ⟨s', h, hended⟩ := Pool.Reach.exists_of_exec drivers Unforced (deploy .null lostKill World.empty)
    (P := fun s' => ((s'.task 0).outcome.any fun r => r.isOk) = true) (List.replicate 14 (0, smooth)) (by decide)
  obtain ⟨r, hr, hok⟩ := (Option.any_eq_true _ _).mp hended
  cases r with
  | error e => cases hok
  | ok reply => exact ⟨s', reply, h, hr, returned_kill_is_on_file .null lostKill World.empty s' h "t"
      (fun _ _ => rfl) 0 rfl reply hr⟩

end Acknowledged

end NoblePort.Finality
