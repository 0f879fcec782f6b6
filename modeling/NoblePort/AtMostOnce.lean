import NoblePort.AuditFirst
import NoblePort.Requests

/-!
# A request id acts at most once

Nothing keeps two invocations from being given the same request id, and a call
that raises may have taken effect. The primary key of the audit log still lets
only one of them act, and that one does nothing twice.
-/
namespace NoblePort.AtMostOnce

open Coroutine Coroutine.Contract NoblePort.Values NoblePort.Store NoblePort.ThreadState
open NoblePort.Records NoblePort.Runtime NoblePort.System NoblePort.Requests
open NoblePort.AuditFirst (acts)

variable {ι : Type} [DecidableEq ι] {ops : ι → Operation} {w₀ : World}
  {cond : Stack ι → ι → Choice → Prop} {s : Stack ι}

/-- The call has put an audit row in under the id `r`. -/
def Inserts (r : String) (e : Answered) : Prop :=
  e.failed = false ∧ ∃ jsonb row, e.op = .execute (.insertAuditLog jsonb row) ∧ row.id = r

/-- There is an audit row under the id `r`. -/
def Taken (w : World) (r : String) : Prop := ∃ row ∈ w.auditLog, row.id = r

/-- Nothing takes a row out of the audit log. -/
theorem auditLog_settle (w : World) (e : Answered) : w.auditLog <+: (interp.settle w e).auditLog := by
  obtain ⟨op, result, landed⟩ := e
  cases landed with
  | false => exact List.prefix_refl _
  | true => cases op with
    | execute st => cases st with
      | insertAuditLog jsonb new => exact List.prefix_append _ _
      | _ => exact List.prefix_refl _
    | _ => exact List.prefix_refl _

theorem Taken.settle {w : World} {r : String} (h : Taken w r) (e : Answered) :
    Taken (interp.settle w e) r := by
  obtain ⟨row, hrow, hid⟩ := h
  exact ⟨row, (auditLog_settle w e).subset hrow, hid⟩

/-- The primary key refuses a second row. -/
theorem not_inserts_of_taken {c : Choice} {w : World} {op : Op} {r : String} (h : Taken w r) :
    ¬ Inserts r (interp.entry c w op) := by
  rintro ⟨hok, jsonb, row, hop, hid⟩
  have hop' : op = .execute (.insertAuditLog jsonb row) := hop
  subst hop'
  obtain ⟨other, hother, rfl⟩ := h
  have hv := allowed_of_landed (landed_of_not_failed hok)
  simp only [World.violates, List.any_eq_false, beq_iff_eq] at hv
  exact hv other hother hid.symm

theorem taken_of_inserts {c : Choice} {w : World} {op : Op} {r : String}
    (h : Inserts r (interp.entry c w op)) : Taken (interp.settle w (interp.entry c w op)) r := by
  obtain ⟨hok, jsonb, row, hop, hid⟩ := h
  have hop' : op = .execute (.insertAuditLog jsonb row) := hop
  subst hop'
  have hl := landed_of_not_failed hok
  rw [Interp.settle, if_pos hl]
  exact ⟨row, List.mem_append_right _ (List.mem_singleton_self row), hid⟩

/-- What was taken stays taken, and so does an id that a logged call has put in. -/
theorem taken_reach (h : Reach cond (start ops w₀) s) {r : String}
    (hr : Taken w₀ r ∨ ∃ x ∈ s.log, Inserts r x.2) : Taken s.world r := by
  induction h with
  | start =>
    rcases hr with hr | ⟨x, hx, _⟩
    · exact hr
    · cases hx
  | @step s s' i c h hc hs ih =>
    obtain ⟨op, k, _, hworld, _, hlog⟩ := Pool.step_cases interp hs
    rw [hworld]
    rcases hr with hr | ⟨x, hx, hinserts⟩
    · exact (ih (.inl hr)).settle _
    · rw [hlog] at hx
      rcases List.mem_append.mp hx with hx | hx
      · exact (ih (.inr ⟨x, hx, hinserts⟩)).settle _
      · rw [List.mem_singleton.mp hx] at hinserts
        exact taken_of_inserts hinserts

/-- Of two calls that put a row in under one id, neither comes after the other. -/
theorem inserted_by (h : Reach cond (start ops w₀) s) {r : String} {x y : ι × Answered}
    (hx : x ∈ s.log) (hy : y ∈ s.log) (hxr : Inserts r x.2) (hyr : Inserts r y.2) : x.1 = y.1 := by
  induction h with
  | start => cases hx
  | @step s s' i c h hc hs ih =>
    obtain ⟨op, k, _, _, _, hlog⟩ := Pool.step_cases interp hs
    have hnew {z : ι × Answered} (hz : z ∈ s.log) (hzr : Inserts r z.2) :
        ¬ Inserts r (interp.entry c s.world op) :=
      not_inserts_of_taken (taken_reach h (.inr ⟨z, hz, hzr⟩))
    rw [hlog] at hx hy
    rcases List.mem_append.mp hx with hx | hx <;> rcases List.mem_append.mp hy with hy | hy
    · exact ih hx hy
    · rw [List.mem_singleton.mp hy] at hyr
      exact absurd hyr (hnew hx hxr)
    · rw [List.mem_singleton.mp hx] at hxr
      exact absurd hxr (hnew hy hyr)
    · rw [List.mem_singleton.mp hx, List.mem_singleton.mp hy]

theorem not_inserted_of_taken (h : Reach cond (start ops w₀) s) {r : String} (hr : Taken w₀ r)
    {x : ι × Answered} (hx : x ∈ s.log) : ¬ Inserts r x.2 := by
  induction h with
  | start => cases hx
  | @step s s' i c h hc hs ih =>
    obtain ⟨op, k, _, _, _, hlog⟩ := Pool.step_cases interp hs
    rw [hlog] at hx
    rcases List.mem_append.mp hx with hx | hx
    · exact ih hx
    · rw [List.mem_singleton.mp hx]
      exact not_inserts_of_taken (taken_reach h (.inl hr))

/-- The call has acted, or is about to. -/
def Acts (s : Stack ι) (i : ι) : Prop :=
  (∃ e ∈ s.traceOf i, acts e.op = true) ∨ ∃ op, (s.task i).awaits = some op ∧ acts op = true

/-- An invocation that acts has put its audit row in. -/
theorem row_of_acts (h : Reach cond (start ops w₀) s) {i : ι} {sup : Supervisor} {req : Request} {d : Draws}
    (hi : ops i = .invoke sup req d) (ha : Acts s i) : ∃ payload e,
      dumps (Supervisor.auditPayload req d) = .ok payload ∧ (i, e) ∈ s.log ∧ e.failed = false ∧
      e.op = .execute (.insertAuditLog (sup.db = .postgres) (AuditFirst.auditRow req d payload)) := by
  have hwp : (AuditFirst.auditContract sup req d).wp ((start ops w₀).task i) (fun _ _ => True) .fresh :=
    AuditFirst.audited_task hi
  have hrely : (AuditFirst.auditContract sup req d).Relied .fresh (s.traceOf i) :=
    AuditFirst.relied h rfl i .fresh
  obtain ⟨pre, post, payload, htr, hphase, hpayload⟩ : ∃ pre post payload, s.traceOf i = pre ++ post ∧
      (AuditFirst.auditContract sup req d).after .fresh pre = .audited payload ∧
      dumps (Supervisor.auditPayload req d) = .ok payload := by
    rcases ha with ⟨e, he, hact⟩ | ⟨op, hop, hact⟩
    · obtain ⟨pre, post, htr⟩ := List.append_of_mem he
      obtain ⟨payload, hphase, hpayload⟩ :=
        AuditFirst.audited_of_acts (h.guarantee_logged rfl hwp hrely htr) hact
      exact ⟨pre, e :: post, payload, htr, hphase, hpayload⟩
    · obtain ⟨payload, hphase, hpayload⟩ :=
        AuditFirst.audited_of_acts (h.guarantee_awaits rfl hwp hrely hop) hact
      exact ⟨s.traceOf i, [], payload, (List.append_nil _).symm, hphase, hpayload⟩
  obtain ⟨e, he, hop, hok⟩ := AuditFirst.inserted_of_audited h rfl hwp htr hphase
  have hmem : e ∈ s.traceOf i := by
    rw [htr]
    exact List.mem_append_left _ he
  exact ⟨payload, e, hpayload, Pool.mem_traceOf.mp hmem, hok, hop⟩

theorem inserts_of_acts (h : Reach cond (start ops w₀) s) {i : ι} {r : String}
    (hr : requestId (ops i) = some r) (ha : Acts s i) : ∃ e, (i, e) ∈ s.log ∧ Inserts r e := by
  cases hi : ops i with
  | requestKill db t now => rw [hi] at hr; cases hr
  | setThreadStatus db t status event now => rw [hi] at hr; cases hr
  | invoke sup req d =>
    rw [hi] at hr
    cases hr
    obtain ⟨payload, e, _, he, hok, hop⟩ := row_of_acts h hi ha
    exact ⟨e, he, hok, _, _, hop, pyOr_self _⟩

/-- In every run, whatever ids the invocations are given and whatever fails:
of all invocations with one request id at most one acts, and none does if an
audit row had that id before. -/
theorem request_id_acts_once (ops : ι → Operation) (w₀ : World) (s : Stack ι)
    (h : Reach Anyhow (start ops w₀) s) (r : String) :
    (∀ i j, requestId (ops i) = some r → requestId (ops j) = some r → Acts s i → Acts s j → i = j) ∧
    (Taken w₀ r → ∀ i, requestId (ops i) = some r → ¬ Acts s i) := by
  constructor
  · intro i j hi hj hai haj
    obtain ⟨ei, hei, hri⟩ := inserts_of_acts h hi hai
    obtain ⟨ej, hej, hrj⟩ := inserts_of_acts h hj haj
    exact inserted_by h hei hej hri hrj
  · intro htaken i hi ha
    obtain ⟨e, he, hr⟩ := inserts_of_acts h hi ha
    exact not_inserted_of_taken h htaken he hr

def oneStep (t m : String) : Operation :=
  .invoke ⟨.sqlite, "agent.events", 1⟩ ⟨some t, "hi", []⟩ ⟨"t", "r", fun _ => "c", m, fun _ => "now", .nan⟩

/-- Two invocations that were given one request id, on a thread each. -/
def twins : Fin 2 → Operation
  | 0 => oneStep "t" "m0"
  | 1 => oneStep "u" "m1"

theorem request_id_acts_once_twins : ∃ s, Reach Anyhow (start twins World.empty) s ∧
    Acts s 0 ∧ ¬ Acts s 1 := by
  obtain ⟨s, h, hacts⟩ := Pool.Reach.exists_of_exec interp Anyhow (start twins World.empty)
    (P := fun s => (s.task 0).awaits.any acts = true)
    [(0, {}), (1, {}), (0, {}), (1, {}), (0, {})] (by decide)
  obtain ⟨op, ha, hact⟩ := (Option.any_eq_true _ _).mp hacts
  have h0 : Acts s 0 := .inr ⟨op, ha, hact⟩
  refine ⟨s, h, h0, fun h1 => ?_⟩
  have hsame := (request_id_acts_once twins World.empty s h "r").1 0 1 rfl rfl h0 h1
  cases hsame

/-- What one invocation has published and measured, whether the call was told so or not. -/
structure Tally where
  starts : Nat := 0
  stepStarts : Nat := 0
  stepEnds : Nat := 0
  kills : Nat := 0
  cancels : Nat := 0
  errors : Nat := 0
  ends : Nat := 0
  metrics : Nat := 0

def Tally.sent (n : Tally) : EventType → Nat
  | .invokeStart => n.starts
  | .stepStart => n.stepStarts
  | .stepEnd => n.stepEnds
  | .invokeKilled => n.kills
  | .invokeCancelled => n.cancels
  | .invokeError => n.errors
  | .invokeEnd => n.ends

def Tally.publish (n : Tally) : EventType → Tally
  | .invokeStart => { n with starts := n.starts + 1 }
  | .stepStart => { n with stepStarts := n.stepStarts + 1 }
  | .stepEnd => { n with stepEnds := n.stepEnds + 1 }
  | .invokeKilled => { n with kills := n.kills + 1 }
  | .invokeCancelled => { n with cancels := n.cancels + 1 }
  | .invokeError => { n with errors := n.errors + 1 }
  | .invokeEnd => { n with ends := n.ends + 1 }

def Tally.note (n : Tally) (e : Answered) : Tally :=
  match e.op, e.landed with
  | .publish _ event, true => n.publish event.type
  | .execute (.insertAgentMetrics _), true => { n with metrics := n.metrics + 1 }
  | _, _ => n

/-- Nothing twice: each event comes at most once, steps are announced at most
`maxSteps` times, each before it ends, and nothing without the start event. -/
structure Frugal (maxSteps : Nat) (n : Tally) : Prop where
  starts : n.starts ≤ 1
  verdict : n.ends + n.kills ≤ n.starts
  failure : n.ends + n.cancels + n.errors ≤ n.starts
  steps : n.stepEnds ≤ n.stepStarts ∧ n.stepStarts ≤ n.stepEnds + n.starts
  bounded : n.stepStarts ≤ maxSteps
  measured : n.metrics ≤ n.starts

/-- Be frugal at every await; what returns has taken effect. -/
def frugality (maxSteps : Nat) : Contract Op Op.Resp Exc Tally where
  observe := Tally.note
  rely _ e := e.failed = false → e.landed = true
  guarantee n _ := Frugal maxSteps n

section Programs

variable {max : Nat} {n : Tally}

theorem note_silent {e : Answered} (h : silent e.op = true) (n : Tally) : n.note e = n := by
  unfold Tally.note
  split <;> first | rfl | simp_all [silent]

theorem keeps_call {op : Op} (hn : Frugal max n) (h : silent op = true) :
    (frugality max).Keeps (· = n) (.call op) := by
  refine .call ?_ ?_
  · rintro _ rfl
    exact hn
  · intro m r landed hm _
    rw [hm]
    exact note_silent h n

theorem keeps_upsert (hn : Frugal max n) (db : Dialect) (t status : String) (killed : Option Bool)
    (event : Option String) (now : String) :
    (frugality max).Keeps (· = n) (upsert db t status killed event now) :=
  Invocation.keeps_upsert _ _ _ _ _ _ (keeps_call hn rfl) fun st h => keeps_call hn (by
    cases st <;> first | rfl | cases h)

/-- A publish that raises may have published. -/
theorem wp_publish {Q : Tally → Except Exc Unit → Prop} (sup : Supervisor) (req : Request) (d : Draws)
    (type : EventType) (i : Nat) (payload : Dict) (hn : Frugal max n)
    (hok : Q (n.publish type) (.ok ())) (herror : ∀ e, Q n (.error e))
    (hlanded : ∀ e, Q (n.publish type) (.error e)) :
    (frugality max).wp (sup.publish req d type i payload) Q n := by
  refine (Contract.wp_call _ _ _ _).mpr ⟨hn, fun r landed hr => ?_⟩
  cases r with
  | ok u =>
    have hl : landed = true := hr rfl
    subst hl
    exact hok
  | error e => cases landed <;> [exact herror e; exact hlanded e]

/-- Writing a status and publishing, as at the start and at the end. -/
theorem wp_announce {Q : Tally → Except Exc Unit → Prop} (sup : Supervisor) (req : Request) (d : Draws)
    (status last : String) (type : EventType) (i : Nat) (payload : Dict) (hn : Frugal max n)
    (hok : Q (n.publish type) (.ok ())) (herror : ∀ e, Q n (.error e))
    (hlanded : ∀ e, Q (n.publish type) (.error e)) :
    (frugality max).wp (sup.setStatus req d status last >>= fun _ => sup.publish req d type i payload)
      Q n :=
  Keeps.seq (keeps_upsert hn ..) (fun _ => wp_publish sup req d type i payload hn hok herror hlanded)
    herror

theorem wp_finallyBlock {Q : Tally → Except Exc Unit → Prop} {req : Request} {d : Draws}
    {outcome : Outcome} (hn : Frugal max n) (hok : Q { n with metrics := n.metrics + 1 } (.ok ()))
    (herror : ∀ e, Q n (.error e)) (hlanded : ∀ e, Q { n with metrics := n.metrics + 1 } (.error e)) :
    (frugality max).wp (Supervisor.finallyBlock req d outcome) Q n := by
  unfold Supervisor.finallyBlock recordInvokeLatency
  rw [wp_bind, wp_bind]
  refine (Contract.wp_call _ _ _ _).mpr ⟨hn, fun r landed hr => ?_⟩
  cases r with
  | ok u =>
    have hl : landed = true := hr rfl
    subst hl
    exact hok
  | error e => cases landed <;> [exact herror e; exact hlanded e]

/-- Between two iterations, with `left` of them left. -/
def Head (max left : Nat) (n : Tally) : Prop :=
  n.starts = 1 ∧ n.stepEnds = n.stepStarts ∧ n.stepStarts + left = max ∧ n.kills = 0 ∧ n.cancels = 0 ∧
    n.errors = 0 ∧ n.ends = 0 ∧ n.metrics = 0

/-- The try body failed. -/
def Failed (max : Nat) (n : Tally) : Prop :=
  n.starts = 1 ∧ n.stepEnds ≤ n.stepStarts ∧ n.stepStarts ≤ n.stepEnds + 1 ∧ n.stepStarts ≤ max ∧
    n.kills ≤ 1 ∧ n.cancels = 0 ∧ n.errors = 0 ∧ n.ends = 0 ∧ n.metrics = 0

/-- It ended by itself. -/
def Exited (max : Nat) (outcome : Outcome) (n : Tally) : Prop :=
  Failed max n ∧ (outcome = .ok → n.kills = 0)

/-- An except clause is over. -/
def Handled (max : Nat) (n : Tally) : Prop :=
  n.starts = 1 ∧ n.stepEnds ≤ n.stepStarts ∧ n.stepStarts ≤ n.stepEnds + 1 ∧ n.stepStarts ≤ max ∧
    n.kills ≤ 1 ∧ n.cancels + n.errors ≤ 1 ∧ n.ends = 0 ∧ n.metrics = 0

/-- The latency row is in, and the end is still to be published. -/
def Closing (max : Nat) (outcome : Outcome) (n : Tally) : Prop :=
  (n.starts = 1 ∧ n.stepEnds ≤ n.stepStarts ∧ n.stepStarts ≤ n.stepEnds + 1 ∧ n.stepStarts ≤ max ∧
    n.kills ≤ 1 ∧ n.cancels = 0 ∧ n.errors = 0 ∧ n.ends = 0 ∧ n.metrics ≤ 1) ∧
  (outcome = .ok → n.kills = 0)

theorem Head.failed {left : Nat} (h : Head max left n) : Failed max n := by
  unfold Head at h
  unfold Failed
  omega

theorem Handled.frugal (h : Handled max n) : Frugal max n := by
  unfold Handled at h
  constructor <;> omega

theorem Handled.measured (h : Handled max n) : Frugal max { n with metrics := n.metrics + 1 } := by
  unfold Handled at h
  constructor <;> dsimp only <;> omega

theorem Failed.handled (h : Failed max n) : Handled max n := by
  unfold Failed at h
  unfold Handled
  omega

theorem Failed.frugal (h : Failed max n) : Frugal max n := h.handled.frugal

theorem Closing.frugal {outcome : Outcome} (h : Closing max outcome n) : Frugal max n := by
  have hcounts := h.1
  constructor <;> omega

theorem wp_iteration (sup : Supervisor) (req : Request) (d : Draws) (left i : Nat) (state : Dict)
    (parent : Option String) (h : Head max (left + 1) n) :
    (frugality max).wp (sup.iteration req d i state parent)
      (ends (fun next => match next with
        | .stop outcome _ => Exited max outcome
        | .again _ _ => Head max left) fun _ => Failed max) n := by
  have hfrugal := h.failed.frugal
  refine Keeps.seq (Invocation.keeps_isKillRequested (keeps_call hfrugal rfl)) (fun killed => ?_)
    fun _ => h.failed
  cases killed with
  | true =>
    have hkilled : Failed max (n.publish .invokeKilled) := by
      unfold Head at h
      unfold Failed Tally.publish
      dsimp only
      omega
    rw [if_pos rfl, wp_bind]
    refine wp_publish sup req d .invokeKilled i _ hfrugal ?_ (fun _ => h.failed) fun _ => hkilled
    exact Keeps.seq (keeps_upsert hkilled.frugal ..) (fun _ => ⟨hkilled, nofun⟩) fun _ => hkilled
  | false =>
    have hstep : Failed max (n.publish .stepStart) := by
      unfold Head at h
      unfold Failed Tally.publish
      dsimp only
      omega
    have hend : Head max left ((n.publish .stepStart).publish .stepEnd) := by
      unfold Head at h ⊢
      unfold Tally.publish
      dsimp only
      omega
    rw [if_neg nofun, wp_bind]
    refine wp_publish sup req d .stepStart i _ hfrugal ?_ (fun _ => h.failed) fun _ => hstep
    refine Keeps.seq (keeps_call hstep.frugal rfl) (fun next => ?_) fun _ => hstep
    refine Keeps.seq (Invocation.keeps_put (keeps_call hstep.frugal rfl) fun _ =>
      keeps_call hstep.frugal rfl) (fun cp => ?_) fun _ => hstep
    rw [wp_bind]
    refine wp_publish sup req d .stepEnd i _ hstep.frugal ?_ (fun _ => hstep) fun _ => hend.failed
    rw [andThen_ok]
    split
    · have hkills : Tally.kills _ = 0 := hend.2.2.2.1
      exact ⟨hend.failed, fun _ => hkills⟩
    · exact hend

def outline (sup : Supervisor) (req : Request) (d : Draws) :
    Invocation.Outline (frugality sup.maxSteps.toNat) sup req d (· = {})
      (fun n _ => Frugal sup.maxSteps.toNat n) where
  started := Head sup.maxSteps.toNat sup.maxSteps.toNat
  head left _ _ _ := Head sup.maxSteps.toNat left
  exit outcome _ := Exited sup.maxSteps.toNat outcome
  failed _ := Failed sup.maxSteps.toNat
  handled _ _ := Handled sup.maxSteps.toNat
  closing outcome _ := Closing sup.maxSteps.toNat outcome
  opens n hn := by
    subst hn
    have hstart : Head sup.maxSteps.toNat sup.maxSteps.toNat (Tally.publish {} .invokeStart) := by
      unfold Head Tally.publish
      dsimp only
      omega
    have hnone : Frugal sup.maxSteps.toNat {} := by constructor <;> simp
    exact wp_announce sup req d _ _ _ _ _ hnone hstart (fun _ => hnone) fun _ => hstart.failed.frugal
  resumes n hn := Invocation.ends_of_keeps
    (Invocation.keeps_getLatest (keeps_call hn.failed.frugal rfl)) rfl
    (by rintro _ _ rfl; exact hn) (by rintro _ _ rfl; exact hn.failed)
  iterates left i state parent n hn := wp_iteration sup req d left i state parent hn
  exhausted _ _ _ _ hn := ⟨hn.failed, nofun⟩
  handles e n hn := by
    have hpublish (type : EventType) (h : type = .invokeCancelled ∨ type = .invokeError) :
        Handled sup.maxSteps.toNat (n.publish type) := by
      unfold Failed at hn
      unfold Handled Tally.publish
      rcases h with rfl | rfl <;> dsimp only <;> omega
    cases e <;>
      exact wp_announce sup req d _ _ _ _ _ hn.frugal (hpublish _ (by simp)) (fun _ => hn.handled)
        fun _ => hpublish _ (by simp)
  rethrows outcome e n hn := wp_finallyBlock hn.frugal (hn.measured) (fun _ => hn.frugal) fun _ => hn.measured
  records outcome resultState n hn := by
    have hmeasured : Closing sup.maxSteps.toNat outcome { n with metrics := n.metrics + 1 } := by
      obtain ⟨hfailed, hok⟩ := hn
      unfold Failed at hfailed
      refine ⟨?_, hok⟩
      dsimp only
      omega
    exact wp_finallyBlock hn.1.frugal hmeasured (fun _ => hn.1.frugal) fun _ => hmeasured.frugal
  concludes outcome resultState n hn := by
    unfold Supervisor.conclude
    split
    · rename_i hok
      have hend : Frugal sup.maxSteps.toNat (n.publish .invokeEnd) := by
        have hkills := hn.2 hok
        have hcounts := hn.1
        constructor <;> unfold Tally.publish <;> dsimp only <;> omega
      exact wp_announce sup req d _ _ _ _ _ hn.frugal hend (fun _ => hn.frugal) fun _ => hend
    · exact hn.frugal

theorem wp_program (sup : Supervisor) (req : Request) (d : Draws) :
    (frugality sup.maxSteps.toNat).wp (Operation.invoke sup req d).program
      (fun n _ => Frugal sup.maxSteps.toNat n) {} := by
  have hnone : Frugal sup.maxSteps.toNat {} := by constructor <;> simp
  refine wp_seq _ _ _ _ (R := fun n _ => Frugal sup.maxSteps.toNat n) ?_ (fun _ _ h => h) fun _ _ h => h
  refine Keeps.seq (Invocation.keeps_audit (keeps_call hnone rfl) fun _ => keeps_call hnone rfl)
    (fun _ => ?_) fun _ => hnone
  exact Invocation.wp_proceed (outline sup req d) {} rfl

end Programs

def tallyOf (s : Stack ι) (i : ι) : Tally := (s.traceOf i).foldl Tally.note {}

theorem frugal_reach (h : Reach cond (start ops w₀) s) {i : ι} {sup : Supervisor} {req : Request}
    {d : Draws} (hi : ops i = .invoke sup req d) : Frugal sup.maxSteps.toNat (tallyOf s i) := by
  have hrely : (frugality sup.maxSteps.toNat).Relied {} (s.traceOf i) :=
    relied_of_forall _ fun e he _ hok => landed_in_trace h he hok
  have hwp := h.wp_task (i := i) rfl (show (frugality _).wp ((start ops w₀).task i) _ {} by
    simpa [start, hi] using wp_program sup req d) hrely
  cases ht : s.task i with
  | ret r => rw [ht] at hwp; exact hwp
  | raise e => rw [ht] at hwp; exact hwp
  | await op k => rw [ht] at hwp; exact hwp.1

theorem sent_note (n : Tally) (e : Answered) (type : EventType) :
    (n.note e).sent type = n.sent type + (eventsBy e).countP (·.type = type) := by
  obtain ⟨op, result, landed⟩ := e
  cases landed with
  | false => cases op <;> simp [Tally.note, eventsBy]
  | true => cases op with
    | publish channel event =>
      cases hevent : event.type <;> cases type <;>
        simp [Tally.note, Tally.publish, Tally.sent, eventsBy, hevent]
    | execute st => cases st <;> cases type <;> simp [Tally.note, Tally.sent, eventsBy]
    | _ => simp [Tally.note, eventsBy]

theorem metrics_note (n : Tally) (e : Answered) :
    (n.note e).metrics = n.metrics + (metricsBy e).length := by
  obtain ⟨op, result, landed⟩ := e
  cases landed with
  | false => cases op with
    | execute st => cases st <;> simp [Tally.note, metricsBy]
    | _ => simp [Tally.note, metricsBy]
  | true => cases op with
    | publish channel event => cases hevent : event.type <;> simp [Tally.note, Tally.publish, metricsBy, hevent]
    | execute st => cases st <;> simp [Tally.note, metricsBy]
    | _ => simp [Tally.note, metricsBy]

theorem sent_foldl (tr : List Answered) (n : Tally) (type : EventType) :
    (tr.foldl Tally.note n).sent type = n.sent type + (tr.flatMap eventsBy).countP (·.type = type) := by
  induction tr generalizing n with
  | nil => simp
  | cons e tr ih =>
    rw [List.foldl_cons, ih, sent_note, List.flatMap_cons, List.countP_append, Nat.add_assoc]

theorem metrics_foldl (tr : List Answered) (n : Tally) :
    (tr.foldl Tally.note n).metrics = n.metrics + (tr.flatMap metricsBy).length := by
  induction tr generalizing n with
  | nil => simp
  | cons e tr ih =>
    rw [List.foldl_cons, ih, metrics_note, List.flatMap_cons, List.length_append, Nat.add_assoc]

theorem settle_published (w : World) (e : Answered) :
    (interp.settle w e).published = w.published ++ eventsBy e := by
  obtain ⟨op, result, landed⟩ := e
  cases landed <;> cases op with
  | execute st => cases st <;> simp [Interp.settle, World.effect, World.apply, eventsBy]
  | _ => simp [Interp.settle, World.effect, eventsBy]

theorem settle_metrics (w : World) (e : Answered) :
    (interp.settle w e).agentMetrics = w.agentMetrics ++ metricsBy e := by
  obtain ⟨op, result, landed⟩ := e
  cases landed <;> cases op with
  | execute st => cases st <;> simp [Interp.settle, World.effect, World.apply, metricsBy]
  | _ => simp [Interp.settle, World.effect, metricsBy]

theorem published_eq (h : Reach cond (start ops w₀) s) :
    s.world.published = w₀.published ++ s.log.flatMap fun x => eventsBy x.2 := by
  induction h with
  | start => simp [start]
  | step _ _ hs ih =>
    obtain ⟨op, k, _, hworld, _, hlog⟩ := Pool.step_cases interp hs
    rw [hworld, settle_published, ih, hlog, List.flatMap_append, List.append_assoc]
    simp

theorem measured_eq (h : Reach cond (start ops w₀) s) :
    s.world.agentMetrics = w₀.agentMetrics ++ s.log.flatMap fun x => metricsBy x.2 := by
  induction h with
  | start => simp [start]
  | step _ _ hs ih =>
    obtain ⟨op, k, _, hworld, _, hlog⟩ := Pool.step_cases interp hs
    rw [hworld, settle_metrics, ih, hlog, List.flatMap_append, List.append_assoc]
    simp

/-- An event that a task has put on the bus carries the request id of the task. -/
theorem carries_iff (h : Reach cond (start ops w₀) s) {x : ι × Answered} (hx : x ∈ s.log) {event : Event}
    (hevent : event ∈ eventsBy x.2) (r : String) :
    event.carries r = true ↔ requestId (ops x.1) = some r := by
  have hc := carried h hx
  obtain ⟨i, op, result, landed⟩ := x
  cases op with
  | publish channel e =>
    obtain ⟨id, hid, hget⟩ := hc
    have hsame : event = e := by
      cases landed <;> simp [eventsBy] at hevent
      exact hevent
    subst hsame
    simp only [Event.carries, hget, hid, beq_iff_eq, Option.some.injEq]
  | execute st => cases st <;> simp [eventsBy] at hevent
  | _ => simp [eventsBy] at hevent

theorem eventId_iff (h : Reach cond (start ops w₀) s) {x : ι × Answered} (hx : x ∈ s.log)
    {row : MetricRow} (hrow : row ∈ metricsBy x.2) (r : String) :
    row.eventId = some r ↔ requestId (ops x.1) = some r := by
  have hc := carried h hx
  obtain ⟨i, op, result, landed⟩ := x
  cases op with
  | execute st => cases st with
    | insertAgentMetrics new =>
      have hsame : row = new := by
        cases landed <;> simp [metricsBy] at hrow
        exact hrow
      subst hsame
      rw [hc.1]
    | _ => simp [metricsBy] at hrow
  | _ => simp [metricsBy] at hrow

/-- What the world holds under the request id `r`. -/
def tallyOn (w : World) (r : String) : Tally :=
  let sent := fun type => (w.published.filter (·.carries r)).countP (·.type = type)
  { starts := sent .invokeStart, stepStarts := sent .stepStart, stepEnds := sent .stepEnd
    kills := sent .invokeKilled, cancels := sent .invokeCancelled, errors := sent .invokeError
    ends := sent .invokeEnd
    metrics := (w.agentMetrics.filter (·.eventId = some r)).length }

/-- The part of a log that belongs to the only task that acts under `r`. -/
theorem flatMap_sole {A : Type} {log : List (ι × Answered)} {gives : Answered → List A} {mine : A → Bool}
    {i : ι} (hmine : ∀ x ∈ log, ∀ a ∈ gives x.2, mine a = true ↔ x.1 = i) :
    (log.flatMap fun x => gives x.2).filter mine =
      (log.filterMap fun x => if x.1 = i then some x.2 else none).flatMap gives := by
  induction log with
  | nil => rfl
  | cons x log ih =>
    have htail := ih fun y hy => hmine y (List.mem_cons_of_mem _ hy)
    have hhead := hmine x (List.mem_cons_self ..)
    rw [List.flatMap_cons, List.filter_append, htail, List.filterMap_cons]
    by_cases hi : x.1 = i
    · rw [if_pos hi, List.flatMap_cons, List.filter_eq_self.mpr fun a ha => (hhead a ha).mpr hi]
    · rw [if_neg hi, List.filter_eq_nil_iff.mpr fun a ha hma => hi ((hhead a ha).mp hma), List.nil_append]

theorem acts_of_event {x : ι × Answered} (hx : x ∈ s.log) {event : Event} (h : event ∈ eventsBy x.2) :
    Acts s x.1 := by
  refine .inl ⟨x.2, Pool.mem_traceOf.mpr hx, ?_⟩
  obtain ⟨i, op, result, landed⟩ := x
  cases op with
  | publish channel e => rfl
  | execute st => cases st <;> simp [eventsBy] at h
  | _ => simp [eventsBy] at h

theorem acts_of_metric {x : ι × Answered} (hx : x ∈ s.log) {row : MetricRow} (h : row ∈ metricsBy x.2) :
    Acts s x.1 := by
  refine .inl ⟨x.2, Pool.mem_traceOf.mpr hx, ?_⟩
  obtain ⟨i, op, result, landed⟩ := x
  cases op with
  | execute st => cases st <;> first | rfl | simp [metricsBy] at h
  | _ => simp [metricsBy] at h

/-- Nothing in the world has the request id `r`. -/
def Unused (w : World) (r : String) : Prop :=
  w.published.filter (·.carries r) = [] ∧ w.agentMetrics.filter (·.eventId = some r) = []

/-- Where only `i` acts under `r`, the world holds the tally of `i` under it. -/
theorem tallyOn_eq (h : Reach cond (start ops w₀) s) {r : String} (h₀ : Unused w₀ r) {i : ι}
    (hi : requestId (ops i) = some r)
    (hsole : ∀ j, requestId (ops j) = some r → Acts s j → j = i) : tallyOn s.world r = tallyOf s i := by
  have hpublished : s.world.published.filter (·.carries r) = (s.traceOf i).flatMap eventsBy := by
    rw [published_eq h, List.filter_append, h₀.1, List.nil_append]
    refine flatMap_sole fun x hx event hevent => ⟨fun hc => ?_, fun hxi => ?_⟩
    · exact hsole x.1 ((carries_iff h hx hevent r).mp hc) (acts_of_event hx hevent)
    · exact (carries_iff h hx hevent r).mpr (hxi ▸ hi)
  have hmeasured : s.world.agentMetrics.filter (·.eventId = some r) = (s.traceOf i).flatMap metricsBy := by
    rw [measured_eq h, List.filter_append, h₀.2, List.nil_append]
    refine flatMap_sole fun x hx row hrow => ?_
    rw [decide_eq_true_eq, eventId_iff h hx hrow]
    exact ⟨fun hx' => hsole x.1 hx' (acts_of_metric hx hrow), fun hxi => hxi ▸ hi⟩
  have hsent (type : EventType) :
      ((s.traceOf i).flatMap eventsBy).countP (·.type = type) = (tallyOf s i).sent type := by
    rw [tallyOf, sent_foldl]
    cases type <;> exact (Nat.zero_add _).symm
  have hmetrics : ((s.traceOf i).flatMap metricsBy).length = (tallyOf s i).metrics := by
    rw [tallyOf, metrics_foldl]
    exact (Nat.zero_add _).symm
  simp only [tallyOn, hpublished, hmeasured, hsent, hmetrics]
  rfl

/-- Where nobody has the id, the world holds nothing under it. -/
theorem tallyOn_none (h : Reach cond (start ops w₀) s) {r : String} (h₀ : Unused w₀ r)
    (hnone : ∀ i, requestId (ops i) ≠ some r) : tallyOn s.world r = {} := by
  have hpublished : s.world.published.filter (·.carries r) = [] := by
    rw [published_eq h, List.filter_append, h₀.1, List.nil_append, List.filter_eq_nil_iff]
    intro event hmem hc
    obtain ⟨x, hx, hevent⟩ := List.mem_flatMap.mp hmem
    exact hnone x.1 ((carries_iff h hx hevent r).mp hc)
  have hmeasured : s.world.agentMetrics.filter (·.eventId = some r) = [] := by
    rw [measured_eq h, List.filter_append, h₀.2, List.nil_append, List.filter_eq_nil_iff]
    intro row hmem hr
    obtain ⟨x, hx, hrow⟩ := List.mem_flatMap.mp hmem
    exact hnone x.1 ((eventId_iff h hx hrow r).mp (of_decide_eq_true hr))
  simp only [tallyOn, hpublished, hmeasured]
  rfl

theorem Frugal.mono {max max' : Nat} {n : Tally} (h : Frugal max n) (hmax : max ≤ max') : Frugal max' n :=
  ⟨h.starts, h.verdict, h.failure, h.steps, h.bounded.trans hmax, h.measured⟩

/-- In every run, whatever ids the invocations are given and whatever fails: the
bus and the metrics table hold under a request id what one invocation may leave.
Each end of it is there at most once, no two of `end`, `cancelled` and `error`
are, and the steps are no more than one invocation has. -/
theorem effects_at_most_once (ops : ι → Operation) (w₀ : World) (s : Stack ι)
    (h : Reach Anyhow (start ops w₀) s) (r : String) (h₀ : Unused w₀ r) (max : Nat)
    (hmax : ∀ i sup req d, ops i = .invoke sup req d → d.requestId = r → sup.maxSteps.toNat ≤ max) :
    Frugal max (tallyOn s.world r) := by
  have hfrugal {i : ι} (hi : requestId (ops i) = some r)
      (hsole : ∀ j, requestId (ops j) = some r → Acts s j → j = i) : Frugal max (tallyOn s.world r) := by
    rw [tallyOn_eq h h₀ hi hsole]
    cases hop : ops i with
    | requestKill db t now => rw [hop] at hi; cases hi
    | setThreadStatus db t status event now => rw [hop] at hi; cases hi
    | invoke sup req d =>
      rw [hop] at hi
      exact (frugal_reach h hop).mono (hmax i sup req d hop (Option.some.inj hi))
  by_cases hacts : ∃ i, requestId (ops i) = some r ∧ Acts s i
  · obtain ⟨i, hi, hai⟩ := hacts
    exact hfrugal hi fun j hj haj => (request_id_acts_once ops w₀ s h r).1 j i hj hi haj hai
  · have hidle (j : ι) (hj : requestId (ops j) = some r) : ¬ Acts s j := fun ha => hacts ⟨j, hj, ha⟩
    by_cases hsome : ∃ i, requestId (ops i) = some r
    · obtain ⟨i, hi⟩ := hsome
      exact hfrugal hi fun j hj haj => absurd haj (hidle j hj)
    · rw [tallyOn_none h h₀ (not_exists.mp hsome)]
      constructor <;> simp

/-- The first of the twins runs to its end; the second loses its audit row and the bus holds one end. -/
theorem effects_at_most_once_twins : ∃ s, Reach Anyhow (start twins World.empty) s ∧
    raised s 1 = true ∧ (tallyOn s.world "r").ends = 1 ∧ Frugal 1 (tallyOn s.world "r") := by
  obtain ⟨s, h, hraised, hends⟩ := Pool.Reach.exists_of_exec interp Anyhow (start twins World.empty)
    (P := fun s => raised s 1 = true ∧ (tallyOn s.world "r").ends = 1)
    (([0, 1] ++ List.replicate 15 (0 : Fin 2) ++ [1]).map fun i =>
      (i, { step := fun state => .ok (Dict.set state "completed" (.bool true)) })) (by decide)
  refine ⟨s, h, hraised, hends, effects_at_most_once twins World.empty s h "r" ⟨rfl, rfl⟩ 1 ?_⟩
  intro i sup req d hop _
  match i with
  | 0 => cases hop; exact le_rfl
  | 1 => cases hop; exact le_rfl

end NoblePort.AtMostOnce
