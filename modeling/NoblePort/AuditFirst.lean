import Mathlib.Data.List.Induction
import NoblePort.System
import NoblePort.Invocation

/-!
# Audit first

An invocation passes its audit row before it does anything else, and the row
stays as it is. Other invocations and kills may run in between, and any call
may raise or be cancelled.
-/
namespace NoblePort.AuditFirst

open Coroutine NoblePort.Values NoblePort.Store NoblePort.ThreadState NoblePort.Records
open NoblePort.Runtime NoblePort.System

/-- The actions the audit row has to precede. -/
def acts : Op → Bool
  | .publish _ _ => true
  | .stepFn _ => true
  | .execute (.insertAuditLog _ _) => false
  | .execute _ => true
  | _ => false

def insertsAudit : Op → Bool
  | .execute (.insertAuditLog _ _) => true
  | _ => false

/-- `insert_audit` raised: one of its two calls, which come first, did. -/
def auditRaised (tr : List Answered) : Bool := (tr.take 2).any Entry.failed

/-- How far an invocation has come with its audit row: nothing is encoded, the
payload is encoded, the row is inserted, or `insert_audit` has raised. -/
inductive Phase where
  | fresh
  | encoded (payload : JsonObject)
  | audited (payload : JsonObject)
  | refused

def auditRow (req : Request) (d : Draws) (payload : JsonObject) : AuditRow :=
  ⟨pyOr (some d.requestId) d.requestId, "agent.invoke.requested", payload,
    some (Supervisor.tid req d), some s!"agent invoke requested for thread {Supervisor.tid req d}",
    d.now .audit⟩

def advance : Phase → Answered → Phase
  | .fresh, ⟨.jsonDumps _, .ok payload, _⟩ => .encoded payload
  | .encoded payload, ⟨.execute _, .ok _, _⟩ => .audited payload
  | .audited payload, _ => .audited payload
  | _, _ => .refused

theorem advance_audited {s : Phase} {e : Answered} {payload : JsonObject}
    (h : advance s e = .audited payload) :
    s = .audited payload ∨ s = .encoded payload ∧ e.failed = false := by
  unfold advance at h
  split at h
  · cases h
  · cases h
    exact .inr ⟨rfl, rfl⟩
  · exact .inl h
  · cases h

/-- Encode, insert the row, and from then on insert no other; after a failure
of either, nothing at all. -/
def auditContract (sup : Supervisor) (req : Request) (d : Draws) : Contract Op Op.Resp Exc Phase where
  observe := advance
  rely _ e :=
    match e with
    | ⟨.jsonDumps fields, .ok payload, _⟩ => dumps fields = .ok payload
    | ⟨_, .ok _, landed⟩ => landed = true
    | _ => True
  guarantee
    | .fresh, op => op = .jsonDumps (Supervisor.auditPayload req d)
    | .encoded payload, op => dumps (Supervisor.auditPayload req d) = .ok payload ∧
        op = .execute (.insertAuditLog (sup.db = .postgres) (auditRow req d payload))
    | .audited payload, op => dumps (Supervisor.auditPayload req d) = .ok payload ∧
        insertsAudit op = false
    | .refused, _ => False

variable {sup : Supervisor} {req : Request} {d : Draws}

/-- The audit row is inserted and spells the payload. -/
def Audited (req : Request) (d : Draws) : Phase → Prop
  | .audited payload => dumps (Supervisor.auditPayload req d) = .ok payload
  | _ => False

theorem keeps_call {op : Op} (h : insertsAudit op = false) :
    (auditContract sup req d).Keeps (Audited req d) (.call op) := by
  refine .call ?_ ?_
  · intro s hs
    cases s with
    | audited payload => exact ⟨hs, h⟩
    | _ => exact hs.elim
  · intro s r landed hs _
    cases s with
    | audited payload => exact hs
    | _ => exact hs.elim

theorem keeps_proceed (sup : Supervisor) (req : Request) (d : Draws) :
    (auditContract sup req d).Keeps (Audited req d) (sup.proceed req d) := by
  refine Invocation.keeps_proceed (.of_calls ?_ ?_)
  · refine fun _ _ => Invocation.keeps_upsert _ _ _ _ _ _ (keeps_call rfl) fun st h => keeps_call ?_
    cases st with
    | insertAuditLog jsonb row => cases h
    | _ => rfl
  · intro op h
    refine keeps_call ?_
    cases op with
    | execute st => cases st with
      | insertAuditLog jsonb row => cases h
      | _ => rfl
    | _ => rfl

/-- Where `insert_audit` ends: with the row in place, or refused. -/
def settled (req : Request) (d : Draws) {α : Type} (s : Phase) : Except Exc α → Prop
  | .ok _ => Audited req d s
  | .error _ => True

theorem audit_settles (sup : Supervisor) (req : Request) (d : Draws) :
    (auditContract sup req d).wp (sup.audit req d) (settled req d) .fresh := by
  refine Contract.wp_seq (R := fun s r => match r with
    | .ok payload => s = .encoded payload ∧ dumps (Supervisor.auditPayload req d) = .ok payload
    | .error _ => True) _ _ _ _ ?_ ?_ (fun _ _ _ => trivial)
  · refine Contract.wp_tryExcept _ _ _ _ ?_ (fun _ _ h => h) ?_ (R := fun s r => match r with
      | .ok payload => s = .encoded payload ∧ dumps (Supervisor.auditPayload req d) = .ok payload
      | .error _ => True)
    · rw [Contract.wp_call]
      refine ⟨rfl, ?_⟩
      intro r landed hr
      cases r with
      | ok payload => exact ⟨rfl, hr⟩
      | error e => trivial
    · intro s e _
      split <;> trivial
  · rintro s payload ⟨rfl, hpayload⟩
    refine Contract.wp_seq _ _ _ _ (R := settled req d) ?_ (fun s a h => h) (fun _ _ _ => trivial)
    refine Contract.wp_tryExcept _ _ _ _ ?_ (fun _ _ h => h) ?_ (R := settled req d)
    · rw [Contract.wp_call]
      refine ⟨⟨hpayload, rfl⟩, ?_⟩
      intro r landed hr
      cases r with
      | ok u => exact hpayload
      | error e => trivial
    · intro s e _
      cases e <;> trivial

theorem invoke_audited (sup : Supervisor) (req : Request) (d : Draws) :
    (auditContract sup req d).wp (Operation.invoke sup req d).program (fun _ _ => True) .fresh := by
  refine Contract.wp_seq _ _ _ _ (R := fun _ _ => True) ?_ (fun _ _ _ => trivial) (fun _ _ _ => trivial)
  refine Contract.wp_seq _ _ _ _ (audit_settles sup req d) ?_ (fun _ _ _ => trivial)
  intro s _ hs
  exact Contract.wp_mono _ _ _ (fun _ _ _ => trivial)
    ((keeps_proceed sup req d).wp s hs)

variable {ι : Type} [DecidableEq ι] {ops : ι → Operation} {w₀ : World}

/-- The rows of the audit log with id `r`. -/
def auditOf (w : World) (r : String) : List AuditRow := w.auditLog.filter fun row => row.id == r

/-- The primary key keeps a row that is there the only one of its id. -/
theorem auditOf_settle {c : Choice} {w : World} {op : Op} {r : String} {row : AuditRow}
    (h : auditOf w r = [row]) : auditOf (interp.settle w (interp.entry c w op)) r = [row] := by
  unfold Interp.settle
  cases hl : (interp.entry c w op).landed with
  | false => exact h
  | true =>
    cases op with
    | execute st =>
      have hv := allowed_of_landed hl
      cases st with
      | insertAuditLog jsonb new =>
        have hnew : (new.id == r) = false := by
          by_contra hid
          have hrow : row ∈ w.auditLog.filter fun row => row.id == r := by rw [auditOf] at h; simp [h]
          obtain ⟨hmem, hr⟩ := List.mem_filter.mp hrow
          simp only [World.violates, List.any_eq_false] at hv
          have hne := hv row hmem
          simp only [Bool.not_eq_false, beq_iff_eq] at hid hr hne
          exact hne (hr.trans hid.symm)
        simpa [auditOf, Interp.entry, World.effect, World.apply, hnew] using h
      | _ => exact h
    | _ => exact h

/-- A row that goes in is the only one of its id. -/
theorem auditOf_inserted {c : Choice} {w : World} {jsonb : Bool} {payload : JsonObject}
    (h : (interp.entry c w (.execute (.insertAuditLog jsonb (auditRow req d payload)))).failed = false) :
    auditOf (interp.settle w
      (interp.entry c w (.execute (.insertAuditLog jsonb (auditRow req d payload))))) d.requestId =
        [auditRow req d payload] := by
  have hl : (interp.entry c w (.execute (.insertAuditLog jsonb (auditRow req d payload)))).landed =
      true := landed_of_not_failed h
  have hv := allowed_of_landed hl
  have hnone : auditOf w d.requestId = [] := by
    simpa [auditOf, World.violates, auditRow] using hv
  rw [Interp.settle, if_pos hl]
  simpa [auditOf, Interp.entry, World.effect, World.apply, auditRow] using hnone

theorem auditOf_kept {cond : Stack ι → ι → Choice → Prop} {s s' : Stack ι} {r : String}
    {row : AuditRow} (h : Reach cond s s') (hs : auditOf s.world r = [row]) :
    auditOf s'.world r = [row] := by
  induction h with
  | start => exact hs
  | step _ _ hstep ih =>
    obtain ⟨op, k, _, hworld, _, _⟩ := Pool.step_cases _ hstep
    rw [hworld]
    exact auditOf_settle ih

/-- What the answers of the store and of `json.dumps` are relied on for. -/
theorem relied {α : Type} {cond : Pool ι Op Op.Resp Exc α World → ι → Choice → Prop}
    {s₀ s : Pool ι Op Op.Resp Exc α World} (h : Pool.Reach interp cond s₀ s) (h₀ : s₀.log = [])
    (i : ι) (o : Phase) : (auditContract sup req d).Relied o (s.traceOf i) := by
  apply Contract.relied_of_forall
  intro e he o'
  refine h.log_forall (P := fun e => ∀ o', (auditContract sup req d).rely o' e) ?_ (by simp [h₀])
    _ (Pool.mem_traceOf.mp he) o'
  intro s _ c _ op o'
  have hlanded (r) (hr : (interp.entry c s.world op).result = .ok r) := landed_of_ok hr
  simp only [auditContract]
  split
  · rename_i heq
    exact dumps_of_entry heq
  · rename_i op' r landed _ heq
    have hop : op = op' := congrArg Entry.op heq
    subst hop
    simp only [Interp.entry, Entry.mk.injEq, heq_eq_eq, true_and] at heq hlanded
    exact heq.2 ▸ hlanded _ heq.1
  · trivial

@[simp] theorem after_refused (tr : List Answered) :
    (auditContract sup req d).after .refused tr = .refused := by
  induction tr with
  | nil => rfl
  | cons e tr ih => exact ih

@[simp] theorem after_audited (payload : JsonObject) (tr : List Answered) :
    (auditContract sup req d).after (.audited payload) tr = .audited payload := by
  induction tr with
  | nil => rfl
  | cons e tr ih => exact ih

section Runs

variable {cond : Stack ι → ι → Choice → Prop} {s : Stack ι} {i : ι}

omit [DecidableEq ι] in
theorem audited_task (hi : ops i = .invoke sup req d) :
    (auditContract sup req d).wp ((start ops w₀).task i) (fun _ _ => True) .fresh := by
  simpa [start, hi] using invoke_audited sup req d

/-- The row an audited invocation stands on. -/
theorem auditOf_audited (h : Reach cond (start ops w₀) s) (hi : ops i = .invoke sup req d)
    {payload : JsonObject}
    (hp : (auditContract sup req d).after .fresh (s.traceOf i) = .audited payload) :
    auditOf s.world d.requestId = [auditRow req d payload] := by
  induction h with
  | start => cases hp
  | @step s s' j c h hc hs ih =>
    obtain ⟨op, k, ht, hworld, _, hlog⟩ := Pool.step_cases _ hs
    rw [hworld]
    by_cases hij : j = i
    · subst hij
      have hg := h.guarantee_awaits rfl (audited_task hi) (relied h rfl j .fresh)
        (show (s.task j).awaits = some op by rw [ht]; rfl)
      rw [Pool.traceOf_step_same hlog, Contract.after_append, Contract.after_cons,
        Contract.after_nil] at hp
      rcases advance_audited hp with hphase | ⟨hphase, hok⟩
      · exact auditOf_settle (ih hphase)
      · rw [hphase] at hg
        obtain ⟨_, rfl⟩ := hg
        exact auditOf_inserted hok
    · rw [Pool.traceOf_step_other hlog hij] at hp
      exact auditOf_settle (ih hp)

/-- An action is guaranteed only where the audit row is in place. -/
theorem audited_of_acts {o : Phase} {op : Op} (hg : (auditContract sup req d).guarantee o op)
    (ha : acts op = true) : ∃ payload, o = .audited payload ∧
      dumps (Supervisor.auditPayload req d) = .ok payload := by
  cases o with
  | fresh => obtain rfl := hg; cases ha
  | encoded payload => obtain ⟨_, rfl⟩ := hg; cases ha
  | audited payload => exact ⟨payload, rfl, hg.1⟩
  | refused => exact hg.elim

/-- An audited invocation has inserted its row. -/
theorem inserted_of_audited {α : Type} {cond : Pool ι Op Op.Resp Exc α World → ι → Choice → Prop}
    {s₀ s : Pool ι Op Op.Resp Exc α World} {Q : Phase → Except Exc α → Prop}
    (h : Pool.Reach interp cond s₀ s) (h₀ : s₀.log = []) {i : ι}
    (hwp : (auditContract sup req d).wp (s₀.task i) Q .fresh) {pre post : List Answered}
    {payload : JsonObject} (htr : s.traceOf i = pre ++ post)
    (hp : (auditContract sup req d).after .fresh pre = .audited payload) :
    ∃ e ∈ pre, e.op = .execute (.insertAuditLog (sup.db = .postgres) (auditRow req d payload)) ∧
      e.failed = false := by
  induction pre using List.reverseRecOn generalizing post with
  | nil => cases hp
  | append_singleton pre e ih =>
    have htr' : s.traceOf i = pre ++ e :: post := by rw [htr, List.append_assoc]; rfl
    rw [Contract.after_append, Contract.after_cons, Contract.after_nil] at hp
    rcases advance_audited hp with hphase | ⟨hphase, hok⟩
    · obtain ⟨e', he', hinsert⟩ := ih htr' hphase
      exact ⟨e', List.mem_append_left _ he', hinsert⟩
    · have hg := h.guarantee_logged h₀ hwp (relied h h₀ i .fresh) htr'
      rw [hphase] at hg
      exact ⟨e, by simp, hg.2, hok⟩

theorem refused_of_auditRaised {tr : List Answered} (h : auditRaised tr = true) :
    (auditContract sup req d).after .fresh tr = .refused := by
  have hfail (s : Phase) (e : Answered) (he : e.failed = true) (hs : ∀ p, s ≠ .audited p) :
      advance s e = .refused := by
    unfold advance
    split
    · cases he
    · cases he
    · exact absurd rfl (hs _)
    · rfl
  match tr with
  | [] => cases h
  | e :: rest =>
    rw [Contract.after_cons]
    by_cases he : e.failed = true
    · rw [show (auditContract sup req d).observe .fresh e = .refused from hfail .fresh e he nofun,
        after_refused]
    · match rest with
      | [] => simp [auditRaised, he] at h
      | e' :: rest =>
        have he' : e'.failed = true := by simpa [auditRaised, he] using h
        have hne : ∀ p, advance .fresh e ≠ .audited p := by
          intro p hp
          rcases advance_audited hp with h | ⟨h, _⟩ <;> cases h
        rw [Contract.after_cons, show (auditContract sup req d).observe
          ((auditContract sup req d).observe .fresh e) e' = .refused from hfail _ e' he' hne,
          after_refused]

end Runs

/-- Two invocations on one thread. -/
def pair : Fin 2 → Operation := fun i =>
  .invoke ⟨.sqlite, "agent.events", 8⟩ ⟨some "t", "hi", []⟩
    ⟨"t", if i = 0 then "r0" else "r1", fun _ => "c", "m", fun _ => "now", .nan⟩

end NoblePort.AuditFirst
