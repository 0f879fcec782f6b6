import NoblePort.Api
import NoblePort.AuditFirst

/-!
# What a 503 says

`POST /agent/invoke` answers 503 to every `AuditError`, wherever it comes
from. It comes from the request's own `insert_audit`, before anything has run,
or from the graph. Every exception has a text here: an `insert_audit` for which
`str(e)` raises is in `Payload`.
-/
namespace NoblePort.AuditFailure

open Coroutine Coroutine.Contract NoblePort.Values NoblePort.Store NoblePort.Runtime
open NoblePort.System NoblePort.Monitor NoblePort.AuditFirst NoblePort.Api
open NoblePort.Requests (producedBy produced_eq mem_faults)

def isAuditError : Exc → Bool
  | .exception .auditError _ => true
  | _ => false

/-- `AuditError` is the project's own class: the database and the bus raise
none. A step function may, and so may the objects in the state it returns. -/
def Foreign : Answered → Prop
  | ⟨.stepFn _, _, _⟩ | ⟨.jsonDumps _, _, _⟩ | ⟨_, .ok _, _⟩ => True
  | ⟨_, .error exc, _⟩ => isAuditError exc = false

instance : DecidablePred Foreign
  | ⟨.stepFn _, _, _⟩ | ⟨.jsonDumps _, _, _⟩ => .isTrue trivial
  | ⟨.fetch _, .ok _, _⟩ | ⟨.execute _, .ok _, _⟩ | ⟨.publish _ _, .ok _, _⟩ => .isTrue trivial
  | ⟨.fetch _, .error exc, _⟩ | ⟨.execute _, .error exc, _⟩ | ⟨.publish _ _, .error exc, _⟩ =>
    inferInstanceAs (Decidable (isAuditError exc = false))

/-- The request is audited and nothing has raised. -/
def Running (m : Summary) : Prop := m.audited = true ∧ m.faults = []

/-- `e` is what the last call that raised did raise, after the audit row; an
`AuditError` comes from the step function or from a state it returned. -/
def Raised (e : Exc) (m : Summary) : Prop :=
  m.audited = true ∧ ∃ op, m.faults.getLast? = some ⟨op, e⟩ ∧
    (isAuditError e = true → (∃ state, op = .stepFn state) ∨ m.produced ≠ [])

/-- `insert_audit` has raised `e`. -/
def Refused (e : Exc) (m : Summary) : Prop :=
  m.audited = false ∧ ∃ f, m.faults = [f] ∧ auditing f.op = true ∧ e = auditRaises f.op f.exc

def Broken (e : Exc) (m : Summary) : Prop := Raised e m ∨ Refused e m

/-- Rely on `Foreign`. -/
abbrev graph : Contract Op Op.Resp Exc Summary := monitor (fun _ => Foreign) fun _ => True

section Invoke

variable {sup : Supervisor} {req : Request} {d : Draws} {m : Summary} {e : Exc} {op : Op}
  {landed : Bool}

/-- A fault of a call other than `json.dumps`. -/
theorem raised_fault (h : m.audited = true) (hr : Foreign ⟨op, .error e, landed⟩)
    (hop : ∀ fields, op ≠ .jsonDumps fields) : Raised e (m.fault op e) := by
  refine ⟨h, op, by simp [Summary.fault], fun he => ?_⟩
  have hother (hf : isAuditError e = false) : False := by
    rw [he] at hf
    cases hf
  cases op with
  | stepFn state => exact .inl ⟨state, rfl⟩
  | jsonDumps fields => exact absurd rfl (hop fields)
  | fetch q => exact (hother hr).elim
  | execute st => exact (hother hr).elim
  | publish channel event => exact (hother hr).elim

theorem raised_thread (h : m.audited = true) (hr : Foreign ⟨op, .error e, landed⟩)
    (hop : onThread op = true) : Raised e (m.fault op e) :=
  raised_fault h hr fun fields hdumps => by
    subst hdumps
    cases hop

theorem wp_iteration (i : Nat) (state : Dict) (parent : Option String) (h : Running m) :
    graph.wp (sup.iteration req d i state parent)
      (ends (fun _ => Running) Raised) m := by
  obtain ⟨haudited, hnone⟩ := h
  refine Monitor.wp_iteration i state parent (fun _ _ _ => trivial) (fun _ _ _ _ ha hr => ?_)
    ⟨haudited, hnone⟩ (fun _ _ _ _ _ _ => ?_)
  · cases ha with
    | status hop => exact raised_thread haudited hr hop
    | dumps next =>
      -- encoding the state raised, and the step function has returned one
      refine ⟨haudited, .jsonDumps next, by simp [Summary.fault], fun _ => .inr ?_⟩
      simp [Summary.fault, Summary.stepped]
    | _ => exact raised_fault haudited hr nofun
  · split <;> exact ⟨haudited, hnone⟩

theorem wp_handler (e : Exc) (h : Raised e m) :
    graph.wp (sup.handler req d e).2 (ends (fun _ => Raised e) Raised) m := by
  obtain ⟨haudited, hlast⟩ := h
  cases e <;>
    exact wp_announce trivial trivial ⟨haudited, hlast⟩
      (fun _ _ _ hop hr => raised_thread haudited hr hop)
      (fun _ _ _ _ _ hr => raised_fault haudited hr nofun)

def outline (sup : Supervisor) (req : Request) (d : Draws) :
    Invocation.Outline graph sup req d (· = Summary.audit {})
      (fun m r => match r with
        | .ok _ => Running m
        | .error e => Broken e m) where
  started := Running
  head _ _ _ _ := Running
  exit _ _ := Running
  failed := Raised
  handled _ := Raised
  closing _ _ := Running
  opens m hm := by
    subst hm
    exact wp_announce trivial trivial ⟨rfl, rfl⟩
      (fun _ _ _ hop hr => .inl (raised_thread rfl hr hop))
      (fun _ _ _ _ _ hr => .inl (raised_fault rfl hr nofun))
  resumes m hm := wp_getLatest _ trivial (fun _ _ _ => hm)
    (by rintro _ e _ rfl hr; exact raised_fault hm.1 hr nofun)
  iterates n i state parent m hm := by
    refine wp_mono _ _ m ?_ (wp_iteration i state parent hm)
    intro m r h
    cases r with
    | error e => exact h
    | ok next => cases next <;> exact h
  exhausted _ _ _ _ hm := hm
  handles e m hm := wp_handler e hm
  rethrows _ e m hm := wp_finallyBlock _ trivial (.inl ⟨hm.1, hm.2⟩)
    (fun _ _ hr => .inl (raised_fault hm.1 hr nofun))
  records _ _ m hm := wp_finallyBlock _ trivial hm
    (fun _ _ hr => .inl (raised_fault hm.1 hr nofun))
  concludes outcome _ m hm := by
    unfold Supervisor.conclude
    split
    · exact wp_announce trivial trivial hm
        (fun _ _ _ hop hr => .inl (raised_thread hm.1 hr hop))
        (fun _ _ _ _ _ hr => .inl (raised_fault hm.1 hr nofun))
    · exact hm

/-- What the answer to `POST /agent/invoke` tells: it went well, an
`AuditError` came out of it, it never reached its endpoint, or it ended in
another exception, the last of them a result that is no valid response. -/
def Told (m : Summary) : Except Exc Response → Prop
  | .ok (.invoked _) => Running m
  | .ok (.auditFailure _) => ∃ e, isAuditError e = true ∧ Broken e m
  | .ok _ => m.audited = false ∧ m.faults = []
  | .error e => isAuditError e = false ∧ Broken e m ∨ Running m

/-- The answer of the try statement of the endpoint. -/
def Tried (m : Summary) : Except Exc (Except Response InvokeResult) → Prop
  | .ok (.ok _) => Running m
  | .ok (.error response) =>
    ∃ s, response = .auditFailure s ∧ ∃ e, isAuditError e = true ∧ Broken e m
  | .error e => isAuditError e = false ∧ Broken e m

theorem not_auditError (h : ∀ s, e ≠ .exception .auditError s) : isAuditError e = false := by
  unfold isAuditError
  split
  · exact absurd rfl (h _)
  · rfl

theorem wp_endpoint (sup : Supervisor) (req : InvokeRequest) (d : Draws) :
    graph.wp (Api.invoke sup req d) Told {} := by
  refine wp_seq (R := Tried) _ _ _ _ ?_ ?_ (fun _ _ h => .inl h)
  · refine wp_tryExcept (R := fun m (r : Except Exc (Except Response InvokeResult)) => match r with
      | .ok (.ok _) => Running m
      | .ok (.error _) => False
      | .error e => Broken e m) _ _ _ _ ?_ ?_ ?_
    · refine wp_seq _ _ _ _ (wp_invoke (outline sup req.toRequest d) trivial ?_) (fun _ _ h => h)
        (fun _ _ h => h)
      exact fun op e _ hop _ => .inr ⟨rfl, ⟨op, e⟩, rfl, hop.auditing, rfl⟩
    · intro m r h
      cases r with
      | ok _ => exact h
      | error _ => exact h.elim
    · intro m e h
      split
      · exact ⟨_, rfl, _, rfl, h⟩
      · rename_i hother
        exact ⟨not_auditError hother, h⟩
  · intro m answer h
    cases answer with
    | error response =>
      obtain ⟨s, rfl, he⟩ := h
      exact he
    | ok result =>
      unfold InvokeResponse.ofResult
      change graph.wp (Prog.ofExcept ((if _ then _ else _ : Except Exc InvokeResponse).map _)) _ _
      split
      · exact h
      · exact .inr h

theorem wp_program (sup : Supervisor) (body : Option Json) (d : Draws) :
    graph.wp (HttpRequest.program sup (.invoke body d)) Told {} := by
  rw [HttpRequest.program]
  cases InvokeRequest.validate body with
  | ok req => exact wp_endpoint sup req d
  | error errors => exact ⟨rfl, rfl⟩

theorem endpoint_audited (sup : Supervisor) (req : InvokeRequest) (d : Draws) :
    (auditContract sup req.toRequest d).wp (Api.invoke sup req d) (fun _ _ => True) .fresh := by
  refine wp_seq (R := fun _ _ => True) _ _ _ _ ?_ ?_ (fun _ _ _ => trivial)
  · refine wp_tryExcept (R := fun _ _ => True) _ _ _ _ ?_ (fun _ _ _ => trivial) ?_
    · refine wp_seq (R := fun _ _ => True) _ _ _ _ ?_ (fun _ _ _ => trivial) (fun _ _ _ => trivial)
      refine wp_seq _ _ _ _ (audit_settles sup req.toRequest d) ?_ (fun _ _ _ => trivial)
      intro o _ ho
      exact wp_mono _ _ _ (fun _ _ _ => trivial) ((keeps_proceed sup req.toRequest d).wp o ho)
    · intro o e _
      split <;> trivial
  · intro o answer _
    cases answer with
    | error response => trivial
    | ok result =>
      unfold InvokeResponse.ofResult
      change wp _ (Prog.ofExcept ((if _ then _ else _ : Except Exc InvokeResponse).map _)) _ _
      split <;> trivial

/-- Only a valid body gets to the audit row; an invalid one makes no call at all. -/
theorem audited_program (sup : Supervisor) (body : Option Json) (d : Draws) :
    ∃ req, (auditContract sup req d).wp (HttpRequest.program sup (.invoke body d))
      (fun _ _ => True) .fresh := by
  cases hbody : InvokeRequest.validate body with
  | error errors =>
    refine ⟨⟨none, "", []⟩, ?_⟩
    rw [HttpRequest.program, hbody]
    trivial
  | ok req =>
    refine ⟨req.toRequest, ?_⟩
    rw [HttpRequest.program, hbody]
    exact endpoint_audited sup req d

end Invoke

theorem note_audited {m : Summary} (e : Answered) (h : m.audited = true) :
    (note m e).audited = true := by
  obtain ⟨op, result, landed⟩ := e
  cases result with
  | error exc => exact h
  | ok r =>
    cases op with
    | execute st => cases st <;> first | exact h | rfl
    | fetch q => cases q <;> exact h
    | _ => exact h

section Trace

variable {ι : Type} [DecidableEq ι] {sup : Supervisor} {req : Request} {d : Draws}
  {s₀ s : Server ι} {i : ι}

/-- The summary of a request agrees with the phase of its audit row. -/
theorem audited_iff (h : Serves s₀ s) (h₀ : s₀.log = [])
    (hwp : (auditContract sup req d).wp (s₀.task i) (fun _ _ => True) .fresh)
    {pre post : List Answered} (htr : s.traceOf i = pre ++ post) :
    (pre.foldl note {}).audited = true ↔
      ∃ payload, (auditContract sup req d).after .fresh pre = .audited payload := by
  induction pre using List.reverseRecOn generalizing post with
  | nil => exact ⟨nofun, nofun⟩
  | append_singleton pre e ih =>
    have htr' : s.traceOf i = pre ++ e :: post := by rw [htr, List.append_assoc]; rfl
    have hbefore := ih htr'
    have hg := h.guarantee_logged h₀ hwp (relied h h₀ i .fresh) htr'
    rw [List.foldl_append, Contract.after_append, Contract.after_cons, Contract.after_nil]
    cases hphase : (auditContract sup req d).after .fresh pre with
    | audited payload =>
      exact ⟨fun _ => ⟨payload, rfl⟩, fun _ => note_audited e (hbefore.mpr ⟨payload, hphase⟩)⟩
    | refused =>
      rw [hphase] at hg
      exact hg.elim
    | fresh =>
      rw [hphase] at hg hbefore
      have hnot : ¬ (pre.foldl note {}).audited = true := by simp [hbefore]
      obtain ⟨op, result, landed⟩ := e
      obtain rfl : op = .jsonDumps _ := hg
      cases result with
      | ok payload => exact ⟨fun ha => absurd ha hnot, fun ⟨_, hp⟩ => by cases hp⟩
      | error exc => exact ⟨fun ha => absurd ha hnot, fun ⟨_, hp⟩ => by cases hp⟩
    | encoded payload =>
      rw [hphase] at hg hbefore
      have hnot : ¬ (pre.foldl note {}).audited = true := by simp [hbefore]
      obtain ⟨op, result, landed⟩ := e
      obtain rfl : op = .execute _ := hg.2
      cases result with
      | ok u => exact ⟨fun _ => ⟨payload, rfl⟩, fun _ => rfl⟩
      | error exc => exact ⟨fun ha => absurd ha hnot, fun ⟨_, hp⟩ => by cases hp⟩

/-- Nothing else has been called where the audit row is not in place. -/
theorem acts_audited (h : Serves s₀ s) (h₀ : s₀.log = [])
    (hwp : (auditContract sup req d).wp (s₀.task i) (fun _ _ => True) .fresh)
    {e : Answered} (he : e ∈ s.traceOf i) (ha : acts e.op = true) :
    ((s.traceOf i).foldl note {}).audited = true := by
  obtain ⟨pre, post, htr⟩ := List.append_of_mem he
  obtain ⟨payload, hphase, _⟩ :=
    audited_of_acts (h.guarantee_logged h₀ hwp (relied h h₀ i .fresh) htr) ha
  refine (audited_iff h h₀ hwp (List.append_nil _).symm).mpr ⟨payload, ?_⟩
  rw [htr, Contract.after_append, hphase, after_audited]

/-- Where `insert_audit` raised, the row is not in place. -/
theorem not_audited (h : Serves s₀ s) (h₀ : s₀.log = [])
    (hwp : (auditContract sup req d).wp (s₀.task i) (fun _ _ => True) .fresh)
    (hr : auditRaised (s.traceOf i) = true) : ((s.traceOf i).foldl note {}).audited = false := by
  rw [Bool.eq_false_iff]
  intro ha
  obtain ⟨payload, hp⟩ := (audited_iff h h₀ hwp (List.append_nil _).symm).mp ha
  rw [refused_of_auditRaised hr] at hp
  cases hp

/-- What `except Exception` makes an `AuditError` of, and what the clause
around `json.dumps` does. -/
def Handled : Op → Exc → Prop
  | .jsonDumps _, .exception cls _ => cls = .typeError ∨ cls = .valueError ∨ cls = .auditError
  | _, .exception _ _ => True
  | _, .cancelled => False

instance : (op : Op) → (e : Exc) → Decidable (Handled op e)
  | .jsonDumps _, .exception _ _ => inferInstanceAs (Decidable (_ ∨ _ ∨ _))
  | .fetch _, .exception _ _ | .execute _, .exception _ _ | .publish _ _, .exception _ _
  | .stepFn _, .exception _ _ => .isTrue trivial
  | .jsonDumps _, .cancelled | .fetch _, .cancelled | .execute _, .cancelled
  | .publish _ _, .cancelled | .stepFn _, .cancelled => .isFalse id

theorem handled_iff {op : Op} (hop : auditing op = true) (e : Exc) :
    Handled op e ↔ isAuditError (auditRaises op e) = true := by
  cases e with
  | cancelled => cases op <;> simp [Handled, auditRaises, isAuditError]
  | exception cls str =>
    cases op with
    | jsonDumps fields => cases cls <;> simp [Handled, auditRaises, isAuditError]
    | execute st => simp [Handled, auditRaises, isAuditError]
    | _ => cases hop

/-- The request passed its audit row, and the last of its calls that raised,
raised an `AuditError`. -/
def LateAuditError (m : Summary) : Prop :=
  m.audited = true ∧ ∃ f ∈ m.faults.getLast?, isAuditError f.exc = true

instance (m : Summary) : Decidable (LateAuditError m) := inferInstanceAs (Decidable (_ ∧ ∃ _ ∈ _, _))

/-- The call is one of `step_fn`, or it published an event or changed a table
other than the audit log. -/
def ran (e : Answered) : Bool :=
  match e.op with
  | .stepFn _ => true
  | op => acts op && e.landed

theorem acts_of_ran {e : Answered} (h : ran e = true) : acts e.op = true := by
  obtain ⟨op, result, landed⟩ := e
  cases op with
  | stepFn state => rfl
  | jsonDumps fields => cases h
  | fetch q => cases h
  | publish channel event => rfl
  | execute st => exact (Bool.and_eq_true_iff.mp h).1

/-- An `AuditError` that is raised after the audit row has run the step function. -/
theorem Raised.ran {tr : List Answered} {e : Exc} (h : Raised e (tr.foldl note {}))
    (he : isAuditError e = true) : ∃ x ∈ tr, ran x = true := by
  obtain ⟨_, op, hlast, horigin⟩ := h
  rcases horigin he with ⟨state, rfl⟩ | hproduced
  · obtain ⟨landed, hmem⟩ := mem_faults.mp (List.mem_of_getLast? hlast)
    exact ⟨_, hmem, rfl⟩
  · rw [produced_eq] at hproduced
    obtain ⟨state, hstate⟩ := List.exists_mem_of_ne_nil _ hproduced
    obtain ⟨x, hx, hgives⟩ := List.mem_flatMap.mp hstate
    unfold producedBy at hgives
    split at hgives
    · exact ⟨_, hx, rfl⟩
    · cases hgives

theorem Raised.late {m : Summary} {e : Exc} (h : Raised e m) :
    LateAuditError m ↔ isAuditError e = true := by
  obtain ⟨haudited, op, hlast, _⟩ := h
  constructor
  · rintro ⟨_, f, hf, he⟩
    rw [hlast] at hf
    cases hf
    exact he
  · intro he
    exact ⟨haudited, ⟨op, e⟩, hlast, he⟩

theorem Told.late {m : Summary} {r : Except Exc Response} (h : Told m r) (hlate : LateAuditError m) :
    ∃ msg e, r = .ok (.auditFailure msg) ∧ isAuditError e = true ∧ Raised e m := by
  have hbroken (e : Exc) (hb : Broken e m) : Raised e m := by
    rcases hb with hraised | hrefused
    · exact hraised
    · cases hlate.1.symm.trans hrefused.1
  have hrunning : ¬ Running m := by
    rintro ⟨_, hnone⟩
    obtain ⟨_, f, hf, _⟩ := hlate
    rw [hnone] at hf
    cases hf
  cases r with
  | error e =>
    rcases h with ⟨hother, hb⟩ | hrun
    · rw [(hbroken e hb).late.mp hlate] at hother
      cases hother
    · exact absurd hrun hrunning
  | ok response =>
    cases response with
    | invoked result => exact absurd h hrunning
    | auditFailure msg =>
      obtain ⟨e, he, hb⟩ := h
      exact ⟨msg, e, rfl, he, hbroken e hb⟩
    | _ => cases hlate.1.symm.trans h.1

/-- A refused request was answered by the exception of its `insert_audit`. -/
theorem Told.refused {m : Summary} {r : Except Exc Response} (h : Told m r)
    (haudited : m.audited = false) (hfaults : m.faults ≠ []) :
    ∃ f, m.faults = [f] ∧ auditing f.op = true ∧
      ((∃ msg, r = .ok (.auditFailure msg)) ↔ isAuditError (auditRaises f.op f.exc) = true) := by
  have hrefused (e : Exc) (hb : Broken e m) : Refused e m := by
    rcases hb with hraised | hrefused
    · cases haudited.symm.trans hraised.1
    · exact hrefused
  have hrunning : ¬ Running m := fun hrun => hfaults hrun.2
  cases r with
  | error e =>
    rcases h with ⟨hother, hb⟩ | hrun
    · obtain ⟨_, f, hf, hop, rfl⟩ := hrefused e hb
      exact ⟨f, hf, hop, by simp [hother]⟩
    · exact absurd hrun hrunning
  | ok response =>
    cases response with
    | invoked result => exact absurd h hrunning
    | auditFailure msg =>
      obtain ⟨e, he, hb⟩ := h
      obtain ⟨_, f, hf, hop, rfl⟩ := hrefused e hb
      exact ⟨f, hf, hop, by simp [he]⟩
    | _ => exact absurd h.2 hfaults

theorem faults_of_auditRaised {tr : List Answered} (h : auditRaised tr = true) :
    (tr.foldl note {}).faults ≠ [] := by
  obtain ⟨⟨op, result, landed⟩, he, hfailed⟩ := List.any_eq_true.mp h
  cases result with
  | ok r => cases hfailed
  | error exc =>
    have hmem : (⟨op, exc⟩ : Fault) ∈ (tr.foldl note {}).faults :=
      mem_faults.mpr ⟨landed, List.mem_of_mem_take he⟩
    exact List.ne_nil_of_mem hmem

end Trace

variable {ι : Type} [DecidableEq ι]

/-- One request to invoke. -/
def request (_ : Fin 1) : HttpRequest :=
  .invoke (some (.obj [("input", .str "hi"), ("thread_id", .str "t")]))
    ⟨"u", "r", fun _ => "c", "m", fun _ => "now", .nan⟩

def stack : Supervisor := ⟨.sqlite, "agent.events", 8⟩

/-- The request was answered 503. -/
def unavailable (s : Server ι) (i : ι) : Bool :=
  match answerTo s i with
  | some (.ok (.auditFailure _)) => true
  | _ => false

omit [DecidableEq ι] in
theorem answer_of_unavailable {s : Server ι} (h : unavailable s i = true) :
    ∃ msg, answerTo s i = some (.ok (.auditFailure msg)) := by
  unfold unavailable at h
  split at h
  · rename_i msg ha
    exact ⟨msg, ha⟩
  · cases h

/-- A step function whose own `insert_audit` fails. -/
def unauditedStep : Choice :=
  { step := fun _ => .error (.exception .auditError "failed to insert audit record: locked") }

end NoblePort.AuditFailure
