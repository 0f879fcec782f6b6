import NoblePort.AuditFailure
import NoblePort.Ownership

/-!
# What the endpoints write

Every writer of the four tables and the bus that a request can reach. The
invoke endpoint validates its thread id and writes its audit row first; the
kill endpoint does neither.
-/
namespace NoblePort.Endpoints

open Coroutine Coroutine.Contract NoblePort.Values NoblePort.Store NoblePort.ThreadState
open NoblePort.Runtime NoblePort.AuditFirst NoblePort.Api
open NoblePort.Ownership (Names)
open NoblePort.Requests (Anywhere)

def Reads : Op → Prop
  | .fetch _ => True
  | _ => False

/-- What a kill of `t` may await: reads, and the two statements of `_upsert`. -/
def Kills (t : String) : Op → Prop
  | .fetch _ => True
  | .execute (.insertThreadState row) => row.threadId = t
  | .execute (.updateThreadState _ _ _ _ t') => t' = t
  | _ => False

/-- What a request may await. An invalid body awaits nothing. -/
def MayAwait : HttpRequest → Op → Prop
  | .invoke body d, op => ∃ req, InvokeRequest.validate body = .ok req ∧
      Names (Supervisor.tid req.toRequest d) (some d.requestId) (some d.metricId) op
  | .status _, op => Reads op
  | .kill t _, op => Kills t op

section Programs

theorem keeps_kill (db : Dialect) (t now : String) :
    (only (Kills t)).Keeps Anywhere (Api.kill db t now) := by
  have hupsert : (only (Kills t)).Keeps Anywhere
      (upsert db t "kill_requested" (some true) (some "kill_requested") now) := by
    rw [upsert_eq]
    refine .bind (.only trivial) fun existing => .only ?_
    cases existing <;> rfl
  exact .bind (Invocation.keeps_requestKill (.only trivial) hupsert) fun _ => .ret _

theorem keeps_status (t : String) : (only Reads).Keeps Anywhere (Api.status t) := by
  refine .bind (.bind (.only trivial) fun row => ?_) fun row => ?_
  · cases row <;> exact .ret _
  · cases row <;> exact .ret _

theorem keeps_endpoint (sup : Supervisor) (req : InvokeRequest) (d : Draws) :
    (Ownership.namesOnly (Supervisor.tid req.toRequest d) (some d.requestId)
      (some d.metricId)).Keeps Anywhere (Api.invoke sup req d) := by
  refine .bind (.tryExcept (.bind (Ownership.keeps_invoke sup req.toRequest d) fun _ => .ret _)
    fun e => ?_) fun answer => ?_
  · split
    · exact .ret _
    · exact .raise _
  · cases answer with
    | error response => exact .ret _
    | ok result =>
      unfold InvokeResponse.ofResult
      change Keeps _ _ (Prog.ofExcept ((if _ then _ else _ : Except Exc InvokeResponse).map _))
      split
      · exact .ret _
      · exact .raise _

theorem keeps_program (sup : Supervisor) (request : HttpRequest) :
    (only (MayAwait request)).Keeps Anywhere (request.program sup) := by
  cases request with
  | status t => exact keeps_status t
  | kill t now => exact keeps_kill sup.db t now
  | invoke body d =>
    cases hbody : InvokeRequest.validate body with
    | error errors =>
      rw [HttpRequest.program, hbody]
      exact .ret _
    | ok req =>
      rw [HttpRequest.program, hbody]
      exact (keeps_endpoint sup req d).only_mono fun op h => ⟨req, hbody, h⟩

end Programs

/-- The thread whose row an answered call inserted or changed. -/
def wrote : Answered → Option String
  | ⟨.execute (.insertThreadState row), _, true⟩ => some row.threadId
  | ⟨.execute (.updateThreadState _ _ _ _ t), _, true⟩ => some t
  | _ => none

/-- The thread an answered call inserted an audit row for. -/
def audited : Answered → Option String
  | ⟨.execute (.insertAuditLog _ row), _, true⟩ => row.threadId
  | _ => none

/-- The thread id an answered call stored or published. -/
def brings : Answered → Option String
  | ⟨.execute (.insertAuditLog _ row), _, true⟩ => row.threadId
  | ⟨.execute (.insertAgentMetrics row), _, true⟩ => row.threadId
  | ⟨.execute (.insertCheckpoint _ row), _, true⟩ => some row.threadId
  | ⟨.execute (.insertThreadState row), _, true⟩ => some row.threadId
  | ⟨.publish _ event, _, true⟩ => some event.threadId
  | _ => none

/-- Every thread id in the four tables and the published events. -/
def ids (w : World) : List String :=
  w.auditLog.filterMap (·.threadId) ++ w.threads ++ w.langgraphCheckpoints.map (·.threadId) ++
    w.agentMetrics.filterMap (·.threadId) ++ w.published.map (·.threadId)

theorem ids_update (w : World) (status : String) (flag : Flag) (event : Option String)
    (now t : String) : ids (w.apply (.updateThreadState status flag event now t)) = ids w := by
  rw [ids, World.threads_update]
  rfl

theorem mem_ids_settle (w : World) (e : Answered) (t : String) :
    t ∈ ids (interp.settle w e) ↔ t ∈ ids w ∨ brings e = some t := by
  obtain ⟨op, result, landed⟩ := e
  cases landed with
  | false => cases op <;> simp [Interp.settle, brings]
  | true =>
    cases op with
    | execute st =>
      cases st with
      | updateThreadState status flag event now t' =>
        simp [Interp.settle, World.effect, brings, ids_update]
      | _ =>
        simp [ids, World.threads, Interp.settle, World.effect, World.apply, brings, List.filterMap_append]
        grind
    | publish channel event =>
      simp [ids, World.threads, Interp.settle, World.effect, brings]
      grind
    | _ => simp [Interp.settle, World.effect, brings]

section Runs

variable {ι : Type} [DecidableEq ι] {sup : Supervisor} {reqs : ι → HttpRequest} {w₀ : World}
  {s : Server ι}

theorem awaited (h : Serves (serve sup reqs w₀) s) {i : ι} {e : Answered} (he : (i, e) ∈ s.log) :
    MayAwait (reqs i) e.op := by
  obtain ⟨pre, post, htr⟩ := List.append_of_mem (Pool.mem_traceOf.mpr he)
  exact h.guarantee_logged rfl ((keeps_program sup (reqs i)).wp () trivial)
    (relied_of_forall _ fun _ _ _ => trivial) htr

/-- A list of ids that each answered call adds to holds the first ones and
those that the log added. -/
theorem mem_logged {view : World → List String} {adds : Answered → Option String}
    (hadds : ∀ w e t, t ∈ view (interp.settle w e) ↔ t ∈ view w ∨ adds e = some t)
    (h : Serves (serve sup reqs w₀) s) (t : String) :
    t ∈ view s.world ↔ t ∈ view w₀ ∨ ∃ x ∈ s.log, adds x.2 = some t := by
  induction h with
  | start => simp [serve]
  | @step s s' i c _ _ hs ih =>
    obtain ⟨op, k, _, hw, _, hl⟩ := Pool.step_cases interp hs
    rw [hw, hadds, ih, hl]
    simp only [List.mem_append, List.mem_singleton, or_and_right, exists_or, exists_eq_left, or_assoc]

/-- The thread id of a validated request is safe. -/
theorem tid_safe (req : InvokeRequest) (d : Draws) (h : SafeThreadId d.threadId) :
    SafeThreadId (Supervisor.tid req.toRequest d) := by
  unfold Supervisor.tid InvokeRequest.toRequest pyOr
  cases ht : req.threadId with
  | none => exact h
  | some v =>
    dsimp only
    split
    · exact h
    · exact req.thread_id_safe v ht

theorem brings_named {t : String} {r m : Option String} {e : Answered} (h : Names t r m e.op)
    {t' : String} (ht : brings e = some t') : t' = t := by
  have hsome {id : String} (hid : id = t) (hb : some id = some t') : t' = t := by
    cases hb
    exact hid
  unfold brings at ht
  split at ht
  · exact (Option.some.inj (h.1.symm.trans ht)).symm
  · exact (Option.some.inj (h.1.symm.trans ht)).symm
  · exact hsome h ht
  · exact hsome h ht
  · exact hsome h ht
  · cases ht

theorem wrote_named {t : String} {r m : Option String} {e : Answered} (h : Names t r m e.op)
    {t' : String} (ht : wrote e = some t') : t' = t ∧ acts e.op = true := by
  unfold wrote at ht
  split at ht
  · cases ht
    exact ⟨h, rfl⟩
  · cases ht
    exact ⟨h, rfl⟩
  · cases ht

theorem reads_only {e : Answered} (h : Reads e.op) {t : String} : brings e ≠ some t := by
  intro ht
  unfold brings at ht
  split at ht <;> first | exact h | cases ht

theorem reads_wrote {e : Answered} (h : Reads e.op) {t : String} : wrote e ≠ some t := by
  intro ht
  unfold wrote at ht
  split at ht <;> first | exact h | cases ht

theorem killed_not_audited {t t' : String} {e : Answered} (h : Kills t e.op) :
    audited e ≠ some t' := by
  intro ht
  unfold audited at ht
  split at ht
  · exact h
  · cases ht

/-- A kill brings its own thread id and none besides. -/
theorem brings_killed {t : String} {e : Answered} (h : Kills t e.op) {t' : String}
    (ht : brings e = some t') : t' = t := by
  unfold brings at ht
  split at ht
  · exact h.elim
  · exact h.elim
  · exact h.elim
  · cases ht
    exact h
  · exact h.elim
  · cases ht

/-- Every thread id that the four tables and the bus hold is of the safe class. -/
def IdsSafe (w : World) : Prop := ∀ t ∈ ids w, SafeThreadId t

/-- In every run of the API, with any bodies and any ids in the paths: every id
stored or published is safe if and only if every kill request that has inserted
a thread row has a safe id in its path. -/
theorem ids_safe_iff (sup : Supervisor) (reqs : ι → HttpRequest) (w₀ : World) (s : Server ι)
    (h : Serves (serve sup reqs w₀) s) (h₀ : IdsSafe w₀)
    (hdraws : ∀ i body d, reqs i = .invoke body d → SafeThreadId d.threadId) :
    IdsSafe s.world ↔
      ∀ x ∈ s.log, ∀ t now, reqs x.1 = .kill t now → brings x.2 ≠ none → SafeThreadId t := by
  constructor
  · intro hsafe x hx t now hkill hbrings
    obtain ⟨t', ht'⟩ := Option.ne_none_iff_exists'.mp hbrings
    have hawait := awaited h hx
    rw [hkill] at hawait
    have hid := brings_killed hawait ht'
    subst hid
    exact hsafe t' ((mem_logged mem_ids_settle h t').mpr (.inr ⟨x, hx, ht'⟩))
  · intro hkills t ht
    rcases (mem_logged mem_ids_settle h t).mp ht with hold | ⟨⟨i, e⟩, hx, hbrings⟩
    · exact h₀ t hold
    · have hawait := awaited h hx
      cases hreq : reqs i with
      | invoke body d =>
        rw [hreq] at hawait
        obtain ⟨req, _, hnames⟩ := hawait
        rw [brings_named hnames hbrings]
        exact tid_safe req d (hdraws i body d hreq)
      | status t' =>
        rw [hreq] at hawait
        exact (reads_only hawait hbrings).elim
      | kill t' now =>
        rw [hreq] at hawait
        rw [brings_killed hawait hbrings]
        exact hkills _ hx t' now hreq (by rw [hbrings]; nofun)

end Runs

/-- An invoke and a kill request. -/
def surface (path : String) : Fin 2 → HttpRequest
  | 0 => .invoke (some (.obj [("input", .str "hi"), ("thread_id", .str "t")]))
      ⟨"u", "r", fun _ => "c", "m", fun _ => "now", .nan⟩
  | 1 => .kill path "now"

def backend : Supervisor := ⟨.sqlite, "agent.events", 1⟩

instance (w : World) : Decidable (IdsSafe w) := inferInstanceAs (Decidable (∀ _ ∈ _, _))

/-- Both requests served to their end. -/
theorem ids_safe_iff_both :
    ∃ s, Serves (serve backend (surface "t") World.empty) s ∧ s.log.length = 16 ∧ IdsSafe s.world := by
  obtain ⟨s, h, hlength⟩ := Pool.Reach.exists_of_exec
    interp (fun _ _ _ => True) (serve backend (surface "t") World.empty)
    (P := fun s => s.log.length = 16)
    (List.replicate 13 (0, System.calm) ++ List.replicate 3 (1, System.calm)) (by decide)
  refine ⟨s, h, hlength, (ids_safe_iff backend (surface "t") World.empty s h (by decide) ?_).mpr ?_⟩
  · intro i body d hi
    match i with
    | 0 => cases hi; decide
    | 1 => cases hi
  · rintro ⟨i, e⟩ _ t now hkill _
    match i with
    | 0 => cases hkill
    | 1 => cases hkill; decide

/-- `POST /agent/kill/a%20b`. -/
theorem unsafe_id_stored :
    ∃ s, Serves (serve backend (surface "a b") World.empty) s ∧ ¬ IdsSafe s.world :=
  Pool.Reach.exists_of_exec interp (fun _ _ _ => True) (serve backend (surface "a b") World.empty)
    (P := fun s => ¬ IdsSafe s.world) (List.replicate 3 (1, System.calm)) (by decide)

section Runs

variable {ι : Type} [DecidableEq ι] {sup : Supervisor} {reqs : ι → HttpRequest} {w₀ : World}
  {s : Server ι}

/-- The threads that have an audit row. -/
def auditedThreads (w : World) : List String := w.auditLog.filterMap (·.threadId)

/-- The thread an answered call inserted a row for. -/
def inserted : Answered → Option String
  | ⟨.execute (.insertThreadState row), _, true⟩ => some row.threadId
  | _ => none

theorem wrote_of_inserted {e : Answered} {t : String} (h : inserted e = some t) :
    wrote e = some t := by
  unfold inserted at h
  split at h
  · exact h
  · cases h

theorem mem_threads_settle (w : World) (e : Answered) (t : String) :
    t ∈ (interp.settle w e).threads ↔ t ∈ w.threads ∨ inserted e = some t := by
  obtain ⟨op, result, landed⟩ := e
  cases landed with
  | false => cases op <;> simp [Interp.settle, inserted]
  | true =>
    cases op with
    | execute st =>
      cases st with
      | updateThreadState status flag event now t' =>
        simp [Interp.settle, World.effect, inserted, World.threads_update]
      | _ => simp [World.threads, Interp.settle, World.effect, World.apply, inserted, eq_comm]
    | _ => simp [World.threads, Interp.settle, World.effect, inserted]

theorem mem_audited_settle (w : World) (e : Answered) (t : String) :
    t ∈ auditedThreads (interp.settle w e) ↔ t ∈ auditedThreads w ∨ audited e = some t := by
  obtain ⟨op, result, landed⟩ := e
  cases landed with
  | false => cases op <;> simp [Interp.settle, audited]
  | true =>
    cases op with
    | execute st =>
      cases st <;> simp [auditedThreads, Interp.settle, World.effect, World.apply, audited,
        List.filterMap_append]
    | _ => simp [auditedThreads, Interp.settle, World.effect, audited]

/-- Every write of a thread row in the log comes after an audit row of the same
request for that thread. -/
def AuditedWrites (log : List (ι × Answered)) : Prop :=
  ∀ pre i e post t, log = pre ++ (i, e) :: post → wrote e = some t →
    ∃ e', (i, e') ∈ pre ∧ audited e' = some t

def EveryThreadAudited (w : World) : Prop := ∀ t ∈ w.threads, t ∈ auditedThreads w

theorem invoke_audits (h : Serves (serve sup reqs w₀) s) {pre post : List (ι × Answered)} {i : ι}
    {e : Answered} (hlog : s.log = pre ++ (i, e) :: post) {body : Option Json} {d : Draws}
    (hi : reqs i = .invoke body d) {t : String} (ht : wrote e = some t) :
    ∃ e', (i, e') ∈ pre ∧ audited e' = some t := by
  have he : (i, e) ∈ s.log := by rw [hlog]; simp
  have hawait := awaited h he
  rw [hi] at hawait
  obtain ⟨req, hbody, hnames⟩ := hawait
  obtain ⟨rfl, hacts⟩ := wrote_named hnames ht
  obtain ⟨tr, tr', htr, hmem⟩ := Pool.traceOf_split hlog
  have hwp : (auditContract sup req.toRequest d).wp ((serve sup reqs w₀).task i)
      (fun _ _ => True) .fresh := by
    simp only [serve, hi, HttpRequest.program, hbody]
    exact AuditFailure.endpoint_audited sup req d
  obtain ⟨payload, hphase, _⟩ :=
    audited_of_acts (h.guarantee_logged rfl hwp (relied h rfl i .fresh) htr) hacts
  obtain ⟨e', he', hop, hok⟩ := inserted_of_audited h rfl hwp htr hphase
  refine ⟨e', hmem e' he', ?_⟩
  have hlanded : e'.landed = true := h.log_forall (P := fun e => e.failed = false → e.landed = true)
    (fun _ _ _ _ _ => landed_of_not_failed) (by simp [serve]) (i, e')
    (by rw [hlog]; exact List.mem_append_left _ (hmem e' he')) hok
  obtain ⟨op', result, landed⟩ := e'
  obtain rfl : op' = _ := hop
  obtain rfl : landed = true := hlanded
  rfl

/-- In every run of the API: every write of a thread row comes after an audit
row of its own request, and every thread has one, if and only if no kill
request has written. -/
theorem writes_audited_iff (sup : Supervisor) (reqs : ι → HttpRequest) (w₀ : World) (s : Server ι)
    (h : Serves (serve sup reqs w₀) s) (h₀ : EveryThreadAudited w₀) :
    AuditedWrites s.log ∧ EveryThreadAudited s.world ↔
      ∀ x ∈ s.log, ∀ t now, reqs x.1 = .kill t now → wrote x.2 = none := by
  constructor
  · rintro ⟨haudited, _⟩ ⟨i, e⟩ hx t now hkill
    by_contra hwrote
    obtain ⟨t', ht'⟩ := Option.ne_none_iff_exists'.mp hwrote
    obtain ⟨pre, post, hlog⟩ := List.append_of_mem hx
    obtain ⟨e', he', haudit⟩ := haudited pre i e post t' hlog ht'
    have hawait := awaited h (show (i, e') ∈ s.log by rw [hlog]; exact List.mem_append_left _ he')
    rw [hkill] at hawait
    exact killed_not_audited hawait haudit
  · intro hkills
    have haudited : AuditedWrites s.log := by
      intro pre i e post t hlog ht
      have hx : (i, e) ∈ s.log := by rw [hlog]; simp
      cases hreq : reqs i with
      | invoke body d => exact invoke_audits h hlog hreq ht
      | status t' =>
        have hawait := awaited h hx
        rw [hreq] at hawait
        exact (reads_wrote hawait ht).elim
      | kill t' now =>
        rw [hkills _ hx t' now hreq] at ht
        cases ht
    refine ⟨haudited, ?_⟩
    intro t ht
    rw [mem_logged mem_audited_settle h]
    rcases (mem_logged mem_threads_settle h t).mp ht with hold | ⟨⟨i, e⟩, hx, hins⟩
    · exact .inl (h₀ t hold)
    · obtain ⟨pre, post, hlog⟩ := List.append_of_mem hx
      obtain ⟨e', he', haudit⟩ := haudited pre i e post t hlog (wrote_of_inserted hins)
      exact .inr ⟨(i, e'), by rw [hlog]; exact List.mem_append_left _ he', haudit⟩

end Runs

instance (w : World) : Decidable (EveryThreadAudited w) := inferInstanceAs (Decidable (∀ _ ∈ _, _))

/-- The invoke request served while the kill request has only read. -/
theorem writes_audited_iff_reading :
    ∃ s, Serves (serve backend (surface "t") World.empty) s ∧ "t" ∈ s.world.threads ∧
      AuditedWrites s.log ∧ EveryThreadAudited s.world := by
  obtain ⟨s, h, ht, hkills⟩ := Pool.Reach.exists_of_exec
    interp (fun _ _ _ => True) (serve backend (surface "t") World.empty)
    (P := fun s => "t" ∈ s.world.threads ∧ ∀ x ∈ s.log, x.1 = 1 → wrote x.2 = none)
    ((1, System.calm) :: List.replicate 13 (0, System.calm)) (by decide)
  refine ⟨s, h, ht, (writes_audited_iff backend (surface "t") World.empty s h (by decide)).mpr ?_⟩
  rintro ⟨i, e⟩ hx t now hkill
  match i with
  | 0 => cases hkill
  | 1 => exact hkills (1, e) hx rfl

/-- A kill request alone. -/
theorem unaudited_thread :
    ∃ s, Serves (serve backend (surface "t") World.empty) s ∧ ¬ EveryThreadAudited s.world :=
  Pool.Reach.exists_of_exec interp (fun _ _ _ => True) (serve backend (surface "t") World.empty)
    (P := fun s => ¬ EveryThreadAudited s.world) (List.replicate 3 (1, System.calm)) (by decide)

end NoblePort.Endpoints
