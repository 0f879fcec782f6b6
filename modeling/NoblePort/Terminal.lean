import NoblePort.Lineage
import NoblePort.Serial

/-!
# Terminal statuses

Operations on the threads one after another. An invocation writes a status
other than `running` only while the status is its own `running`, so a thread
leaves a terminal status by the next start of an invocation, or by a kill.
-/
namespace NoblePort.Terminal

open Coroutine Coroutine.Contract NoblePort.Values NoblePort.Store NoblePort.ThreadState
open NoblePort.Records NoblePort.Runtime NoblePort.System
open NoblePort.Lineage (invokes)
open NoblePort.Ownership (threadOf)

def terminal (status : String) : Bool :=
  ["completed", "killed", "error", "cancelled"].contains status

def statusOf (w : World) (t : String) : Option String := (w.thread t).map (·.status)

/-- The status that a call writes. -/
def written : Op → Option String
  | .execute (.insertThreadState row) => some row.status
  | .execute (.updateThreadState status ..) => some status
  | _ => none

/-- Remember the own status written last, and write another one than `running`
only over `running`. Without faults a write takes effect exactly when it returns. -/
def statuses : Contract Op Op.Resp Exc (Option String) where
  observe last e :=
    match written e.op with
    | some status => if e.landed then some status else last
    | none => last
  rely _ e := (written e.op).isSome = true → e.landed = !e.failed
  guarantee last op := ∀ status ∈ written op, status = "running" ∨ last = some "running"

section Programs

variable {S : Option String → Prop}

theorem keeps_call {op : Op} (h : written op = none) : statuses.Keeps S (.call op) := by
  refine .call (fun last _ status hstatus => ?_) fun last r landed hlast _ => ?_
  · simp [h] at hstatus
  · simpa [statuses, h] using hlast

variable (sup : Supervisor) (req : Request) (d : Draws)

theorem wp_setStatus {status event : String} {last : Option String}
    {Q : Option String → Except Exc Unit → Prop} (hmay : status = "running" ∨ last = some "running")
    (hok : Q (some status) (.ok ())) (herror : ∀ e, Q last (.error e)) :
    statuses.wp (sup.setStatus req d status event) Q last := by
  unfold Supervisor.setStatus setThreadStatus
  rw [upsert_eq]
  refine (keeps_call rfl).seq (fun existing => ?_) herror
  have hwritten : written (.execute (upsertStmt sup.db (Supervisor.tid req d) status none (some event)
      (d.now (.status status)) existing)) = some status := by
    cases existing <;> rfl
  rw [wp_call]
  refine ⟨fun x hx => ?_, fun r landed hr => ?_⟩
  · rw [hwritten] at hx
    cases hx
    exact hmay
  · have hlanded : landed = !Entry.failed (ε := Exc) ⟨_, r, landed⟩ := hr (by rw [hwritten]; rfl)
    simp only [statuses, hwritten]
    cases r with
    | ok u =>
      have htrue : landed = true := hlanded
      rw [if_pos htrue]
      exact hok
    | error e =>
      have hfalse : landed = false := hlanded
      rw [hfalse]
      exact herror e

theorem wp_announce {status event : String} {type : EventType} {i : Nat} {payload : Dict}
    {last : Option String} {Q : Option String → Except Exc Unit → Prop}
    (hmay : status = "running" ∨ last = some "running") (hok : Q (some status) (.ok ()))
    (hfailed : ∀ e, Q (some status) (.error e)) (herror : ∀ e, Q last (.error e)) :
    statuses.wp (sup.setStatus req d status event >>= fun _ =>
      sup.publish req d type i payload) Q last := by
  rw [wp_bind]
  refine wp_setStatus sup req d hmay ?_ herror
  refine wp_mono _ _ _ ?_ ((keeps_call (S := (· = some status)) rfl).wp _ rfl)
  rintro _ r rfl
  cases r with
  | ok u => exact hok
  | error e => exact hfailed e

/-- The own status is `running` until the one that ends the invocation. -/
def Running (last : Option String) : Prop := last = some "running"

theorem wp_iteration (i : Nat) (state : Dict) (parent : Option String) (last : Option String)
    (h : Running last) :
    statuses.wp (sup.iteration req d i state parent)
      (ends (fun next => match next with
        | .stop outcome _ => fun last => outcome = .ok → Running last
        | .again _ _ => Running) fun _ => Running) last := by
  unfold Supervisor.iteration
  refine wp_seq _ (R := fun last _ => Running last) _ _ _
    ((Invocation.keeps_isKillRequested (keeps_call rfl)).wp _ h) (fun last killed h => ?_) fun _ _ h => h
  cases killed with
  | true =>
    rw [if_pos rfl]
    refine wp_seq _ (R := fun last _ => Running last) _ _ _ ((keeps_call rfl).wp _ h)
      (fun last _ h => ?_) fun _ _ h => h
    rw [wp_bind]
    exact wp_setStatus sup req d (.inr h) nofun fun _ => h
  | false =>
    rw [if_neg nofun]
    refine wp_mono _ _ _ ?_ (Keeps.wp (S := Running) (.bind (keeps_call rfl) fun _ =>
      .bind (keeps_call rfl) fun state => .bind (Invocation.keeps_put (keeps_call rfl) fun _ =>
        keeps_call rfl) fun cp => .bind (keeps_call rfl) fun _ => ?_) last h)
    · intro last r h
      cases r with
      | ok next =>
        cases next with
        | stop outcome resultState => exact fun _ => h
        | again state parent => exact h
      | error e => exact h
    · split <;> exact .ret _

def outline : Invocation.Outline statuses sup req d (fun _ => True) (fun _ _ => True) where
  started := Running
  head _ _ _ _ := Running
  exit outcome _ last := outcome = .ok → Running last
  failed _ := Running
  handled _ _ _ := True
  closing outcome _ last := outcome = .ok → Running last
  opens _ _ := wp_announce sup req d (.inl rfl) rfl (fun _ => trivial) fun _ => trivial
  resumes _ h := Invocation.ends_of_keeps (Invocation.keeps_getLatest (keeps_call rfl)) h
    (fun _ _ h => h) fun _ _ h => h
  iterates _ i state parent last h := wp_iteration sup req d i state parent last h
  exhausted _ _ _ _ h := fun _ => h
  handles e last h := by
    cases e with
    | cancelled => exact wp_announce sup req d (.inr h) trivial (fun _ => trivial) fun _ => trivial
    | exception cls s => exact wp_announce sup req d (.inr h) trivial (fun _ => trivial) fun _ => trivial
  rethrows _ _ _ _ := Invocation.ends_of_keeps (S := fun _ => True)
    (Invocation.keeps_finallyBlock (keeps_call rfl)) trivial (fun _ _ _ => trivial) fun _ _ _ => trivial
  records _ _ _ h := Invocation.ends_of_keeps
    (Invocation.keeps_finallyBlock (keeps_call rfl)) h (fun _ _ h => h) fun _ _ _ => trivial
  concludes outcome resultState last h := by
    unfold Supervisor.conclude
    split
    · rename_i hok
      exact wp_announce sup req d (.inr (h hok)) trivial (fun _ => trivial) fun _ => trivial
    · trivial

theorem wp_invoke : statuses.wp (Operation.invoke sup req d).program (fun _ _ => True) none := by
  refine wp_seq _ (R := fun _ _ => True) _ _ _ ?_ (fun _ _ _ => trivial) fun _ _ _ => trivial
  exact wp_seq _ _ _ _ ((Invocation.keeps_audit (keeps_call rfl) fun _ => keeps_call rfl).wp
    (S := fun _ => True) _ trivial) (fun last _ h => Invocation.wp_proceed (outline sup req d) last h)
    fun _ _ _ => trivial

end Programs

section Writes

variable {c : Choice} {w : World} {op : Op} {t : String} {r m : Option String}

theorem thread_quiet (h : written op = none) (t : String) :
    (interp.settle w (interp.entry c w op)).thread t = w.thread t := by
  unfold Interp.settle
  split
  · cases op with
    | execute st => cases st with
      | insertThreadState row => cases h
      | updateThreadState status flag event now t => cases h
      | _ => rfl
    | _ => rfl
  · rfl

/-- A call leaves the rows of the threads that it does not name. -/
theorem thread_other (h : Ownership.Names t r m op) {t' : String} (ht : t' ≠ t) :
    (interp.settle w (interp.entry c w op)).thread t' = w.thread t' := by
  unfold Interp.settle
  split
  · cases op with
    | execute st => cases st with
      | insertThreadState row =>
        have hrow : row.threadId = t := h
        exact World.thread_insert_other w row t' (by rw [hrow]; exact Ne.symm ht)
      | updateThreadState status flag event now t₁ =>
        have hrow : t₁ = t := h
        exact World.thread_update_other w status flag event now t₁ t' (by rw [hrow]; exact Ne.symm ht)
      | _ => rfl
    | _ => rfl
  · rfl

/-- What a write leaves is the status written. -/
theorem statusOf_written (h : Ownership.Names t r m op) {status : String} (hw : written op = some status)
    (hl : (interp.entry c w op).landed = true) :
    ∀ x ∈ statusOf (interp.settle w (interp.entry c w op)) t, x = status := by
  intro x hx
  rw [Interp.settle, if_pos hl] at hx
  cases op with
  | execute st => cases st with
    | insertThreadState row =>
      cases hw
      have hrow : row.threadId = t := h
      subst hrow
      have hnone := World.violates_thread (allowed_of_landed hl)
      change x ∈ ((w.apply (.insertThreadState row)).thread row.threadId).map _ at hx
      simp [World.thread_insert, hnone] at hx
      exact hx.symm
    | updateThreadState _ flag event now t' =>
      cases hw
      have hrow : t' = t := h
      subst hrow
      change x ∈ ((w.apply (.updateThreadState status flag event now t')).thread t').map _ at hx
      rw [World.thread_update_same, Option.map_map] at hx
      cases hrow : w.thread t' <;> simp [hrow] at hx
      exact hx.symm
    | _ => cases hw
  | _ => cases hw

theorem landed_eq (hc : c.fault = none) (hw : (written op).isSome = true) :
    (interp.entry c w op).landed = !(interp.entry c w op).failed := by
  cases op with
  | execute st =>
    simp only [Interp.entry, interp, World.answer, Choice.strike, hc, Entry.failed]
    split <;> rfl
  | _ => cases hw

end Writes

def invokesOrKills : Operation → Bool
  | .invoke .. | .requestKill .. => true
  | .setThreadStatus .. => false

/-- One invocation or kill after another, without faults. -/
structure InTurn {ι : Type} [DecidableEq ι] (ops : ι → Operation) (s : Stack ι) (i : ι) (c : Choice) :
    Prop where
  alone : ∀ j, j ≠ i → s.traceOf j = [] ∨ outcomeOf s j ≠ none
  faultless : c.fault = none
  kind : invokesOrKills (ops i) = true

/-- Not a kill of a thread whose status is terminal. -/
def spares (o : Operation) (w : World) : Bool :=
  match o with
  | .requestKill _ t _ => (statusOf w t).all fun status => !terminal status
  | _ => true

def Sparing {ι : Type} [DecidableEq ι] (ops : ι → Operation) (s : Stack ι) (i : ι) (c : Choice) : Prop :=
  InTurn ops s i c ∧ spares (ops i) s.world = true

/-- An invocation writes `running` on thread `t`. -/
def restarts {ι : Type} (ops : ι → Operation) (t : String) (x : ι × Answered) : Bool :=
  invokes (ops x.1) && threadOf (ops x.1) == t && x.2.landed && written x.2.op == some "running"

section Runs

variable {ι : Type} [DecidableEq ι] {ops : ι → Operation} {w₀ : World} {s s' : Stack ι} {i : ι} {c : Choice}
  {op : Op}

def lastOf (s : Stack ι) (i : ι) : Option String := statuses.after none (s.traceOf i)

/-- What a running invocation wrote last is the status of its thread. -/
def Inv (ops : ι → Operation) (s : Stack ι) : Prop :=
  ∀ i, invokes (ops i) = true → outcomeOf s i = none → ∀ status, lastOf s i = some status →
    ∀ x ∈ statusOf s.world (threadOf (ops i)), x = status

theorem relied (h : Reach (Sparing ops) (start ops w₀) s) (i : ι) :
    statuses.Relied none (s.traceOf i) := by
  have hlog : ∀ x ∈ s.log, (written x.2.op).isSome = true → x.2.landed = !x.2.failed :=
    h.log_forall (P := fun e => (written e.op).isSome = true → e.landed = !e.failed)
      (fun s i c hc op hw => landed_eq hc.1.faultless hw) (by simp [start])
  exact relied_of_forall _ fun e he _ => hlog _ (Pool.mem_traceOf.mp he)

/-- What an invocation is about to write follows its contract. -/
theorem guarantee_awaited (h : Reach (Sparing ops) (start ops w₀) s) (hi : invokes (ops i) = true)
    (hop : (s.task i).awaits = some op) : statuses.guarantee (lastOf s i) op := by
  have hwp : statuses.wp ((start ops w₀).task i) (fun _ _ => True) none := by
    simp only [start]
    cases ho : ops i with
    | invoke sup req d => exact wp_invoke sup req d
    | requestKill db t now => rw [ho] at hi; cases hi
    | setThreadStatus db t status event now => rw [ho] at hi; cases hi
  exact h.guarantee_awaits rfl hwp (relied h i) hop

theorem names_awaited {cond : Stack ι → ι → Choice → Prop} (h : Reach cond (start ops w₀) s)
    (hop : (s.task i).awaits = some op) : Ownership.owns (ops i) op :=
  h.guarantee_awaits rfl (Ownership.owned_start ops w₀ i) (relied_of_forall _ fun _ _ _ => trivial) hop

/-- What a step does to the status of a thread: nothing, or its own write. -/
theorem status_step (h : Reach (Sparing ops) (start ops w₀) s) (hop : (s.task i).awaits = some op)
    (t : String) :
    statusOf (interp.settle s.world (interp.entry c s.world op)) t = statusOf s.world t ∨
      (∃ status, written op = some status ∧ threadOf (ops i) = t) ∧
        (interp.entry c s.world op).landed = true := by
  have hnames := names_awaited h hop
  cases hl : (interp.entry c s.world op).landed with
  | false =>
    left
    rw [Interp.settle, if_neg (by simp [hl])]
  | true =>
    cases hw : written op with
    | none => exact .inl (by rw [statusOf, thread_quiet hw, statusOf])
    | some status =>
      by_cases ht : t = threadOf (ops i)
      · exact .inr ⟨⟨status, rfl, ht.symm⟩, rfl⟩
      · exact .inl (by rw [statusOf, thread_other hnames ht, statusOf])

theorem inv_step (h : Reach (Sparing ops) (start ops w₀) s) (hinv : Inv ops s)
    (hc : Sparing ops s i c) (hs : s.step interp i c = some s') : Inv ops s' := by
  obtain ⟨op, k, ht, hworld, htask, hlog⟩ := Pool.step_cases interp hs
  have hop := Pool.awaits_of_task ht
  have hrunning := outcomeOf_of_awaits hop
  intro j hj hjrunning status hlast x hx
  rw [hworld] at hx
  by_cases hij : i = j
  · subst hij
    rw [lastOf, Pool.traceOf_step_same hlog, after_append] at hlast
    change (match written op with
      | some status => if (interp.entry c s.world op).landed = true then some status else lastOf s i
      | none => lastOf s i) = some status at hlast
    cases hw : written op with
    | none =>
      rw [hw] at hlast
      rw [statusOf, thread_quiet hw] at hx
      exact hinv i hj hrunning status hlast x hx
    | some status' =>
      rw [hw] at hlast
      cases hl : (interp.entry c s.world op).landed with
      | true =>
        simp only [hl, if_true, Option.some.injEq] at hlast
        subst hlast
        exact statusOf_written (names_awaited h hop) hw hl x hx
      | false =>
        simp only [hl] at hlast
        rw [Interp.settle, if_neg (by simp [hl])] at hx
        exact hinv i hj hrunning status hlast x hx
  · -- the other invocation has not started, so it has written nothing
    rw [lastOf, Pool.traceOf_step_other hlog hij] at hlast
    have hjbefore : outcomeOf s j = none := by
      rwa [outcomeOf, htask, Function.update_of_ne (Ne.symm hij)] at hjrunning
    rcases hc.1.alone j (Ne.symm hij) with hfresh | hended
    · rw [hfresh] at hlast
      cases hlast
    · exact absurd hjbefore hended

theorem inv_reach (h : Reach (Sparing ops) (start ops w₀) s) : Inv ops s := by
  induction h with
  | start => exact fun _ _ _ _ => nofun
  | step h hc hs ih => exact inv_step h ih hc hs

/-- A step changes a terminal status only by starting an invocation. -/
theorem terminal_step (h : Reach (Sparing ops) (start ops w₀) s) (hc : Sparing ops s i c)
    (hs : s.step interp i c = some s') {t status : String} (hstatus : statusOf s.world t = some status)
    (hterminal : terminal status = true) :
    statusOf s'.world t = some status ∨ ∃ e, s'.log = s.log ++ [(i, e)] ∧ restarts ops t (i, e) = true := by
  obtain ⟨op, k, ht, hworld, _, hlog⟩ := Pool.step_cases interp hs
  have hop := Pool.awaits_of_task ht
  have hrunning := outcomeOf_of_awaits hop
  rcases status_step (c := c) h hop t with hsame | ⟨⟨new, hw, rfl⟩, hl⟩
  · left
    rw [hworld, hsame, hstatus]
  · right
    refine ⟨_, hlog, ?_⟩
    cases ho : ops i with
    | setThreadStatus db t status event now =>
      have hkind := hc.1.kind
      rw [ho] at hkind
      cases hkind
    | requestKill db t now =>
      have hspares := hc.2
      rw [ho] at hspares hstatus
      change statusOf s.world t = some status at hstatus
      simp [spares, hstatus, hterminal] at hspares
    | invoke sup req d =>
      have hi : invokes (ops i) = true := by rw [ho]; rfl
      have hnew : new = "running" := by
        rcases guarantee_awaited h hi hop new hw with hnew | hlast
        · exact hnew
        · have heq := inv_reach h i hi hrunning "running" hlast status hstatus
          rw [heq] at hterminal
          cases hterminal
      simp only [restarts, hi, Interp.entry, hw, hnew, Bool.true_and, Bool.and_eq_true, beq_iff_eq]
      exact ⟨⟨by rw [ho], hl⟩, trivial⟩

end Runs

/-- Kills by themselves, one after another. -/
def kills (db : Dialect) (t : String) (nows : List String) (w : World) : World :=
  nows.foldl (fun w now => (call (requestKill db t now) w).2) w

def killed (db : Dialect) (t now : String) : ThreadRow :=
  ⟨t, "kill_requested", (match db with | .postgres => .bool true | .sqlite => .int 1),
    some "kill_requested", now⟩

/-- A kill by itself returns, and leaves the same row whatever was there. -/
theorem call_requestKill (db : Dialect) (t now : String) (w : World) :
    ∃ w', call (requestKill db t now) w =
        (.ok ⟨t, "kill_requested", (statusOf w t).getD "unknown"⟩, w') ∧
      w'.thread t = some (killed db t now) := by
  have hv := Serial.violates_stmt (.requestKill db t now) w
  have hrun := Serial.call_upsert db t "kill_requested" (some true) (some "kill_requested") now w hv
  have hread : alone (.fetch (.threadStatus t)) w = (.ok (w.thread t), w) := rfl
  refine ⟨w.apply (upsertStmt db t "kill_requested" (some true) (some "kill_requested") now (w.thread t)),
    ?_, ?_⟩
  · unfold call requestKill statusOf
    rw [Prog.run_bind, Prog.run_call, hread]
    cases hrow : w.thread t <;> simp only [hrow, Prog.run_bind] at hrun ⊢ <;> rw [hrun] <;> rfl
  · cases hrow : w.thread t with
    | none =>
      simp only [upsertStmt, World.thread_insert, hrow, killed]
      cases db <;> simp
    | some row =>
      simp only [upsertStmt, World.thread_update_same, hrow, killed]
      cases db <;> simp [World.threadId_of_thread hrow]

/-- Any number of kills leave the row that one leaves, but for its time. -/
theorem kills_row (db : Dialect) (t now : String) (nows : List String) (w : World) :
    (kills db t (now :: nows) w).thread t = some (killed db t ((now :: nows).getLast (by simp))) := by
  induction nows generalizing now w with
  | nil =>
    obtain ⟨w', hcall, hrow⟩ := call_requestKill db t now w
    simpa [kills, hcall] using hrow
  | cons next nows ih => simpa [kills] using ih next (call (requestKill db t now) w).2

/-- In every run of invocations and kills one after another without faults, with
no kill of a thread whose status is terminal, a terminal status stays until an
invocation writes `running`. And n kills in a row leave the row that one leaves,
timestamps aside; one on a terminal status always replaces it. -/
theorem terminal_status_stays {ι : Type} [DecidableEq ι] (ops : ι → Operation) (w₀ : World)
    (s s' : Stack ι) (h : Reach (Sparing ops) (start ops w₀) s) (h' : Reach (Sparing ops) s s') :
    (∀ t status, statusOf s.world t = some status → terminal status = true →
      (∀ x ∈ s'.log.drop s.log.length, restarts ops t x = false) → statusOf s'.world t = some status) ∧
    ∀ (db : Dialect) (t now : String) (nows : List String) (w : World),
      (∃ last, (kills db t (now :: nows) w).thread t =
        ((kills db t [now] w).thread t).map fun row => { row with updatedAt := last }) ∧
      ∀ status, terminal status = true → statusOf (kills db t [now] w) t ≠ some status := by
  refine ⟨fun t status hstatus hterminal hquiet => ?_, fun db t now nows w => ⟨?_, ?_⟩⟩
  · induction h' with
    | start => exact hstatus
    | @step s₁ s₂ i c h₁ hc hs ih =>
      obtain ⟨op, k, _, _, _, hlog⟩ := Pool.step_cases interp hs
      have hle := h₁.log_prefix.length_le
      rw [hlog, List.drop_append_of_le_length hle] at hquiet
      have hbefore := ih fun x hx => hquiet x (List.mem_append_left _ hx)
      rcases terminal_step (h.trans h₁) hc hs hbefore hterminal with hstays | ⟨e, he, hrestart⟩
      · exact hstays
      · rw [he] at hlog
        have hmem : e = interp.entry c s₁.world op := by simpa using hlog
        have hno := hquiet (i, e) (by simp [hmem])
        rw [hno] at hrestart
        cases hrestart
  · rw [kills_row, kills_row]
    exact ⟨_, rfl⟩
  · intro status hterminal heq
    rw [statusOf, kills_row] at heq
    cases heq
    cases hterminal

section Example

instance {ι : Type} [DecidableEq ι] [Fintype ι] (ops : ι → Operation) (s : Stack ι) (i : ι) (c : Choice) :
    Decidable (InTurn ops s i c) :=
  decidable_of_iff ((∀ j, j ≠ i → s.traceOf j = [] ∨ outcomeOf s j ≠ none) ∧ c.fault = none ∧
    invokesOrKills (ops i) = true) ⟨fun h => ⟨h.1, h.2.1, h.2.2⟩, fun h => ⟨h.alone, h.faultless, h.kind⟩⟩

instance {ι : Type} [DecidableEq ι] [Fintype ι] (ops : ι → Operation) (s : Stack ι) (i : ι) (c : Choice) :
    Decidable (Sparing ops s i c) := inferInstanceAs (Decidable (_ ∧ _))

/-- A kill of thread `t`, an invocation that sees it, and a kill of thread `t'`. -/
def thenKill (t' : String) : Fin 3 → Operation
  | 0 => .requestKill .sqlite "t" "0"
  | 1 => .invoke ⟨.sqlite, "agent.events", 8⟩ ⟨some "t", "hi", []⟩
      ⟨"t", "r", fun _ => "c", "m", fun _ => "now", .nan⟩
  | 2 => .requestKill .sqlite t' "1"

def killAndInvoke : List (Fin 3 × Choice) := List.replicate 3 (0, calm) ++ List.replicate 11 (1, calm)

/-- The status stays `killed` over a kill of another thread. -/
theorem terminal_status_stays_killed :
    ∃ s s', Reach (Sparing (thenKill "u")) (start (thenKill "u") World.empty) s ∧
      Reach (Sparing (thenKill "u")) s s' ∧ statusOf s.world "t" = some "killed" ∧
      returned s' 2 = true ∧ statusOf s'.world "t" = some "killed" := by
  obtain ⟨s, h, hkilled, hexec⟩ := Pool.Reach.exists_of_exec interp (Sparing (thenKill "u"))
    (start (thenKill "u") World.empty)
    (P := fun s => statusOf s.world "t" = some "killed" ∧
      (s.exec interp (Sparing (thenKill "u")) (List.replicate 3 (2, calm))).any (fun s' => decide
        (returned s' 2 = true ∧ ∀ x ∈ s'.log.drop s.log.length, restarts (thenKill "u") "t" x = false)) =
          true)
    killAndInvoke (by decide)
  obtain ⟨s', h', hreturned, hquiet⟩ := Pool.Reach.exists_of_exec interp (Sparing (thenKill "u")) s
    (P := fun s' => returned s' 2 = true ∧
      ∀ x ∈ s'.log.drop s.log.length, restarts (thenKill "u") "t" x = false)
    (List.replicate 3 (2, calm)) hexec
  obtain ⟨hstays, _⟩ := terminal_status_stays (thenKill "u") World.empty s s' h h'
  exact ⟨s, s', h, h', hkilled, hreturned, hstays "t" "killed" hkilled rfl hquiet⟩

/-- A second kill turns `killed` into `kill_requested`, and returns that. -/
theorem killed_status_replaced :
    ∃ s s', Reach (InTurn (thenKill "t")) (start (thenKill "t") World.empty) s ∧
      Reach (InTurn (thenKill "t")) s s' ∧ statusOf s.world "t" = some "killed" ∧
      (∀ x ∈ s'.log.drop s.log.length, restarts (thenKill "t") "t" x = false) ∧
      returned s' 2 = true ∧ statusOf s'.world "t" = some "kill_requested" := by
  obtain ⟨s, h, hkilled, hexec⟩ := Pool.Reach.exists_of_exec interp (InTurn (thenKill "t"))
    (start (thenKill "t") World.empty)
    (P := fun s => statusOf s.world "t" = some "killed" ∧
      (s.exec interp (InTurn (thenKill "t")) (List.replicate 3 (2, calm))).any (fun s' => decide
        ((∀ x ∈ s'.log.drop s.log.length, restarts (thenKill "t") "t" x = false) ∧
          returned s' 2 = true ∧ statusOf s'.world "t" = some "kill_requested")) = true)
    killAndInvoke (by decide)
  obtain ⟨s', h', hrest⟩ := Pool.Reach.exists_of_exec interp (InTurn (thenKill "t")) s
    (P := fun s' => (∀ x ∈ s'.log.drop s.log.length, restarts (thenKill "t") "t" x = false) ∧
      returned s' 2 = true ∧ statusOf s'.world "t" = some "kill_requested")
    (List.replicate 3 (2, calm)) hexec
  exact ⟨s, s', h, h', hkilled, hrest⟩

end Example

end NoblePort.Terminal
