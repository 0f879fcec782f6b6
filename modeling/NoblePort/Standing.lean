import NoblePort.StepLoop
import NoblePort.Closing
import NoblePort.Ownership

/-!
# A standing kill

Each iteration passes its kill check before it calls the step function, and
stores a checkpoint only after that. While the flag stands no check passes, so
an invocation has at most the one step left whose check came before.
-/
namespace NoblePort.Standing

open Coroutine Coroutine.Contract NoblePort.Values NoblePort.Store NoblePort.ThreadState
open NoblePort.Records NoblePort.Runtime NoblePort.System NoblePort.Monitor NoblePort.Requests
open NoblePort.Completion (Read resumed)
open NoblePort.StepLoop (mostCalls Answers)

/-- The kill check is still to come or found the flag, it passed, or the step
function has been called since. -/
inductive Stage where
  | closed | passed | stepped
  deriving DecidableEq, Repr

/-- The stage, and the checkpoint that was found if it has been looked for. -/
structure Gate where
  stage : Stage := .closed
  latest : Option (Option CheckpointRow) := none

/-- The flag of a row that was read. -/
def flagOf (row : Option ThreadRow) : Bool := (row.map (·.killRequested.truthy)).getD false

def watch (g : Gate) : Answered → Gate
  | ⟨.fetch (.latestCheckpoint _), .ok row, _⟩ => { g with latest := some row }
  | ⟨.fetch (.killRequested _), .ok row, _⟩ =>
    { g with stage := if flagOf row then .closed else .passed }
  | ⟨.stepFn _, _, _⟩ => { g with stage := .stepped }
  | _ => g

/-- One look for the checkpoint, a step only behind a check that passed, and a
checkpoint only after the step. -/
def gate : Contract Op Op.Resp Exc Gate where
  observe := watch
  rely _ _ := True
  guarantee g op :=
    match op with
    | .fetch (.latestCheckpoint _) => g.latest = none
    | .stepFn _ => g.stage = .passed
    | .execute (.insertCheckpoint _ _) => g.stage = .stepped
    | _ => True

/-- The calls that the gate does not see. -/
def passing : Op → Bool
  | .fetch (.latestCheckpoint _) | .fetch (.killRequested _) | .stepFn _
  | .execute (.insertCheckpoint _ _) => false
  | _ => true

section Programs

variable {sup : Supervisor} {req : Request} {d : Draws} {g : Gate}

theorem keeps_call {op : Op} (h : passing op = true) (S : Gate → Prop) :
    gate.Keeps S (.call op) := by
  refine .call (fun g _ => ?_) fun g r landed hg _ => ?_
  · cases op with
    | fetch q => cases q <;> trivial
    | execute st => cases st <;> trivial
    | stepFn state => cases h
    | _ => trivial
  · cases op with
    | fetch q => cases q <;> first | exact hg | cases h
    | execute st => cases st <;> exact hg
    | stepFn state => cases h
    | _ => exact hg

theorem keeps_setStatus (status event : String) (S : Gate → Prop) :
    gate.Keeps S (sup.setStatus req d status event) :=
  Invocation.keeps_upsert _ _ _ _ _ _ (keeps_call rfl S) fun st h => keeps_call (by
    cases st <;> trivial) S

theorem keeps_audit (S : Gate → Prop) : gate.Keeps S (sup.audit req d) :=
  Invocation.keeps_audit (keeps_call rfl S) fun _ => keeps_call rfl S

theorem keeps_announce (status event : String) (type : EventType) (i : Nat) (payload : Dict)
    (S : Gate → Prop) : gate.Keeps S
      (sup.setStatus req d status event >>= fun _ => sup.publish req d type i payload) :=
  .bind (keeps_setStatus status event S) fun _ => keeps_call rfl S

/-- The checkpoint has been looked for. -/
def Looked (g : Gate) : Prop := g.latest ≠ none

theorem wp_isKillRequested {Q : Gate → Except Exc Bool → Prop} (t : String)
    (hok : ∀ killed, Q { g with stage := if killed then .closed else .passed } (.ok killed))
    (herror : ∀ e, Q g (.error e)) : gate.wp (isKillRequested t) Q g := by
  refine gate.wp_call_seq trivial (fun row _ _ => ?_) fun e _ _ => herror e
  cases row with
  | none => exact hok false
  | some row => exact hok row.killRequested.truthy

theorem wp_getLatest {Q : Gate → Except Exc (Option CheckpointTuple) → Prop} (t : String)
    (hg : g.latest = none) (hok : ∀ row cp, Q { g with latest := some row } (.ok cp))
    (herror : ∀ e, Q g (.error e)) : gate.wp (PostgresCheckpointer.getLatest t) Q g := by
  refine gate.wp_call_seq hg (fun row _ _ => ?_) fun e _ _ => herror e
  cases row <;> exact hok _ _

theorem wp_put {Q : Gate → Except Exc CheckpointTuple → Prop} (db : Dialect) (t : String)
    (state : Dict) (parent : Option String) (uuid : String) (hg : g.stage = .stepped)
    (hend : ∀ r, Q g r) : gate.wp (PostgresCheckpointer.put db t state parent none uuid) Q g := by
  refine Keeps.seq (keeps_call rfl _) (fun text => ?_) (fun e => hend _)
  exact gate.wp_call_seq hg (fun _ _ _ => hend _) fun _ _ _ => hend _

theorem wp_iteration (i : Nat) (state : Dict) (parent : Option String) (hg : Looked g) :
    gate.wp (sup.iteration req d i state parent) (fun g _ => Looked g) g := by
  unfold Supervisor.iteration
  rw [wp_bind]
  refine wp_isKillRequested _ (fun killed => ?_) (fun _ => hg)
  cases killed with
  | true =>
    rw [andThen_ok, if_pos rfl]
    exact (Keeps.bind (keeps_call rfl Looked) fun _ => .bind (keeps_setStatus _ _ Looked)
      fun _ => .ret _).wp _ hg
  | false =>
    rw [andThen_ok, if_neg nofun]
    refine Keeps.seq (keeps_call rfl _) (fun _ => ?_) (fun _ => hg)
    refine gate.wp_call_seq rfl (fun next _ _ => ?_) fun _ _ _ => hg
    rw [wp_bind]
    refine wp_put _ _ _ _ _ rfl fun r => ?_
    cases r with
    | error e => exact hg
    | ok cp =>
      refine (Keeps.bind (keeps_call rfl Looked) fun _ => ?_).wp _ hg
      split <;> exact .ret _

/-- Who returns has looked. -/
def Ended (g : Gate) : Except Exc InvokeResult → Prop
  | .ok _ => Looked g
  | .error _ => True

def outline (sup : Supervisor) (req : Request) (d : Draws) :
    Invocation.Outline gate sup req d (· = {}) Ended where
  started g := g.latest = none
  head _ _ _ _ := Looked
  exit _ _ := Looked
  failed _ _ := True
  handled _ _ _ := True
  closing _ _ := Looked
  opens g hg := by
    subst hg
    exact Invocation.ends_of_keeps (keeps_announce _ _ _ _ _ (·.latest = none)) rfl (fun _ _ h => h)
      (fun _ _ _ => trivial)
  resumes g hg := wp_getLatest _ hg (fun _ _ => nofun) (fun _ => trivial)
  iterates _ i state parent g hg := by
    refine gate.wp_mono _ g (fun g r h => ?_) (wp_iteration i state parent hg)
    cases r with
    | error e => trivial
    | ok next => cases next <;> exact h
  exhausted _ _ _ _ hg := hg
  handles e g _ := by
    refine Invocation.ends_of_keeps ?_ trivial (fun _ _ h => h) (fun _ _ h => h)
    cases e <;> exact keeps_announce ..
  rethrows _ _ g _ := Invocation.ends_of_keeps (S := fun _ => True)
    (Invocation.keeps_finallyBlock (keeps_call rfl _)) trivial
    (fun _ _ _ => trivial) (fun _ _ _ => trivial)
  records _ _ g hg := Invocation.ends_of_keeps
    (Invocation.keeps_finallyBlock (keeps_call rfl _)) hg (fun _ _ h => h)
    (fun _ _ _ => trivial)
  concludes outcome _ g hg := by
    refine Invocation.ends_of_keeps ?_ hg (fun _ _ h => h) (fun _ _ _ => trivial)
    unfold Supervisor.conclude
    split
    · exact keeps_announce ..
    · exact .ret _

theorem wp_invoke (sup : Supervisor) (req : Request) (d : Draws) :
    gate.wp (sup.invoke req d) Ended {} :=
  Keeps.seq (keeps_audit _) (fun _ => Invocation.wp_proceed (outline sup req d) {} rfl)
    (fun _ => trivial)

end Programs

def isStep : Op → Bool
  | .stepFn _ => true
  | _ => false

def isPut : Op → Bool
  | .execute (.insertCheckpoint _ _) => true
  | _ => false

/-- A kill check of thread `t` found the flag. -/
def SeesFlag (t : String) : Answered → Prop
  | ⟨.fetch (.killRequested t'), .ok row, _⟩ => t' = t → flagOf row = true
  | _ => True

/-- Under a standing flag only the step function moves the gate, unless a check closes it. -/
theorem watch_stage {t : String} {g : Gate} {e : Answered} (hsees : SeesFlag t e)
    (ht : ∀ t', e.op = .fetch (.killRequested t') → t' = t) (hstep : isStep e.op = false) :
    (watch g e).stage = g.stage ∨ (watch g e).stage = .closed := by
  obtain ⟨op, result, landed⟩ := e
  cases op with
  | stepFn state => cases hstep
  | fetch q =>
    cases result with
    | error e => cases q <;> exact .inl rfl
    | ok row =>
      cases q with
      | killRequested t' =>
        have hflag : flagOf row = true := hsees (ht t' rfl)
        exact .inr (by simp [watch, hflag])
      | _ => exact .inl rfl
  | _ => exact .inl rfl

/-- A world in which the flag stands shows it to every check. -/
theorem sees_flag {t : String} {w : World} (hflag : w.killRequested t = true) (c : Choice) (op : Op) :
    SeesFlag t (interp.entry c w op) := by
  unfold SeesFlag
  split
  · rename_i t' row landed heq
    rintro rfl
    obtain ⟨_, hrow⟩ := rows_of_entry heq
    subst hrow
    unfold World.killRequested at hflag
    unfold flagOf
    simp only [World.rows]
    split at hflag
    · rename_i row hrow
      simpa [hrow] using hflag
    · cases hflag
  · trivial

section Runs

variable {ι : Type} [DecidableEq ι] {ops : ι → Operation} {w₀ : World}
  {cond : Stack ι → ι → Choice → Prop} {s s' : Stack ι} {i : ι} {sup : Supervisor} {req : Request}
  {d : Draws}

/-- The flag of thread `t` stands in the state a step starts from. -/
def Stands (t : String) (s : Stack ι) (_ : ι) (_ : Choice) : Prop := s.world.killRequested t = true

/-- What a task has done since. -/
def later (s s' : Stack ι) (i : ι) : List Answered := (s'.traceOf i).drop (s.traceOf i).length

/-- The last kill check let the invocation pass and it has not called the step function since. -/
def checkPassed (tr : List Answered) : Bool := (gate.after {} tr).stage = .passed

theorem later_sees {t : String} (h : Reach (Stands t) s s') :
    s'.traceOf i = s.traceOf i ++ later s s' i ∧ ∀ e ∈ later s s' i, SeesFlag t e := by
  obtain ⟨tail, hlog, hsees⟩ := h.log_since (P := fun x => SeesFlag t x.2)
    fun s j c hflag op _ => sees_flag hflag c op
  have htrace := Pool.traceOf_append hlog i
  have hlater : later s s' i = tail.filterMap fun x => if x.1 = i then some x.2 else none := by
    rw [later, htrace, List.drop_left]
  refine ⟨by rw [hlater, htrace], fun e he => ?_⟩
  rw [hlater, List.mem_filterMap] at he
  obtain ⟨⟨j, e'⟩, hx, he⟩ := he
  rw [Option.ite_none_right_eq_some, Option.some.injEq] at he
  rw [← he.2]
  exact hsees _ hx

omit [DecidableEq ι] in
theorem gated (hi : ops i = .invoke sup req d) :
    gate.wp ((start ops w₀).task i) (fun g r => ∀ reply, r = .ok reply → Looked g) {} := by
  simp only [start, hi]
  refine gate.wp_seq _ _ _ (wp_invoke sup req d) (fun g res hg reply _ => hg) fun g e _ reply h => ?_
  cases h

theorem guaranteed (h : Reach cond (start ops w₀) s) (hi : ops i = .invoke sup req d)
    {pre post : List Answered} {e : Answered} (htr : s.traceOf i = pre ++ e :: post) :
    gate.guarantee (gate.after {} pre) e.op :=
  h.guarantee_logged rfl (gated hi) (relied_of_forall _ fun _ _ _ => trivial) htr

/-- An invocation that returned has looked for the checkpoint. -/
theorem looked (h : Reach cond (start ops w₀) s) (hi : ops i = .invoke sup req d) {reply : Reply}
    (hr : outcomeOf s i = some (.ok reply)) : Looked (gate.after {} (s.traceOf i)) := by
  have hwp := h.wp_task rfl (gated hi) (relied_of_forall _ fun _ _ _ => trivial)
  exact wp_outcome hwp hr reply rfl

/-- Every call of an invocation names its own thread. -/
theorem names (h : Reach cond (start ops w₀) s) (hi : ops i = .invoke sup req d) {e : Answered}
    (he : e ∈ s.traceOf i) : Ownership.owns (.invoke sup req d) e.op := by
  obtain ⟨pre, post, htr⟩ := List.append_of_mem he
  have hown := h.guarantee_logged rfl (Ownership.owned_start ops w₀ i)
    (relied_of_forall _ fun _ _ _ => trivial) htr
  simp only [hi] at hown
  exact hown

/-- The kill checks of an invocation are of its own thread. -/
theorem own_check (h : Reach cond (start ops w₀) s) (hi : ops i = .invoke sup req d)
    {e : Answered} (he : e ∈ s.traceOf i) (t' : String) (hop : e.op = .fetch (.killRequested t')) :
    t' = Supervisor.tid req d := by
  have hnames := names h hi he
  rw [hop] at hnames
  exact hnames

/-- At most the step whose check has passed is left. -/
theorem steps_le (h : Reach cond (start ops w₀) s) (hi : ops i = .invoke sup req d)
    (pre post : List Answered) (htr : s.traceOf i = pre ++ post)
    (hsees : ∀ e ∈ post, SeesFlag (Supervisor.tid req d) e) :
    post.countP (fun e => isStep e.op) ≤ if checkPassed pre then 1 else 0 := by
  induction post generalizing pre with
  | nil => exact Nat.zero_le _
  | cons e post ih =>
    have htr' : s.traceOf i = (pre ++ [e]) ++ post := by rw [htr, List.append_assoc]; rfl
    have hrest := ih (pre ++ [e]) htr' fun e' he' => hsees e' (List.mem_cons_of_mem _ he')
    have hg := guaranteed h hi htr
    have hafter : gate.after {} (pre ++ [e]) = watch (gate.after {} pre) e := by
      rw [Contract.after_append]
      rfl
    cases hstep : isStep e.op with
    | true =>
      obtain ⟨op, result, landed⟩ := e
      cases op with
      | stepFn state =>
        have hstage : (gate.after {} pre).stage = .passed := hg
        have hpassed : checkPassed pre = true := by simp [checkPassed, hstage]
        have hstepped : checkPassed (pre ++ [⟨.stepFn state, result, landed⟩]) = false := by
          rw [checkPassed, hafter]
          rfl
        rw [hstepped, if_neg nofun] at hrest
        rw [hpassed, if_pos rfl, List.countP_cons, hstep, if_pos rfl]
        omega
      | _ => cases hstep
    | false =>
      have hback : checkPassed (pre ++ [e]) = true → checkPassed pre = true := by
        rw [checkPassed, hafter, checkPassed]
        rcases watch_stage (g := gate.after {} pre) (hsees e (List.mem_cons_self ..))
          (own_check h hi (by rw [htr]; simp)) hstep with hsame | hclosed
        · rw [hsame]
          exact id
        · rw [hclosed]
          nofun
      rw [List.countP_cons, hstep, if_neg nofun, Nat.add_zero]
      refine hrest.trans ?_
      split
      · rename_i hpassed
        rw [if_pos (hback hpassed)]
      · exact Nat.zero_le _

/-- Behind a closed gate nothing is left. -/
theorem idle (h : Reach cond (start ops w₀) s) (hi : ops i = .invoke sup req d)
    (pre post : List Answered) (htr : s.traceOf i = pre ++ post)
    (hsees : ∀ e ∈ post, SeesFlag (Supervisor.tid req d) e)
    (hclosed : (gate.after {} pre).stage = .closed) :
    ∀ e ∈ post, isStep e.op = false ∧ isPut e.op = false := by
  induction post generalizing pre with
  | nil =>
    intro e he
    cases he
  | cons e post ih =>
    have htr' : s.traceOf i = (pre ++ [e]) ++ post := by rw [htr, List.append_assoc]; rfl
    have hg := guaranteed h hi htr
    have hstep : isStep e.op = false := by
      cases hop : e.op with
      | stepFn state =>
        rw [hop] at hg
        cases hclosed.symm.trans hg
      | _ => rfl
    have hput : isPut e.op = false := by
      cases hop : e.op with
      | execute st =>
        cases st with
        | insertCheckpoint jsonb row =>
          rw [hop] at hg
          cases hclosed.symm.trans hg
        | _ => rfl
      | _ => rfl
    have hafter : (gate.after {} (pre ++ [e])).stage = .closed := by
      rw [Contract.after_append]
      rcases watch_stage (g := gate.after {} pre) (hsees e (List.mem_cons_self ..))
        (own_check h hi (by rw [htr]; simp)) hstep with hsame | hcloses
      · exact hsame.trans hclosed
      · exact hcloses
    intro e' he'
    rcases List.mem_cons.mp he' with rfl | he'
    · exact ⟨hstep, hput⟩
    · exact ih (pre ++ [e]) htr' (fun x hx => hsees x (List.mem_cons_of_mem _ hx)) hafter e' he'

/-- The checkpoint is looked for once. -/
theorem latest_kept (h : Reach cond (start ops w₀) s) (hi : ops i = .invoke sup req d)
    {row : Option CheckpointRow} (pre post : List Answered) (htr : s.traceOf i = pre ++ post)
    (hlatest : (gate.after {} pre).latest = some row) :
    (gate.after {} (s.traceOf i)).latest = some row := by
  induction post generalizing pre with
  | nil => rw [htr, List.append_nil, hlatest]
  | cons e post ih =>
    have htr' : s.traceOf i = (pre ++ [e]) ++ post := by rw [htr, List.append_assoc]; rfl
    refine ih (pre ++ [e]) htr' ?_
    have hg := guaranteed h hi htr
    rw [Contract.after_append]
    obtain ⟨op, result, landed⟩ := e
    cases op with
    | fetch q =>
      cases q with
      | latestCheckpoint t => cases hlatest.symm.trans hg
      | _ => cases result <;> exact hlatest
    | _ => exact hlatest

theorem latest_found (h : Reach cond (start ops w₀) s) (hi : ops i = .invoke sup req d) {t : String}
    {row : Option CheckpointRow} {landed : Bool}
    (he : ⟨.fetch (.latestCheckpoint t), .ok row, landed⟩ ∈ s.traceOf i) :
    (gate.after {} (s.traceOf i)).latest = some row := by
  obtain ⟨pre, post, htr⟩ := List.append_of_mem he
  refine latest_kept h hi (pre ++ [_]) post (by rw [htr, List.append_assoc]; rfl) ?_
  rw [Contract.after_append]
  rfl

/-- What the gate has seen was answered. -/
theorem latest_logged (tr : List Answered) {row : Option CheckpointRow}
    (hlatest : (gate.after {} tr).latest = some row) :
    ∃ t landed, ⟨.fetch (.latestCheckpoint t), .ok row, landed⟩ ∈ tr := by
  induction tr using List.reverseRecOn with
  | nil => cases hlatest
  | append_singleton tr e ih =>
    rw [Contract.after_append] at hlatest
    have hkept (h : (gate.after {} tr).latest = some row) :
        ∃ t landed, ⟨.fetch (.latestCheckpoint t), .ok row, landed⟩ ∈ tr ++ [e] := by
      obtain ⟨t, landed, hmem⟩ := ih h
      exact ⟨t, landed, List.mem_append_left _ hmem⟩
    obtain ⟨op, result, landed⟩ := e
    cases op with
    | fetch q =>
      cases q with
      | latestCheckpoint t =>
        cases result with
        | error e => exact hkept hlatest
        | ok row' =>
          cases hlatest
          exact ⟨t, landed, by simp⟩
      | _ => cases result <;> exact hkept hlatest
    | _ => exact hkept hlatest

/-- `json.dumps` where it raises nothing. -/
def encoded (fields : Dict) : Except Exc JsonObject := .ok ((dumps fields).toOption.getD [])

/-- The answers to an invocation that never steps, as the step loop relies on them. -/
theorem answered (h : Reach cond (start ops w₀) s) (hi : ops i = .invoke sup req d)
    (hfaultless : ∀ e ∈ s.traceOf i, e.failed = false)
    (hidle : ∀ e ∈ s.traceOf i, isStep e.op = false) :
    ∀ e ∈ s.traceOf i, Answers id encoded ((gate.after {} (s.traceOf i)).latest.getD none) e := by
  intro e he
  obtain ⟨op, result, landed⟩ := e
  cases op with
  | stepFn state => cases hidle _ he
  | jsonDumps fields =>
    cases result with
    | error exc => cases hfaultless _ he
    | ok text =>
      have htext : dumps fields = .ok text := StepLoop.encodes_logged h rfl _ (Pool.mem_traceOf.mp he)
      change _ = encoded fields
      rw [encoded, htext]
      rfl
  | fetch q =>
    cases q with
    | latestCheckpoint t =>
      cases result with
      | error exc => cases hfaultless _ he
      | ok row =>
        rw [latest_found h hi he]
        rfl
    | _ => exact hfaultless _ he
  | _ => exact hfaultless _ he

/-- The killed event of an invocation is on the bus. -/
theorem event_published (h : Reach cond (start ops w₀) s) (hi : ops i = .invoke sup req d)
    (hfaultless : ∀ e ∈ s.traceOf i, e.failed = false) {event : Event}
    (hevent : event ∈ (summaryOf s i).events) :
    event ∈ s.world.published ∧ event.threadId = Supervisor.tid req d ∧
      event.carries d.requestId = true := by
  have hevents : (summaryOf s i).events = (s.traceOf i).flatMap eventsBy :=
    foldl_note (fun e he => note_events fun _ _ _ => exactly_of_ok h he (hfaultless e he)) {}
  rw [hevents, List.mem_flatMap] at hevent
  obtain ⟨e, he, hevent⟩ := hevent
  have hx : (i, e) ∈ s.log := Pool.mem_traceOf.mp he
  refine ⟨published_logged h hx hevent, ?_⟩
  have hcarried := carried h hx
  have hown := names h hi he
  obtain ⟨op, result, landed⟩ := e
  cases op with
  | publish channel event' =>
    obtain rfl : event = event' := by
      cases landed with
      | true => exact List.mem_singleton.mp hevent
      | false => cases hevent
    simp only [hi] at hcarried
    obtain ⟨id, hid, hget⟩ := hcarried
    cases hid
    exact ⟨hown, by simp [Event.carries, hget]⟩
  | _ => cases hevent

/-- What an invocation that begins under a standing flag returns and leaves. -/
structure Killed (sup : Supervisor) (req : Request) (d : Draws) (s : Stack ι) (i : ι)
    (res : InvokeResult) : Prop where
  outcome : res.outcome = .killed
  status : (summaryOf s i).status = some "killed"
  event : ∃ event ∈ s.world.published, event.type = .invokeKilled ∧
    event.threadId = Supervisor.tid req d ∧ event.carries d.requestId = true
  state : ∃ row landed, ⟨.fetch (.latestCheckpoint (Supervisor.tid req d)), .ok row, landed⟩ ∈
    s.traceOf i ∧ res.state = resumed req d row

/-- The kill checks of the trace all found the flag. -/
theorem reads_flag (h : Reach cond (start ops w₀) s) (hi : ops i = .invoke sup req d)
    (hsees : ∀ e ∈ s.traceOf i, SeesFlag (Supervisor.tid req d) e) :
    ∀ b ∈ (summaryOf s i).killReads, b = true := by
  intro b hb
  rw [show (summaryOf s i).killReads = _ from reads_eq _, List.mem_flatMap] at hb
  obtain ⟨e, he, hb⟩ := hb
  have hown := own_check h hi he
  have hsee := hsees e he
  unfold readBy at hb
  split at hb
  · rw [List.mem_singleton.mp hb]
    exact hsee (hown _ rfl)
  · cases hb

theorem ends_killed {f : Dict → Dict} {s₀ state : Dict} {n calls : Nat} {outcome : Outcome}
    (h : StepLoop.Ends f (fun _ => true) s₀ n outcome state calls) (hn : 0 < n) :
    outcome = .killed ∧ state = s₀ := by
  cases h with
  | exhausted honward => exact absurd (.inl rfl) (honward 0 hn)
  | killed _ _ honward _ =>
    cases calls with
    | zero => exact ⟨rfl, rfl⟩
    | succ j => exact absurd (.inl rfl) (honward 0 (Nat.succ_pos j))
  | completed j _ _ hkill _ => cases hkill

theorem not_killed {f : Dict → Dict} {s₀ state : Dict} {n calls : Nat} {outcome : Outcome}
    (h : StepLoop.Ends f (fun _ => false) s₀ n outcome state calls) : outcome ≠ .killed := by
  cases h with
  | exhausted _ => nofun
  | killed _ _ _ hkill => cases hkill
  | completed _ _ _ _ _ => nofun

/-- A loop under a standing flag was left by its first check. -/
theorem decided_of_over {row : Option CheckpointRow} {outcome : Outcome} {state : Dict} {m : Summary}
    (hover : StepLoop.Over id encoded row sup req d outcome state m) (hsteps : 1 ≤ sup.maxSteps)
    (hreads : ∀ b ∈ m.killReads, b = true) :
    outcome = .killed ∧ state = resumed req d row ∧ Closing.Decided m := by
  have htrue := hover.ends (fun _ => true) fun k b hk => (hreads b (List.mem_of_getElem? hk)).symm
  obtain ⟨rfl, hstate⟩ := ends_killed htrue (by omega)
  refine ⟨rfl, hstate, .inl ?_⟩
  cases hr : m.killReads with
  | cons b rest =>
    rw [hr] at hreads
    rw [← hreads b (List.mem_cons_self ..)]
    exact List.mem_cons_self ..
  | nil =>
    have hfalse := hover.ends (fun _ => false) (by rw [hr]; nofun)
    exact absurd rfl (not_killed hfalse)

/-- An invocation that was left so reports it. -/
theorem killed_of_decided (h : Reach Anyhow (start ops w₀) s) (hi : ops i = .invoke sup req d)
    (hfaultless : ∀ e ∈ s.traceOf i, e.failed = false) {res : InvokeResult}
    (hres : outcomeOf s i = some (.ok (.invoked res))) (houtcome : res.outcome = .killed)
    (hstate : res.state = resumed req d ((gate.after {} (s.traceOf i)).latest.getD none))
    (hdecided : Closing.Decided (summaryOf s i)) : Killed sup req d s i res := by
  have hclosing := monitored h hi (Closing.outline sup req d) trivial (fun _ _ _ => trivial)
    (relied_of_forall _ fun e he _ => hfaultless e he)
  rw [hres] at hclosing
  obtain ⟨before, last, st, hevents, _, _, hst, hagrees⟩ := hclosing.mpr hdecided
  rw [houtcome] at hagrees
  obtain ⟨htype, rfl⟩ := hagrees
  have hlast : last ∈ (summaryOf s i).events := by rw [hevents]; simp
  obtain ⟨hpublished, hthread, hcarries⟩ := event_published h hi hfaultless hlast
  obtain ⟨row, hrow⟩ := Option.ne_none_iff_exists'.mp (looked h hi hres)
  obtain ⟨t, landed, hmem⟩ := latest_logged _ hrow
  obtain rfl : t = Supervisor.tid req d := names h hi hmem
  refine ⟨houtcome, hst, ⟨last, hpublished, htype, hthread, hcarries⟩, row, landed, hmem, ?_⟩
  rw [hstate, hrow]
  rfl

theorem killed_of_standing (h : Reach Anyhow (start ops w₀) s) (hi : ops i = .invoke sup req d)
    (hfaultless : ∀ e ∈ s.traceOf i, e.failed = false) (hsteps : 1 ≤ sup.maxSteps)
    (hsees : ∀ e ∈ s.traceOf i, SeesFlag (Supervisor.tid req d) e) :
    match outcomeOf s i with
    | none => (s.traceOf i).length < mostCalls sup
    | some (.ok (.invoked res)) => Killed sup req d s i res
    | some _ => False := by
  have hidle := idle h hi [] (s.traceOf i) rfl hsees rfl
  have hanswers := answered h hi hfaultless fun e he => (hidle e he).1
  obtain ⟨hrunning, hended⟩ := StepLoop.over_of_answers h hi rfl hanswers
  have hover (r : Except Exc Reply) (hr : outcomeOf s i = some r) : ∃ res, r = .ok (.invoked res) ∧
      StepLoop.Over id encoded ((gate.after {} (s.traceOf i)).latest.getD none) sup req d res.outcome
        res.state (summaryOf s i) := by
    rcases hended r hr with hover | ⟨_, _, _, hleft⟩
    · exact hover
    · cases (hleft.refuses (fun k => (summaryOf s i).killReads.getD k false)
        (fun k b hk => by simp [hk])).refused
  split
  · rename_i hnone
    exact hrunning hnone
  · rename_i res hres
    obtain ⟨_, heq, hover⟩ := hover _ hres
    cases heq
    obtain ⟨houtcome, hstate, hdecided⟩ := decided_of_over hover hsteps (reads_flag h hi hsees)
    exact killed_of_decided h hi hfaultless hres houtcome hstate hdecided
  · rename_i r hother hr
    obtain ⟨res, rfl, _⟩ := hover r hr
    exact hother res rfl

end Runs

variable {ι : Type} [DecidableEq ι]

instance (t : String) (s : Stack ι) (i : ι) (c : Choice) : Decidable (Stands t s i c) :=
  inferInstanceAs (Decidable (_ = _))

/-- A kill between two invocations of its thread. -/
def besieged : Fin 3 → Operation
  | 0 => .invoke ⟨.sqlite, "agent.events", 8⟩ ⟨some "t", "hi", []⟩
      ⟨"t", "r0", fun i => String.ofList (List.replicate i 'c'), "m0", fun _ => "now", .nan⟩
  | 1 => .requestKill .sqlite "t" "now"
  | 2 => .invoke ⟨.sqlite, "agent.events", 8⟩ ⟨some "t", "hi", []⟩
      ⟨"t", "r2", fun i => String.ofList (List.replicate i 'd'), "m2", fun _ => "now", .nan⟩

/-- The first invocation up to its step, and the kill. -/
def begun (first kill : ι) : List (ι × Choice) := turns (List.replicate 7 first ++ List.replicate 3 kill)

/-- The two invocations take turns. -/
def ending (first second : ι) : List (ι × Choice) :=
  turns ((List.replicate 10 [first, second]).flatten ++ [second])

end NoblePort.Standing
