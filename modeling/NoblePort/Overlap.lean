import Mathlib.Data.Fintype.Card
import NoblePort.System
import NoblePort.Invocation
import NoblePort.Turns

/-!
# Overlapping invocations

Each invocation reads the latest checkpoint and puts its own one later. The
turns of a thread are all kept exactly as long as no other invocation puts a
checkpoint between the two.
-/
namespace NoblePort.Overlap

open Coroutine Coroutine.Contract NoblePort.Values NoblePort.Store NoblePort.ThreadState
open NoblePort.Records NoblePort.Runtime NoblePort.System NoblePort.Turns

/-- Where an invocation stands between its read of the latest checkpoint and
its put; `lost` is a put that raised. -/
inductive Stage where
  | before
  | reading (row : Option CheckpointRow)
  | written
  | lost

def Stage.isReading : Stage → Bool
  | .reading _ => true
  | _ => false

def Stage.isWritten : Stage → Bool
  | .written => true
  | _ => false

/-- The call put a checkpoint. -/
def puts : Op → Bool
  | .execute (.insertCheckpoint _ _) => true
  | _ => false

def watch : Stage → Answered → Stage
  | _, ⟨.fetch (.latestCheckpoint _), .ok row, _⟩ => .reading row
  | _, ⟨.execute (.insertCheckpoint _ _), .ok _, _⟩ => .written
  | _, ⟨.execute (.insertCheckpoint _ _), .error _, _⟩ => .lost
  | stage, _ => stage

/-- Without a fault the answers are those of the store, of `json.dumps` and of
the default step, and the latest row is the end of some history. -/
def Reliable (strOf : PyVal → String) (t : String) : Answered → Prop
  | ⟨.fetch (.latestCheckpoint _), .ok row, _⟩ => ∃ past, row = latestOf t past
  | ⟨.stepFn state, r, _⟩ => r = defaultSupervisorStep strOf state
  | ⟨.jsonDumps fields, r, _⟩ => r = dumps fields
  | _ => True

/-- Read once the row some history ends in, then put the next turn of that history. -/
def turnContract (strOf : PyVal → String) (t : String) (turn : Turn) :
    Contract Op Op.Resp Exc Stage where
  observe := watch
  rely _ := Reliable strOf t
  guarantee stage op :=
    match op with
    | .execute (.insertCheckpoint _ row) =>
      ∃ past, stage = .reading (latestOf t past) ∧ row = rowOf t turn past
    | .fetch (.latestCheckpoint t') => t' = t ∧ stage = .before
    | _ => True

/-- The calls that neither read nor put a checkpoint. -/
def quiet : Op → Bool
  | .fetch (.latestCheckpoint _) => false
  | .execute (.insertCheckpoint _ _) => false
  | _ => true

variable {strOf : PyVal → String} {t : String} {turn : Turn}

theorem watch_quiet {e : Answered} (h : quiet e.op = true) (stage : Stage) : watch stage e = stage := by
  unfold watch
  split <;> first | rfl | cases h

theorem watch_put {e : Answered} (h : puts e.op = true) (stage : Stage) :
    watch stage e = if e.failed then .lost else .written := by
  obtain ⟨op, result, landed⟩ := e
  unfold puts at h
  split at h
  · rename_i heq
    cases heq
    cases result <;> rfl
  · cases h

theorem guarantee_quiet {op : Op} (h : quiet op = true) (stage : Stage) :
    (turnContract strOf t turn).guarantee stage op := by
  simp only [turnContract]
  split <;> trivial

theorem keeps_call {S : Stage → Prop} {op : Op} (h : quiet op = true) :
    (turnContract strOf t turn).Keeps S (.call op) := by
  refine .call (fun s _ => guarantee_quiet h s) fun s r landed hs _ => ?_
  change S (watch s _)
  rwa [watch_quiet h]

theorem announces (sup : Supervisor) (req : Request) (d : Draws) {S : Stage → Prop} :
    Invocation.Announces (turnContract strOf t turn) sup req d S where
  status _ _ := Invocation.keeps_upsert _ _ _ _ _ _ (keeps_call rfl) fun st h => keeps_call (by
    cases st <;> first | rfl | cases h)
  publish _ _ _ := keeps_call rfl

theorem keeps_parts (sup : Supervisor) (req : Request) (d : Draws) {S : Stage → Prop}
    (outcome : Outcome) :
    (turnContract strOf t turn).Keeps S (sup.audit req d) ∧
      (turnContract strOf t turn).Keeps S (isKillRequested (Supervisor.tid req d)) ∧
      (turnContract strOf t turn).Keeps S (Supervisor.finallyBlock req d outcome) := by
  refine ⟨?_, ?_, ?_⟩
  · exact Invocation.keeps_audit (keeps_call rfl) fun _ => keeps_call rfl
  · exact Invocation.keeps_isKillRequested (keeps_call rfl)
  · exact Invocation.keeps_finallyBlock (keeps_call rfl)

section Invocations

variable (strOf : PyVal → String) (sup : Supervisor) (req : Request) (d : Draws)

/-- The contract of one invocation on its own thread. -/
abbrev own : Contract Op Op.Resp Exc Stage :=
  turnContract strOf (Supervisor.tid req d) (turnOf req d)

/-- Before the only iteration that runs: resumed from the row that was read. -/
def Resumed (i : Nat) (state : Dict) (parent : Option String) (stage : Stage) : Prop :=
  i = 0 ∧ ∃ past, stage = .reading (latestOf (Supervisor.tid req d) past) ∧
    state = Supervisor.resume req d
      ((latestOf (Supervisor.tid req d) past).map CheckpointTuple.ofRow) ∧
    parent = (latestOf (Supervisor.tid req d) past).map (·.checkpointId)

/-- An outcome `ok` comes after the put. -/
def OkWritten (outcome : Outcome) (stage : Stage) : Prop := outcome = .ok → stage = .written

theorem wp_put (past : List Turn) (parent : Option String) (Q : Stage → Except Exc CheckpointTuple → Prop)
    (hparent : parent = (latestOf (Supervisor.tid req d) past).map (·.checkpointId))
    (hok : ∀ cp, Q .written (.ok cp)) (herror : ∀ s e, Q s (.error e)) :
    (own strOf req d).wp (PostgresCheckpointer.put sup.db (Supervisor.tid req d)
      (stateOf (Supervisor.tid req d) (turnOf req d) past) parent none (d.checkpointId 0)) Q
      (.reading (latestOf (Supervisor.tid req d) past)) := by
  unfold PostgresCheckpointer.put
  rw [wp_bind, wp_call]
  refine ⟨trivial, ?_⟩
  intro r landed hr
  rw [show r = dumps _ from hr, dumps_stateOf, andThen_ok]
  refine wp_call_seq _ ⟨past, rfl, ?_⟩ (fun _ _ _ => hok _) fun e _ _ => herror _ e
  subst hparent
  cases past <;> rfl

theorem wp_iteration (hinput : req.inputText ≠ "") (i : Nat) (state : Dict)
    (parent : Option String) (stage : Stage) (h : Resumed req d i state parent stage) :
    (own strOf req d).wp (sup.iteration req d i state parent)
      (ends (fun next stage => match next with
        | .stop outcome _ => OkWritten outcome stage
        | .again _ _ => False) fun _ _ => True) stage := by
  obtain ⟨rfl, past, rfl, rfl, hparent⟩ := h
  refine Keeps.seq (keeps_parts sup req d .ok).2.1 (fun killed => ?_) fun _ => trivial
  cases killed with
  | true =>
    refine Keeps.seq (keeps_call rfl) (fun _ => ?_) fun _ => trivial
    refine Keeps.seq ((announces sup req d).status _ _) (fun _ => ?_) fun _ => trivial
    exact nofun
  | false =>
    refine Keeps.seq (keeps_call rfl) (fun _ => ?_) fun _ => trivial
    rw [wp_bind, wp_call]
    refine ⟨trivial, ?_⟩
    intro r landed hr
    rw [show r = defaultSupervisorStep strOf _ from hr, step_adds_turn strOf req d past hinput,
      andThen_ok, wp_bind]
    refine wp_put strOf sup req d past parent _ hparent (fun cp => ?_) fun _ _ => trivial
    refine Keeps.seq (keeps_call rfl) (fun _ => ?_) fun _ => trivial
    rw [if_pos (truthyAt_stateOf _ _ _)]
    exact fun _ => rfl

def outline (hinput : req.inputText ≠ "") : Invocation.Outline (own strOf req d) sup req d
    (· = .before) (fun stage r => ∀ res, r = .ok res → OkWritten res.outcome stage) where
  started := (· = .before)
  head _ := Resumed req d
  exit outcome _ := OkWritten outcome
  failed _ _ := True
  handled _ _ _ := True
  closing outcome _ := OkWritten outcome
  opens s hs := Invocation.ends_of_keeps (S := (· = .before))
    (Invocation.keeps_opening (announces sup req d)) hs (fun _ _ hs => hs) (fun _ _ _ => nofun)
  resumes s hs := by
    subst hs
    refine wp_call_seq _ ⟨rfl, rfl⟩ (fun row _ hr => ?_) fun _ _ _ => trivial
    obtain ⟨past, rfl⟩ := hr
    cases past <;> exact ⟨rfl, _, rfl, rfl, rfl⟩
  iterates n i state parent s hs := by
    refine wp_mono _ _ s ?_ (wp_iteration strOf sup req d hinput i state parent s hs)
    intro s r h
    cases r with
    | error e => trivial
    | ok next => cases next with
      | stop outcome resultState => exact h
      | again state parent => exact h.elim
  exhausted i state parent s hs := fun h => by cases h
  handles e s hs := Invocation.ends_of_keeps (Invocation.keeps_handler (announces sup req d) e) hs
    (fun _ _ hs => hs) (fun _ _ hs => hs)
  rethrows outcome e s hs := Invocation.ends_of_keeps (S := fun _ => True)
    (keeps_parts sup req d outcome).2.2 hs
    (fun _ _ _ => nofun) (fun _ _ _ => nofun)
  records outcome resultState s hs := Invocation.ends_of_keeps (keeps_parts sup req d outcome).2.2 hs
    (fun _ _ hs => hs) (fun _ _ _ => nofun)
  concludes outcome resultState s hs :=
    Invocation.ends_of_keeps (Invocation.keeps_conclude (announces sup req d) outcome resultState) hs
      (fun _ s hs res hres => by cases hres; exact hs) (fun _ _ _ => nofun)

theorem invoke_turn (hinput : req.inputText ≠ "") :
    (own strOf req d).wp (Operation.invoke sup req d).program
      (fun stage r => ∀ res, r = .ok (.invoked res) → OkWritten res.outcome stage) .before := by
  refine wp_seq _ _ _ _ (R := fun stage r => ∀ res, r = .ok res → OkWritten res.outcome stage) ?_ ?_ ?_
  · refine Keeps.seq (keeps_parts sup req d .ok).1 (fun _ => ?_) fun _ => nofun
    exact Invocation.wp_proceed (outline strOf sup req d hinput) _ rfl
  · intro s res h res' hres
    cases hres
    exact h _ rfl
  · intro s e _
    exact nofun

end Invocations

variable {ι : Type} [DecidableEq ι] {sup : ι → Supervisor} {req : ι → Request} {d : ι → Draws}
  {w₀ : World}

abbrev calls (sup : ι → Supervisor) (req : ι → Request) (d : ι → Draws) (i : ι) : Operation :=
  .invoke (sup i) (req i) (d i)

def stageOf (s : Stack ι) (i : ι) : Stage := (s.traceOf i).foldl watch .before

def wrote (e : Answered) : Bool := puts e.op && !e.failed

/-- The invocations that have put their checkpoint, the latest first. -/
def writers (s : Stack ι) : List ι :=
  (s.log.filterMap fun x => if wrote x.2 then some x.1 else none).reverse

/-- The turns the writers took. -/
def turns (req : ι → Request) (d : ι → Draws) (s : Stack ι) : List Turn :=
  (writers s).map fun i => turnOf (req i) (d i)

/-- No fault, and the default step function. -/
def Calm (strOf : PyVal → String) (c : Choice) : Prop :=
  c.fault = none ∧ c.step = defaultSupervisorStep strOf

/-- Task `i` does not put its checkpoint while another invocation stands
between its read of the latest checkpoint and its put. -/
def Alone (s : Stack ι) (i : ι) : Prop :=
  (s.task i).awaits.any puts = true → ∀ j, j ≠ i → (stageOf s j).isReading = false

/-- The store holds the history of the turns taken, every invocation that is
reading has read the end of it, and a writer is listed once. -/
structure Inv (strOf : PyVal → String) (t : String) (req : ι → Request) (d : ι → Draws)
    (s : Stack ι) : Prop where
  reliable : ∀ x ∈ s.log, Reliable strOf t x.2
  history : s.world.checkpoints t = history t (turns req d s)
  fresh : ∀ i row, stageOf s i = .reading row → row = latestOf t (turns req d s)
  once : ∀ i, (writers s).count i = if (stageOf s i).isWritten then 1 else 0

section Steps

variable {s s' : Stack ι} {i : ι} {e : Answered}

theorem stageOf_step (hlog : s'.log = s.log ++ [(i, e)]) (j : ι) :
    stageOf s' j = if i = j then watch (stageOf s j) e else stageOf s j := by
  by_cases hij : i = j
  · subst hij
    simp [stageOf, Pool.traceOf_step_same hlog]
  · simp [stageOf, Pool.traceOf_step_other hlog hij, hij]

omit [DecidableEq ι] in
theorem writers_step (hlog : s'.log = s.log ++ [(i, e)]) :
    writers s' = if wrote e then i :: writers s else writers s := by
  unfold writers
  rw [hlog, List.filterMap_append, List.reverse_append]
  cases h : wrote e <;> simp [h]

omit [DecidableEq ι] in
theorem checkpoints_quiet {c : Choice} {w : World} {op : Op} (h : puts op = false) (t : String) :
    (interp.settle w (interp.entry c w op)).checkpoints t = w.checkpoints t := by
  unfold Interp.settle
  split
  · cases op with
    | execute st => cases st with
      | insertCheckpoint jsonb row => cases h
      | _ => rfl
    | _ => rfl
  · rfl

/-- A checkpoint that goes in is the last one of its thread. -/
theorem checkpoints_put {strOf : PyVal → String} {c : Choice} {w : World} {jsonb : Bool}
    {row : CheckpointRow} (hc : Calm strOf c) :
    (interp.settle w (interp.entry c w (.execute (.insertCheckpoint jsonb row)))).checkpoints
        row.threadId =
      if (interp.entry c w (.execute (.insertCheckpoint jsonb row))).failed then
        w.checkpoints row.threadId else w.checkpoints row.threadId ++ [row] := by
  cases hv : w.violates (.insertCheckpoint jsonb row) <;>
    simp [Interp.settle, Interp.entry, interp, World.answer, hv, Entry.failed, Choice.strike, hc.1,
      World.effect, World.apply, World.checkpoints]

theorem reliable_entry {strOf : PyVal → String} {t : String} {c : Choice} {w : World} {op : Op}
    (hc : Calm strOf c) (hlatest : ∀ t', op = .fetch (.latestCheckpoint t') →
      ∃ past, (w.checkpoints t').getLast? = latestOf t past) :
    Reliable strOf t (interp.entry c w op) := by
  cases op with
  | jsonDumps fields => simp [Reliable, Interp.entry, interp, World.answer, hc.1]
  | stepFn state => simp [Reliable, Interp.entry, interp, World.answer, hc.1, hc.2, Choice.strike]
  | fetch q => cases q with
    | latestCheckpoint t' =>
      simpa [Reliable, Interp.entry, interp, World.answer, hc.1, Choice.strike, World.rows] using
        hlatest t' rfl
    | _ => trivial
  | _ => trivial

end Steps

variable {strOf : PyVal → String} {t : String}

/-- The steps of a run in which nobody puts between another's read and put. -/
def Serial (strOf : PyVal → String) (s : Stack ι) (i : ι) (c : Choice) : Prop :=
  Alone s i ∧ Calm strOf c

theorem inv_start (h₀ : w₀.checkpoints t = []) : Inv strOf t req d (start (calls sup req d) w₀) where
  reliable := by simp [start]
  history := h₀
  fresh := nofun
  once _ := rfl

/-- What an invocation is about to do follows its contract. -/
theorem own_guarantee {s : Stack ι} {cond : Stack ι → ι → Choice → Prop}
    (h : Reach cond (start (calls sup req d) w₀) s) (hinv : Inv strOf t req d s)
    (htid : ∀ i, Supervisor.tid (req i) (d i) = t) (hinput : ∀ i, (req i).inputText ≠ "")
    {i : ι} {op : Op} (ha : (s.task i).awaits = some op) :
    (turnContract strOf t (turnOf (req i) (d i))).guarantee (stageOf s i) op := by
  have hwp := invoke_turn strOf (sup i) (req i) (d i) (hinput i)
  rw [own, htid i] at hwp
  refine h.guarantee_awaits rfl hwp (relied_of_forall _ ?_) ha
  intro e he _
  exact hinv.reliable _ (Pool.mem_traceOf.mp he)

section Step

variable {s s' : Stack ι} {i : ι} {c : Choice} {op : Op}
  (hinv : Inv strOf t req d s) (hworld : s'.world = interp.settle s.world (interp.entry c s.world op))
  (hlog : s'.log = s.log ++ [(i, interp.entry c s.world op)])

include hinv hworld hlog

theorem inv_quiet (hreliable : ∀ x ∈ s'.log, Reliable strOf t x.2) (hq : quiet op = true) :
    Inv strOf t req d s' := by
  have hputs : puts op = false := by
    cases op with
    | execute st => cases st <;> first | rfl | cases hq
    | _ => rfl
  have hstage : ∀ j, stageOf s' j = stageOf s j := by
    intro j
    rw [stageOf_step hlog, watch_quiet hq]
    exact ite_self _
  have hwriters : writers s' = writers s := by
    rw [writers_step hlog, wrote, show puts (interp.entry c s.world op).op = false from hputs]
    rfl
  refine ⟨hreliable, ?_, ?_, ?_⟩
  · rw [hworld, checkpoints_quiet hputs, hinv.history, turns, turns, hwriters]
  · intro j row hj
    rw [hstage] at hj
    rw [turns, hwriters]
    exact hinv.fresh j row hj
  · intro j
    rw [hwriters, hstage]
    exact hinv.once j

theorem inv_read (hreliable : ∀ x ∈ s'.log, Reliable strOf t x.2) (hcalm : Calm strOf c)
    (hop : op = .fetch (.latestCheckpoint t)) (hbefore : stageOf s i = .before) :
    Inv strOf t req d s' := by
  subst hop
  have hentry : interp.entry c s.world (.fetch (.latestCheckpoint t)) =
      ⟨.fetch (.latestCheckpoint t), .ok (s.world.checkpoints t).getLast?, true⟩ := by
    simp [Interp.entry, interp, World.answer, hcalm.1, Choice.strike, World.rows]
  have hwriters : writers s' = writers s := by rw [writers_step hlog]; rfl
  have hstage : ∀ j, stageOf s' j =
      if i = j then .reading (latestOf t (turns req d s)) else stageOf s j := by
    intro j
    rw [stageOf_step hlog, hentry, hinv.history, getLast?_history]
    rfl
  refine ⟨hreliable, ?_, ?_, ?_⟩
  · rw [hworld, checkpoints_quiet rfl, hinv.history, turns, turns, hwriters]
  · intro j row hj
    rw [hstage] at hj
    rw [turns, hwriters]
    split at hj
    · cases hj
      rfl
    · exact hinv.fresh j row hj
  · intro j
    rw [hwriters, hstage, hinv.once]
    by_cases hij : i = j
    · subst hij
      rw [if_pos rfl, hbefore]
      rfl
    · rw [if_neg hij]

theorem inv_put (hreliable : ∀ x ∈ s'.log, Reliable strOf t x.2) (hcalm : Calm strOf c) {jsonb : Bool}
    {past : List Turn} (hop : op = .execute (.insertCheckpoint jsonb (rowOf t (turnOf (req i) (d i)) past)))
    (hreading : stageOf s i = .reading (latestOf t past))
    (halone : ∀ j, j ≠ i → (stageOf s j).isReading = false) : Inv strOf t req d s' := by
  -- the row that was read is still the latest one
  have hrow : rowOf t (turnOf (req i) (d i)) past = rowOf t (turnOf (req i) (d i)) (turns req d s) :=
    rowOf_congr _ (hinv.fresh i _ hreading)
  have hputs : puts op = true := by rw [hop]; rfl
  have hcheckpoints : s'.world.checkpoints t = if (interp.entry c s.world op).failed then
      s.world.checkpoints t else
        s.world.checkpoints t ++ [rowOf t (turnOf (req i) (d i)) (turns req d s)] := by
    rw [hworld, hop, ← hrow]
    exact checkpoints_put hcalm
  have hwriters := writers_step hlog
  have hstage : ∀ j, stageOf s' j = if i = j then
      (if (interp.entry c s.world op).failed then .lost else .written) else stageOf s j := by
    intro j
    rw [stageOf_step hlog, watch_put hputs]
  rw [wrote, show puts (interp.entry c s.world op).op = true from hputs, Bool.true_and] at hwriters
  have hfresh : ∀ j row, stageOf s' j ≠ .reading row := by
    intro j row hj
    rw [hstage] at hj
    by_cases hij : i = j
    · rw [if_pos hij] at hj
      split at hj <;> cases hj
    · rw [if_neg hij] at hj
      have hnot := halone j (Ne.symm hij)
      rw [hj] at hnot
      cases hnot
  refine ⟨hreliable, ?_, fun j row hj => (hfresh j row hj).elim, ?_⟩
  · rw [hcheckpoints, hinv.history, turns, turns, hwriters]
    cases (interp.entry c s.world op).failed <;> rfl
  · intro j
    rw [hwriters, hstage]
    have honce := hinv.once j
    by_cases hij : i = j
    · subst hij
      rw [hreading] at honce
      cases (interp.entry c s.world op).failed with
      | true => simpa [Stage.isWritten] using honce
      | false => simpa [Stage.isWritten] using honce
    · rw [if_neg hij, ← honce]
      cases (interp.entry c s.world op).failed with
      | true => rfl
      | false => simp [hij]

end Step

theorem inv_step {s s' : Stack ι} {i : ι} {c : Choice}
    (h : Reach (Serial strOf) (start (calls sup req d) w₀) s) (hinv : Inv strOf t req d s)
    (htid : ∀ i, Supervisor.tid (req i) (d i) = t) (hinput : ∀ i, (req i).inputText ≠ "")
    (hcond : Serial strOf s i c) (hs : s.step interp i c = some s') : Inv strOf t req d s' := by
  obtain ⟨halone, hcalm⟩ := hcond
  obtain ⟨op, k, ht, hworld, _, hlog⟩ := Pool.step_cases _ hs
  have ha := Pool.awaits_of_task ht
  have hg := own_guarantee h hinv htid hinput ha
  have hlatest : ∀ t', op = .fetch (.latestCheckpoint t') →
      ∃ past, (s.world.checkpoints t').getLast? = latestOf t past := by
    rintro t' rfl
    obtain ⟨rfl, _⟩ := hg
    exact ⟨turns req d s, by rw [hinv.history, getLast?_history]⟩
  have hreliable : ∀ x ∈ s'.log, Reliable strOf t x.2 := by
    intro x hx
    rw [hlog, List.mem_append, List.mem_singleton] at hx
    rcases hx with hx | rfl
    · exact hinv.reliable x hx
    · exact reliable_entry hcalm hlatest
  cases op with
  | fetch q => cases q with
    | latestCheckpoint t' =>
      obtain ⟨rfl, hbefore⟩ := hg
      exact inv_read hinv hworld hlog hreliable hcalm rfl hbefore
    | _ => exact inv_quiet hinv hworld hlog hreliable rfl
  | execute st => cases st with
    | insertCheckpoint jsonb row =>
      obtain ⟨past, hreading, rfl⟩ := hg
      exact inv_put hinv hworld hlog hreliable hcalm rfl hreading (halone (by rw [ha]; rfl))
    | _ => exact inv_quiet hinv hworld hlog hreliable rfl
  | _ => exact inv_quiet hinv hworld hlog hreliable rfl

theorem reach_inv {s : Stack ι} (h : Reach (Serial strOf) (start (calls sup req d) w₀) s)
    (h₀ : w₀.checkpoints t = []) (htid : ∀ i, Supervisor.tid (req i) (d i) = t)
    (hinput : ∀ i, (req i).inputText ≠ "") : Inv strOf t req d s := by
  induction h with
  | start => exact inv_start h₀
  | step h hcond hs ih => exact inv_step h ih htid hinput hcond hs

/-- An invocation that returned `ok` has put its checkpoint. -/
theorem written_of_ok {s : Stack ι} (h : Reach (Serial strOf) (start (calls sup req d) w₀) s)
    (hinv : Inv strOf t req d s) (htid : ∀ i, Supervisor.tid (req i) (d i) = t)
    (hinput : ∀ i, (req i).inputText ≠ "") {i : ι} {res : InvokeResult}
    (hres : outcomeOf s i = some (.ok (.invoked res))) (hok : res.outcome = .ok) :
    stageOf s i = .written := by
  have hwp := invoke_turn strOf (sup i) (req i) (d i) (hinput i)
  rw [own, htid i] at hwp
  have hend := h.wp_task rfl hwp (relied_of_forall _ fun e he _ =>
    hinv.reliable _ (Pool.mem_traceOf.mp he))
  exact wp_outcome hend hres res rfl hok

/-- The latest state of thread `t` holds the two messages of every invocation,
one invocation after the other and each once, its step counts them, and the
checkpoints are one chain. -/
def Kept [Fintype ι] (req : ι → Request) (t : String) (w : World) : Prop :=
  ∃ (latest : CheckpointTuple) (rows : List CheckpointTuple) (order : List ι),
    (call (PostgresCheckpointer.getLatest t) w).1 = .ok (some latest) ∧
    (call (PostgresCheckpointer.listAll t) w).1 = .ok rows ∧ order.Nodup ∧ (∀ i : ι, i ∈ order) ∧
    Dict.get? latest.state "messages" = some (.list (order.flatMap fun i =>
      [message "user" (req i).inputText, message "supervisor" s!"ack:{(req i).inputText}"])) ∧
    Dict.get? latest.state "step" = some (.int (Fintype.card ι)) ∧ Chained none rows

/-- In every run in which nobody puts between another's read and put, once all
invocations have returned `ok` no message is lost. -/
theorem no_message_lost [Fintype ι] [Nonempty ι] (strOf : PyVal → String) (t : String) (w₀ : World)
    (h₀ : w₀.checkpoints t = []) (sup : ι → Supervisor) (req : ι → Request) (d : ι → Draws)
    (htid : ∀ i, Supervisor.tid (req i) (d i) = t) (hinput : ∀ i, (req i).inputText ≠ "")
    (s : Stack ι) (h : Reach (Serial strOf) (start (calls sup req d) w₀) s)
    (hok : ∀ i, ∃ res, outcomeOf s i = some (.ok (.invoked res)) ∧ res.outcome = .ok) :
    Kept req t s.world := by
  have hinv := reach_inv h h₀ htid hinput
  have hcount : ∀ i, (writers s).count i = 1 := by
    intro i
    obtain ⟨res, hres, hout⟩ := hok i
    rw [hinv.once, written_of_ok h hinv htid hinput hres hout]
    rfl
  have hnodup : (writers s).Nodup := List.nodup_iff_count_le_one.mpr fun i => (hcount i).le
  have hmem : ∀ i, i ∈ writers s := fun i => List.count_pos_iff.mp (by rw [hcount]; exact one_pos)
  have hlength : (writers s).length = Fintype.card ι := by
    rw [← List.toFinset_card_of_nodup hnodup, ← Finset.card_univ]
    exact congrArg _ (Finset.eq_univ_iff_forall.mpr fun i => List.mem_toFinset.mpr (hmem i))
  cases hturns : turns req d s with
  | nil =>
    have hnil : writers s = [] := List.map_eq_nil_iff.mp hturns
    simp [hnil] at hmem
  | cons last past =>
    have hsaid : said (last :: past) = (writers s).reverse.flatMap fun i =>
        (turnOf (req i) (d i)).messages := by
      rw [← hturns, said_eq, turns, ← List.map_reverse, List.flatMap_map]
    have hcard : past.length + 1 = Fintype.card ι := by
      have hsame : (turns req d s).length = (writers s).length := List.length_map _
      rw [← hlength, ← hsame, hturns, List.length_cons]
    refine ⟨.ofRow (rowOf t last past), (history t (last :: past)).map .ofRow, (writers s).reverse,
      ?_, ?_, List.nodup_reverse.mpr hnodup, fun i => List.mem_reverse.mpr (hmem i), ?_, ?_,
      chained_history t _⟩
    · rw [call_getLatest, hinv.history, getLast?_history, hturns]
      rfl
    · rw [call_listAll, hinv.history, hturns]
    · rw [CheckpointTuple.ofRow, rowOf, loads_stateText, hsaid]
      rfl
    · rw [CheckpointTuple.ofRow, rowOf, loads_stateText, ← hcard]
      rfl

instance [Fintype ι] (s : Stack ι) (i : ι) : Decidable (Alone s i) :=
  inferInstanceAs (Decidable (_ → ∀ _, _ → _))

def greetings : Fin 2 → Request
  | 0 => ⟨some "t", "hello", []⟩
  | 1 => ⟨some "t", "again", []⟩

/-- Two invocations on one thread, run by a supervisor with the default step. -/
def two : Fin 2 → Operation :=
  calls (fun _ => ⟨.sqlite, "agent.events", 8⟩) greetings fun
    | 0 => ⟨"t", "r0", fun _ => "c0", "m0", fun _ => "now", .nan⟩
    | 1 => ⟨"t", "r1", fun _ => "c1", "m1", fun _ => "now", .nan⟩

/-- So many picks of one task, then so many of the next, all with the default step. -/
def schedule (turns : List (Nat × Fin 2)) : List (Fin 2 × Choice) :=
  turns.flatMap fun p => List.replicate p.1 (p.2, { step := defaultSupervisorStep fun _ => "" })

theorem good_schedule (turns : List (Nat × Fin 2)) :
    ∀ p ∈ schedule turns, Calm (fun _ => "") p.2 := by
  intro p hp
  simp only [schedule, List.mem_flatMap, List.mem_replicate] at hp
  obtain ⟨_, _, _, rfl⟩ := hp
  exact ⟨rfl, rfl⟩

/-- The second starts while the first runs, and reads once the first has put. -/
theorem no_message_lost_two :
    ∃ s, Reach (Serial fun _ => "") (start two World.empty) s ∧
      Kept greetings "t" s.world := by
  obtain ⟨s, h, hok⟩ := Pool.Reach.exists_of_exec_good
    interp (fun s i _ => Alone s i) (start two World.empty) (Calm fun _ => "")
    (P := fun s => ∀ i, returnedAs s i .ok = true)
    (schedule [(9, 0), (5, 1), (7, 0), (11, 1)])
    (good_schedule _) (by decide)
  exact ⟨s, h, no_message_lost _ "t" World.empty rfl _ _ _ (by decide) (by decide) s h
    fun i => outcomeOf_of_returnedAs (hok i)⟩

/-- The step of the latest checkpoint. -/
def latestStep (t : String) (w : World) : Option Int :=
  match (w.checkpoints t).getLast?.map CheckpointTuple.ofRow with
  | some cp =>
    match Dict.get? cp.state "step" with
    | some (.int k) => some k
    | _ => none
  | none => none

omit [DecidableEq ι] in
theorem latestStep_of_kept [Fintype ι] {req : ι → Request} {t : String} {w : World}
    (h : Kept req t w) : latestStep t w = some (Fintype.card ι : Int) := by
  obtain ⟨latest, _, _, hlatest, _, _, _, _, hstep, _⟩ := h
  rw [call_getLatest] at hlatest
  simp only [latestStep, Except.ok.inj hlatest, hstep]

/-- Both read before either has put: both return `ok` and one is lost. -/
theorem message_lost :
    ∃ s, Reach (fun _ _ c => Calm (fun _ => "") c) (start two World.empty) s ∧
      (∀ i, ∃ res, outcomeOf s i = some (.ok (.invoked res)) ∧ res.outcome = .ok) ∧
      ¬ Kept greetings "t" s.world := by
  obtain ⟨s, h, hok, hstep⟩ := Pool.Reach.exists_of_exec_good
    interp Anyhow (start two World.empty) (Calm fun _ => "")
    (P := fun s => (∀ i, returnedAs s i .ok = true) ∧ latestStep "t" s.world = some 1)
    (schedule [(5, 0), (6, 1), (11, 0), (10, 1)]) (good_schedule _) (by decide)
  refine ⟨s, h.mono fun _ _ _ => And.right, fun i => outcomeOf_of_returnedAs (hok i), ?_⟩
  intro hkept
  have h2 := latestStep_of_kept hkept
  rw [hstep] at h2
  cases h2

end NoblePort.Overlap
