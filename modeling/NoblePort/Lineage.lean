import NoblePort.StepLoop
import NoblePort.Ownership
import NoblePort.Turns

/-!
# The history of a thread

An invocation holds the parent of its next checkpoint in a local variable. As
long as invocations run one at a time, what it holds is the last row of its
thread, whatever fails, so the rows of a thread are one chain.
-/
namespace NoblePort.Lineage

open Coroutine Coroutine.Contract NoblePort.Values NoblePort.Store NoblePort.ThreadState
open NoblePort.Records NoblePort.Runtime NoblePort.System NoblePort.Requests
open NoblePort.Completion (resumed)
open NoblePort.Ownership (threadOf)
open NoblePort.Turns (Chained chained_append)

/-- What an invocation knows of its thread: the latest row, once it has read or
put one, and whether it has called the step function. -/
structure Known where
  latest : Option (Option CheckpointRow) := none
  stepped : Bool := false

def Known.note : Known → Answered → Known
  | k, ⟨.fetch (.latestCheckpoint _), .ok row, _⟩ => { k with latest := some row }
  | k, ⟨.execute (.insertCheckpoint _ row), .ok _, _⟩ => { k with latest := some (some row) }
  | k, ⟨.stepFn _, _, _⟩ => { k with stepped := true }
  | k, _ => k

/-- The operation is an invocation, and `state` is where it resumes from `latest`. -/
def Resumes (o : Operation) (latest : Option CheckpointRow) (state : Dict) : Prop :=
  match o with
  | .invoke _ req d => state = resumed req d latest
  | .requestKill .. | .setThreadStatus .. => False

def invokes : Operation → Bool
  | .invoke .. => true
  | .requestKill .. | .setThreadStatus .. => false

/-- A checkpoint is put on the latest row known, and the first step is taken
from the row that was read. -/
def lineage (o : Operation) : Contract Op Op.Resp Exc Known where
  observe := Known.note
  rely _ _ := True
  guarantee k
    | .fetch (.latestCheckpoint t) => t = threadOf o
    | .execute (.insertCheckpoint _ row) => invokes o = true ∧ row.threadId = threadOf o ∧
        ∃ latest, k.latest = some latest ∧ row.parentId = latest.map (·.checkpointId)
    | .stepFn state => k.stepped = false → ∃ latest, k.latest = some latest ∧ Resumes o latest state
    | _ => True

/-- The calls that neither read nor put a checkpoint, nor take a step. -/
def quiet : Op → Bool
  | .fetch (.latestCheckpoint _) | .execute (.insertCheckpoint _ _) | .stepFn _ => false
  | _ => true

theorem note_quiet {e : Answered} (h : quiet e.op = true) (k : Known) : k.note e = k := by
  unfold Known.note
  split <;> first | rfl | cases h

section Programs

variable {o : Operation} {S : Known → Prop}

theorem keeps_call {op : Op} (h : quiet op = true) : (lineage o).Keeps S (.call op) := by
  refine .call (fun k _ => ?_) fun k r landed hk _ => ?_
  · simp only [lineage]
    split <;> trivial
  · change S (k.note _)
    rwa [note_quiet h]

theorem keeps_upsert (db : Dialect) (t status : String) (killed : Option Bool) (event : Option String)
    (now : String) : (lineage o).Keeps S (upsert db t status killed event now) :=
  Invocation.keeps_upsert _ _ _ _ _ _ (keeps_call rfl) fun st h => keeps_call (by
    cases st <;> first | rfl | cases h)

variable (sup : Supervisor) (req : Request) (d : Draws)

theorem announces : Invocation.Announces (lineage o) sup req d S where
  status _ _ := keeps_upsert ..
  publish _ _ _ := keeps_call rfl

abbrev own : Contract Op Op.Resp Exc Known := lineage (.invoke sup req d)

/-- Before an iteration the parent is the latest row known. -/
def Head (state : Dict) (parent : Option String) (k : Known) : Prop :=
  ∃ latest, k.latest = some latest ∧ parent = latest.map (·.checkpointId) ∧
    (k.stepped = false → state = resumed req d latest)

theorem wp_put (i : Nat) (state : Dict) (parent : Option String) (k : Known)
    {Q : Known → Except Exc CheckpointTuple → Prop} (h : Head req d state parent k)
    (hok : ∀ row : CheckpointRow, Q { k with latest := some (some row) }
      (.ok ⟨Supervisor.tid req d, row.checkpointId, parent, state⟩))
    (herror : ∀ k e, Q k (.error e)) :
    (own sup req d).wp (PostgresCheckpointer.put sup.db (Supervisor.tid req d) state parent none
      (d.checkpointId i)) Q k := by
  obtain ⟨latest, hlatest, hparent, _⟩ := h
  refine wp_call_seq _ trivial (fun text _ _ => ?_) fun e _ _ => herror _ e
  refine wp_call_seq _ ⟨rfl, rfl, latest, hlatest, hparent⟩ (fun _ _ _ => ?_) fun e _ _ => herror _ e
  exact hok ⟨Supervisor.tid req d, d.checkpointId i, parent, text⟩

theorem wp_iteration (i : Nat) (state : Dict) (parent : Option String) (k : Known)
    (h : Head req d state parent k) :
    (own sup req d).wp (sup.iteration req d i state parent)
      (ends (fun next => match next with
        | .stop _ _ => fun _ => True
        | .again state parent => Head req d state (some parent)) fun _ _ => True) k := by
  refine Keeps.seq (Invocation.keeps_isKillRequested (keeps_call rfl)) (fun killed => ?_) fun _ => trivial
  cases killed with
  | true =>
    refine Keeps.seq (keeps_call rfl) (fun _ => ?_) fun _ => trivial
    exact Keeps.seq ((announces sup req d).status _ _) (fun _ => trivial) fun _ => trivial
  | false =>
    refine Keeps.seq (keeps_call rfl) (fun _ => ?_) fun _ => trivial
    obtain ⟨latest, hlatest, hparent, hfirst⟩ := h
    refine wp_call_seq _ (fun hstepped => ⟨latest, hlatest, hfirst hstepped⟩) (fun next _ _ => ?_)
      fun _ _ _ => trivial
    have hhead : Head req d next parent { k with stepped := true } := ⟨latest, hlatest, hparent, nofun⟩
    rw [wp_bind]
    refine wp_put sup req d i next parent _ hhead (fun row => ?_) fun _ _ => trivial
    refine Keeps.seq (keeps_call rfl) (fun _ => ?_) fun _ => trivial
    split
    · trivial
    · exact ⟨some row, rfl, rfl, nofun⟩

def outline : Invocation.Outline (own sup req d) sup req d (· = {}) (fun _ _ => True) where
  started k := k = {}
  head _ _ := Head req d
  exit _ _ _ := True
  failed _ _ := True
  handled _ _ _ := True
  closing _ _ _ := True
  opens k hk := Invocation.ends_of_keeps (S := (· = {}))
    (Invocation.keeps_opening (announces sup req d)) hk (fun _ _ hk => hk) (fun _ _ _ => trivial)
  resumes k hk := by
    subst hk
    refine wp_call_seq _ rfl (fun row _ _ => ?_) fun _ _ _ => trivial
    cases row <;> exact ⟨_, rfl, rfl, fun _ => rfl⟩
  iterates n i state parent k hk := wp_iteration sup req d i state parent k hk
  exhausted _ _ _ _ _ := trivial
  handles e k hk := Invocation.ends_of_keeps (Invocation.keeps_handler (announces sup req d) e) hk
    (fun _ _ hk => hk) (fun _ _ hk => hk)
  rethrows outcome e k hk := Invocation.ends_of_keeps (S := fun _ => True)
    (Invocation.keeps_finallyBlock (keeps_call rfl)) hk (fun _ _ hk => hk) (fun _ _ hk => hk)
  records outcome resultState k hk := Invocation.ends_of_keeps
    (Invocation.keeps_finallyBlock (keeps_call rfl)) hk (fun _ _ hk => hk) (fun _ _ hk => hk)
  concludes outcome resultState k hk :=
    Invocation.ends_of_keeps (Invocation.keeps_conclude (announces sup req d) outcome resultState) hk
      (fun _ _ hk => hk) (fun _ _ hk => hk)

end Programs

/-- Every operation follows its contract from the start. -/
theorem wp_program (o : Operation) : (lineage o).wp o.program (fun _ _ => True) {} := by
  cases o with
  | invoke sup req d =>
    refine wp_seq _ _ _ _ (R := fun _ _ => True) ?_ (fun _ _ _ => trivial) fun _ _ _ => trivial
    refine Keeps.seq (Invocation.keeps_audit (keeps_call rfl) fun _ => keeps_call rfl)
      (fun _ => ?_) fun _ => trivial
    exact Invocation.wp_proceed (outline sup req d) _ rfl
  | requestKill db t now =>
    refine wp_mono _ _ _ (fun _ _ _ => trivial) (Keeps.wp (S := fun _ => True) ?_ _ trivial)
    exact .bind (Invocation.keeps_requestKill (keeps_call rfl) (keeps_upsert ..)) fun _ => .ret _
  | setThreadStatus db t status event now =>
    refine wp_mono _ _ _ (fun _ _ _ => trivial) (Keeps.wp (S := fun _ => True) ?_ _ trivial)
    exact .bind (keeps_upsert ..) fun _ => .ret _

variable {ι : Type} [DecidableEq ι] {ops : ι → Operation} {w₀ : World}

/-- The rows are one chain, and no two have the same id. -/
structure Line (rows : List CheckpointRow) : Prop where
  chained : Chained none (rows.map CheckpointTuple.ofRow)
  nodup : (rows.map (·.checkpointId)).Nodup

/-- While an invocation takes a step no other one has started and not ended,
and what raises has no effect. -/
structure OneAtATime (ops : ι → Operation) (s : Stack ι) (i : ι) (c : Choice) : Prop where
  alone : invokes (ops i) = true → ∀ j, j ≠ i → invokes (ops j) = true →
    s.traceOf j = [] ∨ outcomeOf s j ≠ none
  harmless : ∀ f ∈ c.fault, f.2 = false

/-- The rows of thread `t` whose put returned. -/
def completedPuts (t : String) (log : List (ι × Answered)) : List CheckpointRow :=
  (log.flatMap fun x => if x.2.failed then [] else storedBy x.2).filter (·.threadId == t)

def knownOf (s : Stack ι) (i : ι) : Known := (s.traceOf i).foldl Known.note {}

/-- Rows are only ever appended. -/
theorem checkpoints_prefix {cond : Stack ι → ι → Choice → Prop} {s s' : Stack ι} (h : Reach cond s s') :
    s.world.langgraphCheckpoints <+: s'.world.langgraphCheckpoints := by
  induction h with
  | start => exact List.prefix_refl _
  | step _ _ hs ih =>
    obtain ⟨op, k, _, hw, _, _⟩ := Pool.step_cases interp hs
    rw [hw, settle_checkpoints]
    exact ih.trans (List.prefix_append _ _)

theorem stored_of_failed {c : Choice} {w : World} {op : Op} (hc : ∀ f ∈ c.fault, f.2 = false)
    (hfailed : (interp.entry c w op).failed = true) : storedBy (interp.entry c w op) = [] := by
  cases op with
  | execute st => cases st with
    | insertCheckpoint jsonb row =>
      have hlanded : (interp.entry c w (.execute (.insertCheckpoint jsonb row))).landed = false := by
        cases hv : w.violates (.insertCheckpoint jsonb row) <;> cases hf : c.fault <;>
          simp_all [Interp.entry, interp, World.answer, Choice.strike, Entry.failed]
      change (if _ then _ else _) = _
      rw [if_neg (by simp [hlanded])]
    | _ => rfl
  | _ => rfl

theorem checkpoints_settle (w : World) (e : Answered) (t : String) :
    (interp.settle w e).checkpoints t = w.checkpoints t ++ (storedBy e).filter (·.threadId == t) := by
  rw [World.checkpoints, settle_checkpoints, List.filter_append]
  rfl

/-- A call stores nothing, or it is a put that no constraint forbids. -/
theorem stored_cases (c : Choice) (w : World) (op : Op) :
    storedBy (interp.entry c w op) = [] ∨
      ∃ jsonb row, op = .execute (.insertCheckpoint jsonb row) ∧
        storedBy (interp.entry c w op) = [row] ∧ w.violates (.insertCheckpoint jsonb row) = false := by
  cases op with
  | execute st => cases st with
    | insertCheckpoint jsonb row =>
      cases hl : (interp.entry c w (.execute (.insertCheckpoint jsonb row))).landed with
      | false => exact .inl (if_neg (by rw [hl]; nofun))
      | true => exact .inr ⟨jsonb, row, rfl, if_pos hl, allowed_of_landed hl⟩
    | _ => exact .inl rfl
  | _ => exact .inl rfl

/-- What is known stays the latest row over a call of its own. -/
theorem latest_entry {o : Operation} {k : Known} {w : World} {c : Choice} {op : Op}
    (hc : ∀ f ∈ c.fault, f.2 = false) (hg : (lineage o).guarantee k op)
    (hk : ∀ latest, k.latest = some latest → (w.checkpoints (threadOf o)).getLast? = latest)
    {latest : Option CheckpointRow} (hlatest : (k.note (interp.entry c w op)).latest = some latest) :
    ((interp.settle w (interp.entry c w op)).checkpoints (threadOf o)).getLast? = latest := by
  have hsame (h : storedBy (interp.entry c w op) = [])
      (hnote : (k.note (interp.entry c w op)).latest = k.latest) :
      ((interp.settle w (interp.entry c w op)).checkpoints (threadOf o)).getLast? = latest := by
    rw [checkpoints_settle, h, List.filter_nil, List.append_nil]
    exact hk latest (hnote ▸ hlatest)
  have heta (r : Except Exc op.Resp) (hr : (interp.entry c w op).result = r) :
      interp.entry c w op = ⟨op, r, (interp.entry c w op).landed⟩ := by
    rw [← hr]
    rfl
  cases op with
  | stepFn state => exact hsame rfl rfl
  | fetch q => cases q with
    | latestCheckpoint t =>
      cases hr : (interp.entry c w (.fetch (.latestCheckpoint t))).result with
      | error e => exact hsame rfl (by rw [heta _ hr]; rfl)
      | ok row =>
        rw [heta _ hr] at hlatest
        cases hlatest
        rw [checkpoints_settle, show storedBy (interp.entry c w (.fetch (.latestCheckpoint t))) = [] from rfl,
          List.filter_nil, List.append_nil, rows_of_ok hr, ← show t = threadOf o from hg]
        rfl
    | _ => exact hsame rfl (by rw [note_quiet rfl])
  | execute st => cases st with
    | insertCheckpoint jsonb row =>
      cases hr : (interp.entry c w (.execute (.insertCheckpoint jsonb row))).result with
      | error e =>
        have hfailed : (interp.entry c w (.execute (.insertCheckpoint jsonb row))).failed = true := by
          rw [Entry.failed, hr]
        exact hsame (stored_of_failed hc hfailed) (by rw [heta _ hr]; rfl)
      | ok u =>
        have hstored : storedBy (interp.entry c w (.execute (.insertCheckpoint jsonb row))) = [row] :=
          if_pos (landed_of_ok hr)
        rw [heta _ hr] at hlatest
        cases hlatest
        rw [checkpoints_settle, hstored, ← hg.2.1]
        simp
    | _ => exact hsame rfl (by rw [note_quiet rfl])
  | _ => exact hsame rfl (by rw [note_quiet rfl])

/-- What a running invocation knows is the latest row of its thread, and every
thread is one line. -/
structure Inv (ops : ι → Operation) (s : Stack ι) : Prop where
  known : ∀ i, invokes (ops i) = true → outcomeOf s i = none → ∀ latest,
    (knownOf s i).latest = some latest → (s.world.checkpoints (threadOf (ops i))).getLast? = latest
  line : ∀ t, Line (s.world.checkpoints t)

theorem inv_start (h₀ : ∀ t, Line (w₀.checkpoints t)) : Inv ops (start ops w₀) := ⟨fun _ _ _ => nofun, h₀⟩

/-- What an operation is about to do follows its contract. -/
theorem guarantee_awaited {cond : Stack ι → ι → Choice → Prop} {s : Stack ι}
    (h : Reach cond (start ops w₀) s) {i : ι} {op : Op} (hop : (s.task i).awaits = some op) :
    (lineage (ops i)).guarantee (knownOf s i) op :=
  h.guarantee_awaits rfl (wp_program (ops i)) (relied_of_forall _ fun _ _ _ => trivial) hop

theorem stored_of_other {o : Operation} {k : Known} {c : Choice} {w : World} {op : Op}
    (hg : (lineage o).guarantee k op) (ho : invokes o ≠ true) : storedBy (interp.entry c w op) = [] := by
  rcases stored_cases c w op with hnone | ⟨jsonb, row, rfl, _, _⟩
  · exact hnone
  · exact absurd hg.1 ho

/-- A row put on the latest one lengthens the line. -/
theorem Line.append {w : World} {t : String} {jsonb : Bool} {row : CheckpointRow}
    (h : Line (w.checkpoints t)) (hrow : row.threadId = t)
    (hparent : row.parentId = (w.checkpoints t).getLast?.map (·.checkpointId))
    (hv : w.violates (.insertCheckpoint jsonb row) = false) : Line (w.checkpoints t ++ [row]) := by
  constructor
  · rw [List.map_append, List.map_singleton, chained_append, List.getLast?_map]
    refine ⟨h.chained, ?_⟩
    rw [Option.map_map, Option.or_none]
    exact hparent
  · rw [List.map_append, List.map_singleton, List.nodup_append]
    refine ⟨h.nodup, List.nodup_singleton _, ?_⟩
    intro id hid id' hid'
    obtain ⟨other, hother, rfl⟩ := List.mem_map.mp hid
    rw [List.mem_singleton.mp hid']
    simp only [World.checkpoints, List.mem_filter, beq_iff_eq] at hother
    simp only [World.violates, List.any_eq_false, Bool.and_eq_true, beq_iff_eq, not_and] at hv
    exact hv other hother.1 (hother.2.trans hrow.symm)

section Step

variable {s s' : Stack ι} {i : ι} {c : Choice} {op : Op}

theorem line_step (hinv : Inv ops s) (hg : (lineage (ops i)).guarantee (knownOf s i) op)
    (hrunning : outcomeOf s i = none) (t : String) :
    Line ((interp.settle s.world (interp.entry c s.world op)).checkpoints t) := by
  rw [checkpoints_settle]
  rcases stored_cases c s.world op with hnone | ⟨jsonb, row, rfl, hstored, hv⟩
  · rw [hnone, List.filter_nil, List.append_nil]
    exact hinv.line t
  · obtain ⟨hinvokes, hrow, latest, hlatest, hparent⟩ := hg
    rw [hstored]
    by_cases ht : row.threadId = t
    · subst ht
      have hlast := hinv.known i hinvokes hrunning latest hlatest
      rw [← hrow] at hlast
      simp only [beq_self_eq_true, List.filter_cons_of_pos, List.filter_nil]
      exact (hinv.line row.threadId).append rfl (by rw [hlast, hparent]) hv
    · rw [List.filter_cons_of_neg (by simpa using ht), List.filter_nil, List.append_nil]
      exact hinv.line t

theorem inv_step (h : Reach (OneAtATime ops) (start ops w₀) s) (hinv : Inv ops s)
    (hc : OneAtATime ops s i c) (hs : s.step interp i c = some s') : Inv ops s' := by
  obtain ⟨op, k, ht, hworld, htask, hlog⟩ := Pool.step_cases interp hs
  have hop := Pool.awaits_of_task ht
  have hg := guarantee_awaited h hop
  have hrunning := outcomeOf_of_awaits hop
  constructor
  case line =>
    intro t
    rw [hworld]
    exact line_step hinv hg hrunning t
  case known =>
    intro j hj hjrunning latest hlatest
    rw [hworld]
    by_cases hij : i = j
    · subst hij
      rw [knownOf, Pool.traceOf_step_same hlog, List.foldl_append] at hlatest
      exact latest_entry hc.harmless hg (hinv.known i hj hrunning) hlatest
    · rw [knownOf, Pool.traceOf_step_other hlog hij] at hlatest
      have hjbefore : outcomeOf s j = none := by
        rwa [outcomeOf, htask, Function.update_of_ne (Ne.symm hij)] at hjrunning
      by_cases hi : invokes (ops i) = true
      · -- the other invocation has not started, so it knows nothing
        rcases hc.alone hi j (Ne.symm hij) hj with hfresh | hended
        · rw [hfresh] at hlatest
          cases hlatest
        · exact absurd hjbefore hended
      · rw [checkpoints_settle, stored_of_other hg hi, List.filter_nil, List.append_nil]
        exact hinv.known j hj hjbefore latest hlatest

end Step

theorem inv_reach {s : Stack ι} (h : Reach (OneAtATime ops) (start ops w₀) s)
    (h₀ : ∀ t, Line (w₀.checkpoints t)) : Inv ops s := by
  induction h with
  | start => exact inv_start h₀
  | step hr hc hs ih => exact inv_step hr ih hc hs

/-- The rows of a thread are the first ones and those whose put returned. -/
theorem grown {s : Stack ι} (h : Reach (OneAtATime ops) (start ops w₀) s) (t : String) :
    s.world.checkpoints t = w₀.checkpoints t ++ completedPuts t s.log := by
  induction h with
  | start => exact (List.append_nil _).symm
  | @step s s' i c _ hc hs ih =>
    obtain ⟨op, k, _, hworld, _, hlog⟩ := Pool.step_cases interp hs
    have hstored : storedBy (interp.entry c s.world op) =
        if (interp.entry c s.world op).failed then [] else storedBy (interp.entry c s.world op) := by
      split
      · rename_i hfailed
        exact stored_of_failed hc.harmless hfailed
      · rfl
    rw [hworld, checkpoints_settle, ih, hstored, List.append_assoc, completedPuts, completedPuts, hlog]
    simp

theorem stepped_foldl (tr : List Answered) (k : Known)
    (h : ∀ state r landed, (⟨.stepFn state, r, landed⟩ : Answered) ∉ tr) :
    (tr.foldl Known.note k).stepped = k.stepped := by
  induction tr generalizing k with
  | nil => rfl
  | cons e tr ih =>
    have htail : ∀ state r landed, (⟨.stepFn state, r, landed⟩ : Answered) ∉ tr :=
      fun state r landed hmem => h state r landed (List.mem_cons_of_mem _ hmem)
    rw [List.foldl_cons, ih _ htail]
    unfold Known.note
    split
    case h_3 => exact absurd (List.mem_cons_self ..) (h _ _ _)
    all_goals rfl

/-- The first step of an invocation is taken from the last put that returned
before, whatever has failed since. -/
theorem resumed_from_last {s : Stack ι} (h : Reach (OneAtATime ops) (start ops w₀) s)
    (h₀ : ∀ t, Line (w₀.checkpoints t)) {pre post : List (ι × Answered)} {i : ι} {state : Dict}
    {r : Except Exc Dict} {landed : Bool} {sup : Supervisor} {req : Request} {d : Draws}
    (hi : ops i = .invoke sup req d) (hlog : s.log = pre ++ (i, ⟨.stepFn state, r, landed⟩) :: post)
    (hfirst : ∀ state' r' landed', (i, ⟨.stepFn state', r', landed'⟩) ∉ pre) :
    state = resumed req d (w₀.checkpoints (Supervisor.tid req d) ++
      completedPuts (Supervisor.tid req d) pre).getLast? := by
  obtain ⟨s₁, c, op, h₁, hpre, _, hop, he⟩ := h.at_entry rfl hlog
  have hopeq : op = .stepFn state := (congrArg Entry.op he).symm
  subst hopeq
  have hfresh : (knownOf s₁ i).stepped = false := by
    refine stepped_foldl _ _ fun state' r' landed' hmem => hfirst state' r' landed' ?_
    rw [← hpre]
    exact Pool.mem_traceOf.mp hmem
  obtain ⟨latest, hlatest, hresumes⟩ := guarantee_awaited h₁ hop hfresh
  have hlast := (inv_reach h₁ h₀).known i (by rw [hi]; rfl) (outcomeOf_of_awaits hop) latest hlatest
  rw [hi] at hlast hresumes
  rw [show state = resumed req d latest from hresumes, ← hlast, grown h₁, hpre]
  rfl

/-- In every run of invocations one at a time, among any other operations, in
which what raises has no effect: `list_all` of every thread is one chain with
distinct ids and `get_latest` its last element, it holds the rows it began with
and those whose put returned and no others, no row is ever altered, and every
invocation resumes from the last of them. -/
theorem history_is_one_chain (ops : ι → Operation) (w₀ : World) (h₀ : ∀ t, Line (w₀.checkpoints t))
    (s : Stack ι) (h : Reach (OneAtATime ops) (start ops w₀) s) (t : String) :
    (∃ rows, (call (PostgresCheckpointer.listAll t) s.world).1 = .ok rows ∧ Chained none rows ∧
      (rows.map (·.checkpointId)).Nodup ∧
      (call (PostgresCheckpointer.getLatest t) s.world).1 = .ok rows.getLast?) ∧
    s.world.checkpoints t = w₀.checkpoints t ++ completedPuts t s.log ∧
    (∀ s', Reach (OneAtATime ops) s s' →
      s.world.langgraphCheckpoints <+: s'.world.langgraphCheckpoints) ∧
    ∀ pre i state r landed post sup req d, ops i = .invoke sup req d → Supervisor.tid req d = t →
      s.log = pre ++ (i, ⟨.stepFn state, r, landed⟩) :: post →
      (∀ state' r' landed', (i, ⟨.stepFn state', r', landed'⟩) ∉ pre) →
      state = Supervisor.resume req d
        ((w₀.checkpoints t ++ completedPuts t pre).getLast?.map CheckpointTuple.ofRow) := by
  refine ⟨⟨(s.world.checkpoints t).map CheckpointTuple.ofRow, ?_⟩, grown h t,
    fun s' h' => checkpoints_prefix h', ?_⟩
  · have hline := (inv_reach h h₀).line t
    refine ⟨by rw [call_listAll], hline.chained, ?_, by rw [call_getLatest, List.getLast?_map]⟩
    rw [List.map_map]
    exact hline.nodup
  · rintro pre i state r landed post sup req d hi rfl hlog hfirst
    exact resumed_from_last h h₀ hi hlog hfirst

instance [Fintype ι] (ops : ι → Operation) (s : Stack ι) (i : ι) (c : Choice) :
    Decidable (OneAtATime ops s i c) :=
  decidable_of_iff ((invokes (ops i) = true → ∀ j, j ≠ i → invokes (ops j) = true →
      s.traceOf j = [] ∨ outcomeOf s j ≠ none) ∧ ∀ f ∈ c.fault, f.2 = false)
    ⟨fun h => ⟨h.1, h.2⟩, fun h => ⟨h.1, h.2⟩⟩

/-- Two invocations of one thread. -/
def pair : Fin 2 → Operation
  | 0 => .invoke ⟨.sqlite, "agent.events", 8⟩ ⟨some "t", "hi", []⟩
      ⟨"t", "r0", fun _ => "c0", "m0", fun _ => "now", .nan⟩
  | 1 => .invoke ⟨.sqlite, "agent.events", 8⟩ ⟨some "t", "hi", []⟩
      ⟨"t", "r1", fun _ => "c1", "m1", fun _ => "now", .nan⟩

/-- The second step of the first raises, and the second goes on from its first step. -/
theorem history_is_one_chain_two :
    ∃ s rows, Reach (OneAtATime pair) (start pair World.empty) s ∧ raised s 0 = true ∧
      (call (PostgresCheckpointer.listAll "t") s.world).1 = .ok rows ∧ rows.length = 2 ∧
      Chained none rows ∧ (rows.map (·.checkpointId)).Nodup := by
  obtain ⟨s, h, hraised, hlength⟩ := Pool.Reach.exists_of_exec
    interp (OneAtATime pair) (start pair World.empty)
    (P := fun s => raised s 0 = true ∧ (s.world.checkpoints "t").length = 2)
    (List.replicate 14 (0, calm) ++ [(0, down)] ++ List.replicate 4 (0, calm) ++
      List.replicate 11 (1, calm)) (by decide)
  have hempty (t : String) : Line (World.empty.checkpoints t) := ⟨trivial, List.nodup_nil⟩
  obtain ⟨⟨rows, hrows, hchained, hnodup, _⟩, _⟩ :=
    history_is_one_chain pair World.empty hempty s h "t"
  refine ⟨s, rows, h, hraised, hrows, ?_, hchained, hnodup⟩
  rw [call_listAll] at hrows
  cases hrows
  rw [List.length_map, hlength]

end NoblePort.Lineage
