import NoblePort.Forest
import NoblePort.Lineage

/-!
# Where a checkpoint comes from

Invocations that overlap on a thread put their checkpoints in any order, and
each hangs its own on what it has read or put itself. Whatever fails, the
checkpoints of a thread are a forest, and each is one step of the step function
away from its parent.
-/
namespace NoblePort.Ancestry

open Coroutine Coroutine.Contract NoblePort.Values NoblePort.Store NoblePort.ThreadState
open NoblePort.Records NoblePort.Runtime NoblePort.System NoblePort.Requests
open NoblePort.Completion (resumed)
open NoblePort.Ownership (threadOf)
open NoblePort.Lineage (checkpoints_settle stored_cases quiet)

/-- Put one after another, under new ids, on parents that were there. -/
abbrev Grown (rows : List CheckpointRow) : Prop :=
  Forest.Grown CheckpointRow.checkpointId CheckpointRow.parentId rows

/-- The checkpoints from a root to `row`, by their parents. -/
def lineOf (rows : List CheckpointRow) (row : CheckpointRow) : List CheckpointRow :=
  Forest.ancestry CheckpointRow.checkpointId CheckpointRow.parentId rows row.checkpointId

/-- The call has read or put this row, so that it is the latest one it knows. -/
def Knows (tr : List Answered) : Option CheckpointRow → Prop
  | none => ∃ t landed, (⟨.fetch (.latestCheckpoint t), .ok none, landed⟩ : Answered) ∈ tr
  | some row => (∃ t landed, (⟨.fetch (.latestCheckpoint t), .ok (some row), landed⟩ : Answered) ∈ tr) ∨
      ∃ jsonb landed, (⟨.execute (.insertCheckpoint jsonb row), .ok (), landed⟩ : Answered) ∈ tr

theorem Knows.mono {tr tr' : List Answered} {latest : Option CheckpointRow} (h : Knows tr latest)
    (hsub : ∀ e ∈ tr, e ∈ tr') : Knows tr' latest := by
  cases latest with
  | none =>
    obtain ⟨t, landed, hmem⟩ := h
    exact ⟨t, landed, hsub _ hmem⟩
  | some row =>
    rcases h with ⟨t, landed, hmem⟩ | ⟨jsonb, landed, hmem⟩
    · exact .inl ⟨t, landed, hsub _ hmem⟩
    · exact .inr ⟨jsonb, landed, hsub _ hmem⟩

/-- The state a step on top of `parent` starts from: what is resumed from it, or
the state in memory that it encodes. -/
def Source (req : Request) (d : Draws) (parent : Option CheckpointRow) (state : Dict) : Prop :=
  state = resumed req d parent ∨ ∃ row, parent = some row ∧ dumps state = .ok row.state

/-- The row encodes what a step on top of `parent` returned. -/
def Derived (req : Request) (d : Draws) (tr : List Answered) (parent : Option CheckpointRow)
    (row : CheckpointRow) : Prop :=
  ∃ state next landed, Source req d parent state ∧
    (⟨.stepFn state, .ok next, landed⟩ : Answered) ∈ tr ∧ dumps next = .ok row.state

/-- Read and put checkpoints of the own thread, each derived from the latest known. -/
def provenance (o : Operation) : Contract Op Op.Resp Exc (List Answered) where
  observe tr e := tr ++ [e]
  rely _ e := ∀ fields text landed, e = ⟨.jsonDumps fields, .ok text, landed⟩ → dumps fields = .ok text
  guarantee tr
    | .fetch (.latestCheckpoint t) => t = threadOf o
    | .execute (.insertCheckpoint _ row) => row.threadId = threadOf o ∧ ∃ sup req d,
        o = .invoke sup req d ∧ ∃ parent, Knows tr parent ∧
          row.parentId = parent.map (·.checkpointId) ∧ Derived req d tr parent row
    | _ => True

section Programs

variable {o : Operation} {S : List Answered → Prop}

theorem keeps_call (hS : ∀ tr e, S tr → S (tr ++ [e])) {op : Op} (h : quiet op = true) :
    (provenance o).Keeps S (.call op) := by
  refine .call (fun tr _ => ?_) fun tr r landed htr _ => hS _ _ htr
  simp only [provenance]
  split <;> trivial

theorem keeps_upsert (hS : ∀ tr e, S tr → S (tr ++ [e])) (db : Dialect) (t status : String)
    (killed : Option Bool) (event : Option String) (now : String) :
    (provenance o).Keeps S (upsert db t status killed event now) :=
  Invocation.keeps_upsert _ _ _ _ _ _ (keeps_call hS rfl) fun st h => keeps_call hS (by
    cases st <;> first | rfl | cases h)

variable (sup : Supervisor) (req : Request) (d : Draws)

theorem announces (hS : ∀ tr e, S tr → S (tr ++ [e])) :
    Invocation.Announces (provenance o) sup req d S where
  status _ _ := keeps_upsert hS ..
  publish _ _ _ := keeps_call hS rfl

abbrev own : Contract Op Op.Resp Exc (List Answered) := provenance (.invoke sup req d)

/-- Before an iteration the parent is the latest row known, and the state its source. -/
def Head (state : Dict) (parent : Option String) (tr : List Answered) : Prop :=
  ∃ latest, Knows tr latest ∧ parent = latest.map (·.checkpointId) ∧ Source req d latest state

theorem Head.mono {state : Dict} {parent : Option String} (tr : List Answered) (e : Answered)
    (h : Head req d state parent tr) : Head req d state parent (tr ++ [e]) := by
  obtain ⟨latest, hknows, hparent, hsource⟩ := h
  exact ⟨latest, hknows.mono fun _ => List.mem_append_left _, hparent, hsource⟩

theorem wp_put (i : Nat) (state next : Dict) (parent : Option String) (tr : List Answered)
    {Q : List Answered → Except Exc CheckpointTuple → Prop} (h : Head req d state parent tr)
    {landed : Bool} (hstep : (⟨.stepFn state, .ok next, landed⟩ : Answered) ∈ tr)
    (hok : ∀ tr, Head req d next (some (d.checkpointId i)) tr →
      Q tr (.ok ⟨Supervisor.tid req d, d.checkpointId i, parent, next⟩))
    (herror : ∀ tr e, Q tr (.error e)) :
    (own sup req d).wp (PostgresCheckpointer.put sup.db (Supervisor.tid req d) next parent none
      (d.checkpointId i)) Q tr := by
  obtain ⟨latest, hknows, hparent, hsource⟩ := h
  refine wp_call_seq _ trivial (fun text landed' hr => ?_) fun e _ _ => herror _ e
  have htext : dumps next = .ok text := hr _ _ _ rfl
  have hsub : ∀ e ∈ tr, e ∈ tr ++ [(⟨.jsonDumps next, .ok text, landed'⟩ : Answered)] :=
    fun _ => List.mem_append_left _
  refine wp_call_seq _ ⟨rfl, sup, req, d, rfl, latest, hknows.mono hsub, hparent, state, next, landed,
    hsource, hsub _ hstep, htext⟩ (fun _ landed'' _ => ?_) fun e _ _ => herror _ e
  refine hok _ ⟨some ⟨Supervisor.tid req d, d.checkpointId i, parent, text⟩, ?_, rfl, .inr ⟨_, rfl, htext⟩⟩
  exact .inr ⟨_, landed'', List.mem_append_right _ (List.mem_singleton_self _)⟩

theorem wp_iteration (i : Nat) (state : Dict) (parent : Option String) (tr : List Answered)
    (h : Head req d state parent tr) :
    (own sup req d).wp (sup.iteration req d i state parent)
      (ends (fun next => match next with
        | .stop _ _ => fun _ => True
        | .again state parent => Head req d state (some parent)) fun _ _ => True) tr := by
  have hmono : ∀ tr e, Head req d state parent tr → Head req d state parent (tr ++ [e]) := Head.mono req d
  refine wp_seq _ _ _ _ ((Invocation.keeps_isKillRequested (keeps_call hmono rfl)).wp _ h)
    (fun tr killed h => ?_) fun _ _ _ => trivial
  cases killed with
  | true =>
    refine wp_seq _ _ _ _ ((keeps_call (S := fun _ => True) (fun _ _ _ => trivial) rfl).wp _ trivial)
      (fun tr _ _ => ?_) fun _ _ _ => trivial
    exact wp_seq _ _ _ _ (((announces (S := fun _ => True) sup req d fun _ _ _ => trivial).status
      _ _).wp _ trivial)
      (fun _ _ _ => trivial) fun _ _ _ => trivial
  | false =>
    refine wp_seq _ _ _ _ ((keeps_call hmono rfl).wp _ h) (fun tr _ h => ?_) fun _ _ _ => trivial
    refine wp_call_seq _ trivial (fun next landed _ => ?_) fun _ _ _ => trivial
    rw [wp_bind]
    refine wp_put sup req d i state next parent _ (hmono _ _ h)
      (List.mem_append_right _ (List.mem_singleton_self _)) (fun tr hhead => ?_) fun _ _ => trivial
    refine wp_seq _ _ _ _ ((keeps_call (Head.mono req d) rfl).wp _ hhead) (fun tr _ hhead => ?_)
      fun _ _ _ => trivial
    split
    · trivial
    · exact hhead

def outline : Invocation.Outline (own sup req d) sup req d (fun _ => True) (fun _ _ => True) where
  started _ := True
  head _ _ := Head req d
  exit _ _ _ := True
  failed _ _ := True
  handled _ _ _ := True
  closing _ _ _ := True
  opens _ _ := Invocation.ends_of_keeps (S := fun _ => True)
    (Invocation.keeps_opening (announces sup req d fun _ _ _ => trivial)) trivial
    (fun _ _ _ => trivial) (fun _ _ _ => trivial)
  resumes tr _ := by
    refine wp_call_seq _ rfl (fun row landed _ => ?_) fun _ _ _ => trivial
    cases row with
    | none => exact ⟨none, ⟨_, landed, List.mem_append_right _ (List.mem_singleton_self _)⟩, rfl, .inl rfl⟩
    | some row =>
      exact ⟨some row, .inl ⟨_, landed, List.mem_append_right _ (List.mem_singleton_self _)⟩, rfl, .inl rfl⟩
  iterates n i state parent tr h := wp_iteration sup req d i state parent tr h
  exhausted _ _ _ _ _ := trivial
  handles e tr h := Invocation.ends_of_keeps (Invocation.keeps_handler
    (announces sup req d fun _ _ _ => trivial) e) h (fun _ _ h => h) (fun _ _ h => h)
  rethrows outcome e tr h := Invocation.ends_of_keeps (S := fun _ => True)
    (Invocation.keeps_finallyBlock (keeps_call (fun _ _ _ => trivial) rfl)) h (fun _ _ h => h)
    (fun _ _ h => h)
  records outcome resultState tr h := Invocation.ends_of_keeps
    (Invocation.keeps_finallyBlock (keeps_call (fun _ _ _ => trivial) rfl)) h (fun _ _ h => h)
    (fun _ _ h => h)
  concludes outcome resultState tr h := Invocation.ends_of_keeps (Invocation.keeps_conclude
    (announces sup req d fun _ _ _ => trivial) outcome resultState) h (fun _ _ h => h) (fun _ _ h => h)

end Programs

theorem wp_program (o : Operation) : (provenance o).wp o.program (fun _ _ => True) [] := by
  cases o with
  | invoke sup req d =>
    refine wp_seq _ _ _ _ (R := fun _ _ => True) ?_ (fun _ _ _ => trivial) fun _ _ _ => trivial
    refine wp_seq _ _ _ _ ((Invocation.keeps_audit (S := fun _ => True)
      (keeps_call (fun _ _ _ => trivial) rfl) fun _ => keeps_call (fun _ _ _ => trivial) rfl).wp _ trivial)
      (fun tr _ _ => ?_) fun _ _ _ => trivial
    exact Invocation.wp_proceed (outline sup req d) tr trivial
  | requestKill db t now =>
    refine wp_mono _ _ _ (fun _ _ _ => trivial) (Keeps.wp (S := fun _ => True) ?_ _ trivial)
    exact .bind (Invocation.keeps_requestKill (keeps_call (fun _ _ _ => trivial) rfl)
      (keeps_upsert (fun _ _ _ => trivial) ..)) fun _ => .ret _
  | setThreadStatus db t status event now =>
    refine wp_mono _ _ _ (fun _ _ _ => trivial) (Keeps.wp (S := fun _ => True) ?_ _ trivial)
    exact .bind (keeps_upsert (fun _ _ _ => trivial) ..) fun _ => .ret _

theorem after_eq (o : Operation) (tr tr' : List Answered) : (provenance o).after tr tr' = tr ++ tr' := by
  induction tr' generalizing tr with
  | nil => simp
  | cons e tr' ih => rw [Contract.after_cons, ih]; simp [provenance]

variable {ι : Type} [DecidableEq ι] {ops : ι → Operation} {w₀ : World}
  {cond : Stack ι → ι → Choice → Prop} {s : Stack ι}

theorem relied (h : Reach cond (start ops w₀) s) (i : ι) :
    (provenance (ops i)).Relied [] (s.traceOf i) := by
  apply Contract.relied_of_forall
  intro e he tr
  refine h.log_forall (P := fun e => ∀ fields text landed, e = ⟨.jsonDumps fields, .ok text, landed⟩ →
    dumps fields = .ok text) ?_ (by simp [start]) _ (Pool.mem_traceOf.mp he)
  intro s _ c _ op fields text landed heq
  exact dumps_of_entry heq

/-- What an operation is about to do follows its contract. -/
theorem guarantee_awaited (h : Reach cond (start ops w₀) s) {i : ι} {op : Op}
    (hop : (s.task i).awaits = some op) : (provenance (ops i)).guarantee (s.traceOf i) op := by
  have hg := h.guarantee_awaits rfl (wp_program (ops i)) (relied h i) hop
  rwa [after_eq, List.nil_append] at hg

/-- What is known after a call of one's own was known before, or read or put by it. -/
theorem Knows.snoc {tr : List Answered} {e : Answered} {row : CheckpointRow}
    (h : Knows (tr ++ [e]) (some row)) : Knows tr (some row) ∨
      (∃ t, e.op = .fetch (.latestCheckpoint t) ∧
        ∃ landed, e = ⟨.fetch (.latestCheckpoint t), .ok (some row), landed⟩) ∨
      ∃ jsonb landed, e = ⟨.execute (.insertCheckpoint jsonb row), .ok (), landed⟩ := by
  rcases h with ⟨t, landed, hmem⟩ | ⟨jsonb, landed, hmem⟩
  · rcases List.mem_append.mp hmem with hmem | hmem
    · exact .inl (.inl ⟨t, landed, hmem⟩)
    · rw [← List.mem_singleton.mp hmem]
      exact .inr (.inl ⟨t, rfl, landed, rfl⟩)
  · rcases List.mem_append.mp hmem with hmem | hmem
    · exact .inl (.inr ⟨jsonb, landed, hmem⟩)
    · exact .inr (.inr ⟨jsonb, landed, (List.mem_singleton.mp hmem).symm⟩)

theorem known_entry {o : Operation} {tr : List Answered} {w : World} {c : Choice} {op : Op}
    {row : CheckpointRow} (hg : (provenance o).guarantee tr op)
    (hk : ∀ row, Knows tr (some row) → row ∈ w.checkpoints (threadOf o))
    (h : Knows (tr ++ [interp.entry c w op]) (some row)) :
    row ∈ (interp.settle w (interp.entry c w op)).checkpoints (threadOf o) := by
  rw [checkpoints_settle, List.mem_append]
  rcases h.snoc with hold | ⟨t, hop, landed, heq⟩ | ⟨jsonb, landed, heq⟩
  · exact .inl (hk row hold)
  · obtain ⟨rfl, hrows⟩ := rows_of_entry heq
    rw [← show t = threadOf o from hg]
    exact .inl (List.mem_of_getLast? hrows.symm)
  · have hop : op = .execute (.insertCheckpoint jsonb row) := congrArg Entry.op heq
    subst hop
    have hlanded : (interp.entry c w (.execute (.insertCheckpoint jsonb row))).landed = true :=
      landed_of_not_failed (by rw [heq]; rfl)
    refine .inr (List.mem_filter.mpr ⟨?_, by simpa using hg.1⟩)
    rw [show storedBy (interp.entry c w (.execute (.insertCheckpoint jsonb row))) = [row] from if_pos hlanded]
    exact List.mem_singleton_self row

theorem grown_step {o : Operation} {tr : List Answered} {w : World} {c : Choice} {op : Op}
    (hg : (provenance o).guarantee tr op)
    (hk : ∀ row, Knows tr (some row) → row ∈ w.checkpoints (threadOf o)) (t : String)
    (h : Grown (w.checkpoints t)) :
    Grown ((interp.settle w (interp.entry c w op)).checkpoints t) := by
  rw [checkpoints_settle]
  rcases stored_cases c w op with hnone | ⟨jsonb, row, rfl, hstored, hv⟩
  · rw [hnone, List.filter_nil, List.append_nil]
    exact h
  · obtain ⟨hrow, sup, req, d, rfl, parent, hknows, hparent, _⟩ := hg
    rw [hstored]
    by_cases ht : row.threadId = t
    · subst ht
      simp only [beq_self_eq_true, List.filter_cons_of_pos, List.filter_nil]
      refine h.snoc (fun k hk' => ?_) fun hmem => ?_
      · rw [hparent] at hk'
        cases parent with
        | none => cases hk'
        | some p =>
          cases hk'
          rw [hrow]
          exact List.mem_map_of_mem (hk p hknows)
      · obtain ⟨other, hother, hid⟩ := List.mem_map.mp hmem
        simp only [World.checkpoints, List.mem_filter, beq_iff_eq] at hother
        simp only [World.violates, List.any_eq_false, Bool.and_eq_true, beq_iff_eq, not_and] at hv
        exact hv other hother.1 hother.2 hid
    · rw [List.filter_cons_of_neg (by simpa using ht), List.filter_nil, List.append_nil]
      exact h

/-- What a call has read or put is there. -/
theorem known_reach (h : Reach cond (start ops w₀) s) (i : ι) (row : CheckpointRow)
    (hk : Knows (s.traceOf i) (some row)) : row ∈ s.world.checkpoints (threadOf (ops i)) := by
  induction h generalizing i row with
  | start => rcases hk with ⟨_, _, hmem⟩ | ⟨_, _, hmem⟩ <;> cases hmem
  | @step s s' j c h hc hs ih =>
    obtain ⟨op, k, ht, hworld, _, hlog⟩ := Pool.step_cases interp hs
    rw [hworld]
    by_cases hij : j = i
    · subst hij
      rw [Pool.traceOf_step_same hlog] at hk
      exact known_entry (guarantee_awaited h (Pool.awaits_of_task ht)) (ih j) hk
    · rw [Pool.traceOf_step_other hlog hij] at hk
      rw [checkpoints_settle]
      exact List.mem_append_left _ (ih i row hk)

theorem grown_reach (h : Reach cond (start ops w₀) s) (h₀ : ∀ t, Grown (w₀.checkpoints t)) (t : String) :
    Grown (s.world.checkpoints t) := by
  induction h with
  | start => exact h₀ t
  | @step s s' i c h hc hs ih =>
    obtain ⟨op, k, ht, hworld, _, _⟩ := Pool.step_cases interp hs
    rw [hworld]
    exact grown_step (guarantee_awaited h (Pool.awaits_of_task ht)) (known_reach h i) t ih

/-- Some invocation of the run has put the row, one step away from its parent. -/
def Explained (ops : ι → Operation) (s : Stack ι) (row : CheckpointRow) : Prop :=
  ∃ i sup req d, ops i = .invoke sup req d ∧ row.threadId = Supervisor.tid req d ∧
    ∃ parent : Option CheckpointRow, row.parentId = parent.map (·.checkpointId) ∧
      (∀ p, parent = some p → p ∈ s.world.checkpoints row.threadId) ∧
      Derived req d (s.traceOf i) parent row

theorem Explained.step {s s' : Stack ι} {i : ι} {c : Choice} {row : CheckpointRow}
    (h : Explained ops s row) (hs : s.step interp i c = some s') : Explained ops s' row := by
  obtain ⟨op, k, _, hworld, _, hlog⟩ := Pool.step_cases interp hs
  obtain ⟨j, sup, req, d, hj, hrow, parent, hparent, hmem, state, next, landed, hsource, hstep, htext⟩ := h
  refine ⟨j, sup, req, d, hj, hrow, parent, hparent, fun p hp => ?_, state, next, landed, hsource, ?_, htext⟩
  · rw [hworld, checkpoints_settle]
    exact List.mem_append_left _ (hmem p hp)
  · rw [Pool.traceOf_append hlog]
    exact List.mem_append_left _ hstep

/-- Two steps under the request id `r`, with the checkpoint ids `c0` and `c1`. -/
def twoSteps (r c : String) : Operation :=
  .invoke ⟨.sqlite, "agent.events", 2⟩ ⟨some "t", "hi", []⟩
    ⟨"t", r, fun n => c ++ (if n = 0 then "0" else "1"), "m", fun _ => "now", .nan⟩

/-- Two invocations on one thread. -/
def overlapping : Fin 2 → Operation
  | 0 => twoSteps "r0" "a"
  | 1 => twoSteps "r1" "b"

def idsOf (rows : List CheckpointRow) : List (String × Option String) :=
  rows.map fun row => (row.checkpointId, row.parentId)

/-- The two of them in turn, until there are two roots and a second step on the first. -/
theorem overlapping_fork : ∃ s, Reach Anyhow (start overlapping World.empty) s ∧
    idsOf (s.world.checkpoints "t") = [("b0", none), ("a0", none), ("a1", some "a0")] :=
  Pool.Reach.exists_of_exec interp Anyhow _ (((List.replicate 6 (0 : Fin 2)) ++ List.replicate 11 1 ++
    List.replicate 11 0).map fun i => (i, calm)) (by decide)

/-- In every run, with any number of invocations overlapping on any threads and
any calls failing, with or without effect: the parents of a checkpoint lead to a
root of the same thread, each stored before the one it is the parent of, and the
way never changes again. -/
theorem checkpoints_form_forest (ops : ι → Operation) (w₀ : World) (s : Stack ι)
    (h : Reach Anyhow (start ops w₀) s) (h₀ : ∀ t, Grown (w₀.checkpoints t)) (t : String)
    (row : CheckpointRow) (hrow : row ∈ s.world.checkpoints t) :
    Forest.Path CheckpointRow.checkpointId CheckpointRow.parentId none
      (lineOf (s.world.checkpoints t) row) ∧
    (lineOf (s.world.checkpoints t) row).getLast? = some row ∧
    (lineOf (s.world.checkpoints t) row).Sublist (s.world.checkpoints t) ∧
    ∀ s', Reach Anyhow s s' →
      lineOf (s'.world.checkpoints t) row = lineOf (s.world.checkpoints t) row := by
  obtain ⟨hpath, hlast⟩ := (grown_reach h h₀ t).path hrow
  refine ⟨hpath, hlast, Forest.ancestry_sublist _ _, fun s' h' => ?_⟩
  obtain ⟨more, hmore⟩ := (Lineage.checkpoints_prefix h').filter (p := fun row => row.threadId == t)
  have hgrown := grown_reach (h.trans h') h₀ t
  rw [World.checkpoints, ← hmore] at hgrown ⊢
  exact hgrown.stable hrow

/-- In the run above the second step hangs on the first. -/
theorem checkpoints_form_forest_fork : ∃ s, Reach Anyhow (start overlapping World.empty) s ∧
    idsOf (s.world.checkpoints "t") = [("b0", none), ("a0", none), ("a1", some "a0")] ∧
    ∀ row ∈ s.world.checkpoints "t", (lineOf (s.world.checkpoints "t") row).getLast? = some row := by
  obtain ⟨s, h, hids⟩ := overlapping_fork
  refine ⟨s, h, hids, fun row hrow => ?_⟩
  exact (checkpoints_form_forest overlapping World.empty s h (fun _ => .nil) "t" row hrow).2.1

/-- In every run: a checkpoint that is stored was there at first, or an
invocation on its thread has put it, and it encodes what the step function
returned on a state that stems from its parent: the state resumed from it, or
the one in memory that it encodes. -/
theorem checkpoints_derived (ops : ι → Operation) (w₀ : World) (s : Stack ι)
    (h : Reach Anyhow (start ops w₀) s) (row : CheckpointRow)
    (hrow : row ∈ s.world.langgraphCheckpoints) :
    row ∈ w₀.langgraphCheckpoints ∨ Explained ops s row := by
  induction h with
  | start => exact .inl hrow
  | @step s s' i c h hc hs ih =>
    obtain ⟨op, k, ht, hworld, _, hlog⟩ := Pool.step_cases interp hs
    have hg := guarantee_awaited h (Pool.awaits_of_task ht)
    rw [hworld, settle_checkpoints] at hrow
    rcases List.mem_append.mp hrow with hrow | hrow
    · exact (ih hrow).imp_right fun he => he.step hs
    · right
      rcases stored_cases c s.world op with hnone | ⟨jsonb, new, rfl, hstored, _⟩
      · rw [hnone] at hrow
        cases hrow
      · rw [hstored] at hrow
        obtain rfl := List.mem_singleton.mp hrow
        obtain ⟨htid, sup, req, d, ho, parent, hknows, hparent, hderived⟩ := hg
        have hthread : row.threadId = Supervisor.tid req d := by rw [htid, ho]; rfl
        have hnow : Explained ops s row := ⟨i, sup, req, d, ho, hthread, parent, hparent,
          fun p hp => htid ▸ known_reach h i p (hp ▸ hknows), hderived⟩
        exact hnow.step hs

theorem checkpoints_derived_fork : ∃ s row, Reach Anyhow (start overlapping World.empty) s ∧
    row ∈ s.world.langgraphCheckpoints ∧ row.parentId = some "a0" ∧ Explained overlapping s row := by
  obtain ⟨s, h, hids⟩ := overlapping_fork
  have hid : ("a1", some "a0") ∈ idsOf (s.world.checkpoints "t") := by simp [hids]
  obtain ⟨row, hrow, heq⟩ := List.mem_map.mp hid
  have hstored : row ∈ s.world.langgraphCheckpoints := (List.mem_filter.mp hrow).1
  refine ⟨s, row, h, hstored, congrArg Prod.snd heq, ?_⟩
  exact (checkpoints_derived overlapping World.empty s h row hstored).resolve_left nofun

end NoblePort.Ancestry
