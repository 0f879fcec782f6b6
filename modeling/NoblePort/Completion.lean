import NoblePort.Monitor

/-!
# The completion flag and the checkpoint

The loop leaves at a truthy `completed` of the state, which the checkpoint of
an earlier invocation may have brought along. The states the loop goes through
are computed here by a function of the resumed state and the kill flags, and
two invocations are compared through it.
-/
namespace NoblePort.Completion

open Coroutine Coroutine.Contract NoblePort.Values NoblePort.Store NoblePort.Records
open NoblePort.Runtime NoblePort.System NoblePort.Monitor

/-- Is the state completed? -/
abbrev completed (state : Dict) : Bool := Dict.truthyAt state "completed"

/-- The state without its completion flag. -/
abbrev erase (state : Dict) : Dict := Dict.erase state "completed"

theorem erase_set_completed (state : Dict) (v : PyVal) :
    erase (Dict.set state "completed" v) = erase state := by
  induction state with
  | nil => rfl
  | cons item state ih =>
    obtain ⟨k, u⟩ := item
    by_cases h : k = .str "completed"
    · simp [Dict.set, Dict.erase, h]
    · simpa [Dict.set, Dict.erase, h] using ih

theorem erase_set (state : Dict) (key : String) (v : PyVal) (hkey : key ≠ "completed") :
    erase (Dict.set state key v) = Dict.set (erase state) key v := by
  induction state with
  | nil => simp [Dict.set, Dict.erase, hkey]
  | cons item state ih =>
    obtain ⟨k, u⟩ := item
    by_cases h : k = .str key
    · simp [Dict.set, Dict.erase, h, hkey]
    · by_cases hc : k = .str "completed"
      · subst hc
        simpa [Dict.set, Dict.erase, Ne.symm hkey] using ih
      · simpa [Dict.set, Dict.erase, h, hc] using ih

theorem get?_erase (state : Dict) : Dict.get? (erase state) "completed" = none := by
  induction state with
  | nil => rfl
  | cons item state ih =>
    obtain ⟨k, u⟩ := item
    by_cases h : k = .str "completed" <;> simpa [Dict.erase, h] using ih

theorem get?_erase_other (state : Dict) (key : String) (hkey : key ≠ "completed") :
    Dict.get? (erase state) key = Dict.get? state key := by
  induction state with
  | nil => rfl
  | cons item state ih =>
    obtain ⟨k, u⟩ := item
    by_cases h : k = .str "completed"
    · subst h
      simpa [Dict.erase, Ne.symm hkey] using ih
    · by_cases hk : k = .str key
      · simp [Dict.erase, hk, hkey]
      · simpa [Dict.erase, h, hk] using ih

theorem completed_congr {state state' : Dict}
    (h : Dict.get? state "completed" = Dict.get? state' "completed") :
    completed state = completed state' := by
  rw [completed, Dict.truthyAt, h]
  rfl

theorem completed_erase (state : Dict) : completed (erase state) = false := by
  rw [completed, Dict.truthyAt, get?_erase]

theorem completed_set (state : Dict) : completed (Dict.set state "completed" (.bool true)) = true := by
  rw [completed, Dict.truthyAt, Dict.get?_set_same]
  rfl

/-- A step function that copies its state, sets `completed` when `done` holds
of the new state, and otherwise leaves `completed` as it found it. -/
structure Worker where
  advance : Dict → Dict
  done : Dict → Bool
  keeps : ∀ state, Dict.get? (advance state) "completed" = Dict.get? state "completed"
  blind : ∀ state, done (erase state) = done state

namespace Worker

def step (w : Worker) (state : Dict) : Dict :=
  if w.done (w.advance state) then Dict.set (w.advance state) "completed" (.bool true)
  else w.advance state

/-- Besides `done`, what the step makes of the rest of the state does not read `completed`. -/
def Blind (w : Worker) : Prop := ∀ state, w.advance (erase state) = erase (w.advance state)

variable {w : Worker}

theorem erase_step (state : Dict) : erase (w.step state) = erase (w.advance state) := by
  unfold step
  split
  · exact erase_set_completed _ _
  · rfl

theorem done_congr {state state' : Dict} (h : erase state = erase state') :
    w.done state = w.done state' := by
  rw [← w.blind state, h, w.blind]

theorem done_step (state : Dict) : w.done (w.step state) = w.done (w.advance state) :=
  done_congr (erase_step state)

theorem completed_step (state : Dict) :
    completed (w.step state) = (w.done (w.advance state) || completed state) := by
  unfold step
  cases hdone : w.done (w.advance state) with
  | true => rw [if_pos rfl, completed_set, Bool.true_or]
  | false => rw [if_neg nofun, completed_congr (w.keeps state), Bool.false_or]

/-- A step keeps two states alike but for `completed`. -/
theorem erase_advance (hw : w.Blind) {state state' : Dict} (h : erase state = erase state') :
    erase (w.advance state) = erase (w.advance state') := by
  rw [← hw, h, hw]

end Worker

/-- How the loop ends from iteration `i` on, with `n` iterations left, and the
states the step function produces. -/
def course (step : Dict → Dict) (kill : Nat → Bool) : (n i : Nat) → Dict → Outcome × List Dict
  | 0, _, _ => (.maxStepsExceeded, [])
  | n + 1, i, state =>
    if kill i then (.killed, [])
    else if completed (step state) then (.ok, [step state])
    else ((course step kill n (i + 1) (step state)).1,
      step state :: (course step kill n (i + 1) (step state)).2)

section Course

variable {w : Worker} {kill : Nat → Bool}

/-- From a state that is not completed only `done` ends the loop with `ok`. -/
theorem done_of_course (n i : Nat) (state : Dict) (hfresh : completed state = false)
    (hok : (course w.step kill n i state).1 = .ok) :
    ∃ x ∈ (course w.step kill n i state).2, w.done x = true := by
  induction n generalizing i state with
  | zero => cases hok
  | succ n ih =>
    unfold course at hok ⊢
    by_cases hkill : kill i = true
    · rw [if_pos hkill] at hok
      cases hok
    · rw [if_neg hkill] at hok ⊢
      have hstep := w.completed_step state
      rw [hfresh, Bool.or_false] at hstep
      by_cases hc : completed (w.step state) = true
      · rw [if_pos hc]
        refine ⟨_, List.mem_singleton_self _, ?_⟩
        rw [w.done_step, ← hstep, hc]
      · rw [if_neg hc] at hok ⊢
        obtain ⟨x, hx, hdone⟩ := ih (i + 1) _ (by simpa using hc) hok
        exact ⟨x, List.mem_cons_of_mem _ hx, hdone⟩

/-- A completed state ends the loop with `ok` after one step. -/
theorem course_of_completed (n i : Nat) (state : Dict) (hc : completed state = true)
    (hkill : kill i = false) : course w.step kill (n + 1) i state = (.ok, [w.step state]) := by
  unfold course
  rw [hkill, if_neg nofun, if_pos (by rw [w.completed_step, hc, Bool.or_true])]

theorem course_ok_ne_nil {step : Dict → Dict} (n i : Nat) (state : Dict)
    (hok : (course step kill n i state).1 = .ok) : (course step kill n i state).2 ≠ [] := by
  cases n with
  | zero => cases hok
  | succ n =>
    unfold course at hok ⊢
    by_cases hkill : kill i = true
    · rw [if_pos hkill] at hok
      cases hok
    · rw [if_neg hkill]
      split <;> exact List.cons_ne_nil _ _

/-- Two states that differ in `completed` only, and are both not completed, go
through the same steps. -/
theorem course_congr (hw : w.Blind) (n i : Nat) {state state' : Dict}
    (halike : erase state = erase state') (hfresh : completed state = false)
    (hfresh' : completed state' = false) :
    (course w.step kill n i state).1 = (course w.step kill n i state').1 ∧
      (course w.step kill n i state).2.length = (course w.step kill n i state').2.length := by
  induction n generalizing i state state' with
  | zero => exact ⟨rfl, rfl⟩
  | succ n ih =>
    have hnext := w.erase_advance hw halike
    have hsame : completed (w.step state) = completed (w.step state') := by
      rw [w.completed_step, w.completed_step, hfresh, hfresh', w.done_congr hnext]
    unfold course
    by_cases hkill : kill i = true
    · rw [if_pos hkill, if_pos hkill]
      exact ⟨rfl, rfl⟩
    · rw [if_neg hkill, if_neg hkill, ← hsame]
      by_cases hc : completed (w.step state) = true
      · rw [if_pos hc, if_pos hc]
        exact ⟨rfl, rfl⟩
      · rw [if_neg hc, if_neg hc]
        have hc' : completed (w.step state) = false := by simpa using hc
        obtain ⟨houtcome, hlength⟩ := ih (i + 1) (by rw [w.erase_step, w.erase_step, hnext]) hc'
          (hsame ▸ hc')
        exact ⟨houtcome, by rw [List.length_cons, List.length_cons, hlength]⟩

/-- The flag of the resumed state decides nothing: it is not set, the loop does
no step, or the first step is done. -/
def Idle (w : Worker) (kill : Nat → Bool) (n : Nat) (state : Dict) : Prop :=
  completed state = false ∨ n = 0 ∨ kill 0 = true ∨ w.done (w.advance state) = true

instance (n : Nat) (state : Dict) : Decidable (Idle w kill n state) :=
  inferInstanceAs (Decidable (_ ∨ _))

theorem course_kill {step : Dict → Dict} (n i : Nat) (state : Dict) (hkill : kill i = true) :
    course step kill (n + 1) i state = (.killed, []) := by
  rw [course, if_pos hkill]

theorem not_idle {w : Worker} {kill : Nat → Bool} {n : Nat} {state : Dict}
    (h : ¬ Idle w kill n state) : ∃ m, n = m + 1 ∧ completed state = true ∧ kill 0 = false ∧
      w.done (w.advance state) = false := by
  simp only [Idle, not_or, Bool.not_eq_false, Bool.not_eq_true] at h
  obtain ⟨hc, hn, hkill, hfirst⟩ := h
  obtain ⟨m, rfl⟩ := Nat.exists_eq_succ_of_ne_zero hn
  exact ⟨m, rfl, hc, hkill, hfirst⟩

theorem done_iff_idle (w : Worker) (kill : Nat → Bool) (n : Nat) (state : Dict) :
    ((course w.step kill n 0 state).1 = .ok → ∃ x ∈ (course w.step kill n 0 state).2, w.done x = true) ↔
      Idle w kill n state := by
  constructor
  · intro hdone
    by_contra hidle
    obtain ⟨n, rfl, hc, hkill, hfirst⟩ := not_idle hidle
    rw [course_of_completed n 0 state hc hkill] at hdone
    obtain ⟨x, hx, hx'⟩ := hdone rfl
    rw [List.mem_singleton.mp hx, w.done_step, hfirst] at hx'
    cases hx'
  · rintro (hfresh | rfl | hkill | hfirst) hok
    · exact done_of_course n 0 state hfresh hok
    · cases hok
    · cases n with
      | zero => cases hok
      | succ n =>
        rw [course_kill n 0 state hkill] at hok
        cases hok
    · -- the first step is done, whatever the flag was
      cases n with
      | zero => cases hok
      | succ n =>
        unfold course at hok ⊢
        split at hok
        · cases hok
        · rename_i hkill
          rw [if_neg hkill, if_pos (by rw [w.completed_step, hfirst, Bool.true_or])]
          exact ⟨_, List.mem_singleton_self _, by rw [w.done_step, hfirst]⟩

/-- The loop ends the same way and after as many steps without the flag,
exactly if the flag decides nothing. -/
theorem same_iff_idle (hw : w.Blind) (kill : Nat → Bool) (n : Nat) (state : Dict) :
    ((course w.step kill n 0 state).1 = (course w.step kill n 0 (erase state)).1 ∧
      (course w.step kill n 0 state).2.length = (course w.step kill n 0 (erase state)).2.length) ↔
      Idle w kill n state := by
  have halike : erase state = erase (erase state) := by simp [Dict.erase, List.filter_filter]
  constructor
  · rintro ⟨houtcome, hlength⟩
    by_contra hidle
    obtain ⟨n, rfl, hc, hkill, hfirst⟩ := not_idle hidle
    rw [course_of_completed n 0 state hc hkill] at houtcome hlength
    have hopen : completed (w.step (erase state)) = false := by
      rw [w.completed_step, completed_erase, ← w.done_congr (w.erase_advance hw halike), hfirst]
      rfl
    unfold course at houtcome hlength
    rw [hkill, if_neg nofun, if_neg (by rw [hopen]; nofun)] at houtcome hlength
    have hnil : (course w.step kill n 1 (w.step (erase state))).2 = [] :=
      List.length_eq_zero_iff.mp (by simpa using hlength.symm)
    exact course_ok_ne_nil n 1 _ houtcome.symm hnil
  · rintro (hfresh | rfl | hkill | hfirst)
    · exact course_congr hw n 0 halike hfresh (completed_erase state)
    · exact ⟨rfl, rfl⟩
    · cases n with
      | zero => exact ⟨rfl, rfl⟩
      | succ n =>
        rw [course_kill n 0 state hkill, course_kill n 0 _ hkill]
        exact ⟨rfl, rfl⟩
    · cases n with
      | zero => exact ⟨rfl, rfl⟩
      | succ n =>
        have hfirst' := hfirst
        rw [w.done_congr (w.erase_advance hw halike)] at hfirst'
        unfold course
        rw [if_pos (c := completed (w.step state) = true) (by rw [w.completed_step, hfirst, Bool.true_or]),
          if_pos (c := completed (w.step (erase state)) = true)
            (by rw [w.completed_step, hfirst', Bool.true_or])]
        split <;> exact ⟨rfl, rfl⟩

end Course

/-- The answers to the invocation of a worker that resumes from `row`. Nothing raises. -/
def Answers (w : Worker) (row : Option CheckpointRow) : Answered → Prop
  | ⟨.stepFn state, r, _⟩ => r = .ok (w.step state)
  | ⟨.fetch (.latestCheckpoint _), r, _⟩ => r = .ok row
  | e => e.failed = false

/-- The kill checks so far read the flags `kill`. -/
def Read (kill : Nat → Bool) (reads : List Bool) : Prop := ∀ k b, reads[k]? = some b → kill k = b

theorem read_snoc {kill : Nat → Bool} {reads : List Bool} {b : Bool} :
    Read kill (reads ++ [b]) ↔ Read kill reads ∧ kill reads.length = b := by
  constructor
  · intro h
    refine ⟨fun k b hk => h k b ?_, h _ _ (by simp)⟩
    rw [List.getElem?_append_left (List.getElem?_eq_some_iff.mp hk).1, hk]
  · rintro ⟨h, hlast⟩ k b' hk
    rw [List.getElem?_append] at hk
    split at hk
    · exact h k b' hk
    · rename_i hge
      rw [List.getElem?_singleton] at hk
      split at hk
      · rw [← Option.some.inj hk, show k = reads.length by omega]
        exact hlast
      · cases hk

/-- The state an invocation starts from when the latest checkpoint is `row`. -/
def resumed (req : Request) (d : Draws) (row : Option CheckpointRow) : Dict :=
  Supervisor.resume req d (row.map .ofRow)

section Invoked

variable (w : Worker) (row : Option CheckpointRow) (sup : Supervisor) (req : Request) (d : Draws)

/-- The whole course, whatever flags there are to read. -/
def whole (kill : Nat → Bool) : Outcome × List Dict :=
  course w.step kill sup.maxSteps.toNat 0 (resumed req d row)

/-- Before an iteration the course is the steps done and what is still to come. -/
def Head (n i : Nat) (state : Dict) (m : Summary) : Prop :=
  m.killReads.length = i ∧ ∀ kill, Read kill m.killReads → whole w row sup req d kill =
    ((course w.step kill n i state).1, m.produced ++ (course w.step kill n i state).2)

/-- After the loop the course is over. -/
def Done (outcome : Outcome) (m : Summary) : Prop :=
  ∀ kill, Read kill m.killReads → whole w row sup req d kill = (outcome, m.produced)

def RunsCourse (m : Summary) : Except Exc InvokeResult → Prop
  | .ok res => Done w row sup req d res.outcome m
  | .error _ => True

variable {w row sup req d}

abbrev answering (w : Worker) (row : Option CheckpointRow) : Contract Op Op.Resp Exc Summary :=
  monitor (fun _ => Answers w row) fun _ => True

theorem wp_iteration (n i : Nat) (state : Dict) (parent : Option String) (m : Summary)
    (h : Head w row sup req d (n + 1) i state m) :
    (answering w row).wp (sup.iteration req d i state parent)
      (ends (fun next => match next with
        | .stop outcome _ => Done w row sup req d outcome
        | .again state _ => Head w row sup req d n (i + 1) state) fun _ _ => False) m := by
  obtain ⟨hlength, hcourse⟩ := h
  refine Monitor.wp_iteration i state parent (fun _ _ _ => trivial) (fun _ op _ _ ha hr => ?_)
    (fun kill hread => ?_) (fun next text _ _ hnext _ => ?_)
  · cases ha with
    | status hop =>
      cases op with
      | fetch q => cases q <;> cases hr
      | _ => cases hr
    | _ => cases hr
  · obtain ⟨hread, hkill⟩ := read_snoc.mp hread
    rw [hlength] at hkill
    rw [hcourse kill hread, course_kill n i state hkill]
    exact congrArg _ (List.append_nil _)
  · cases hnext
    have hstep (kill : Nat → Bool) (hread : Read kill (m.killReads ++ [false])) :=
      hcourse kill (read_snoc.mp hread).1
    have hopen (kill : Nat → Bool) (hread : Read kill (m.killReads ++ [false])) :
        ¬ kill i = true := by
      rw [← hlength, (read_snoc.mp hread).2]
      nofun
    split
    · rename_i hcompleted
      intro kill hread
      rw [hstep kill hread, course, if_neg (hopen kill hread), if_pos hcompleted]
      rfl
    · rename_i hcompleted
      refine ⟨?_, fun kill hread => ?_⟩
      · rw [← hlength]
        exact List.length_append
      · rw [hstep kill hread, course, if_neg (hopen kill hread), if_neg hcompleted]
        exact congrArg _ (List.append_cons m.produced _ _)

def outline (w : Worker) (row : Option CheckpointRow) (sup : Supervisor) (req : Request) (d : Draws) :
    Invocation.Outline (answering w row) sup req d (· = Summary.audit {})
      (RunsCourse w row sup req d) where
  started m := m.killReads = [] ∧ m.produced = []
  head n i state _ m := Head w row sup req d n i state m
  exit outcome _ m := Done w row sup req d outcome m
  failed _ _ := False
  handled _ _ _ := False
  closing outcome _ m := Done w row sup req d outcome m
  opens m hm := by
    subst hm
    exact wp_announce trivial trivial ⟨rfl, rfl⟩ (fun _ _ _ _ _ => trivial) (fun _ _ _ _ _ _ => trivial)
  resumes m hm := by
    refine wp_getLatest _ trivial (fun row' _ h => ?_) (by rintro _ _ _ rfl h; cases h)
    cases h
    refine ⟨by rw [hm.1]; rfl, fun kill _ => ?_⟩
    rw [hm.2]
    rfl
  iterates n i state parent m hm := wp_iteration n i state parent m hm
  exhausted i state _ m hm := by
    intro kill hread
    rw [hm.2 kill hread, course, List.append_nil]
  handles _ _ hm := hm.elim
  rethrows _ _ _ hm := hm.elim
  records _ _ _ hm := wp_finallyBlock _ trivial hm (fun _ _ _ => trivial)
  concludes outcome _ m hm := by
    unfold Supervisor.conclude
    split
    · exact wp_announce trivial trivial hm (fun _ _ _ _ _ => trivial) (fun _ _ _ _ _ _ => trivial)
    · exact hm

end Invoked

/-- Some run of some system has an invocation of the worker that resumes from
`row`, reads the flags `kill`, and returns with the outcome after producing
the states. -/
def Returns (w : Worker) (sup : Supervisor) (req : Request) (d : Draws) (row : Option CheckpointRow)
    (kill : Nat → Bool) (outcome : Outcome) (produced : List Dict) : Prop :=
  ∃ (ι : Type) (_ : DecidableEq ι) (ops : ι → Operation) (w₀ : World) (s : Stack ι) (i : ι),
    Reach Anyhow (start ops w₀) s ∧ ops i = .invoke sup req d ∧
    (∀ e ∈ s.traceOf i, Answers w row e) ∧ Read kill (summaryOf s i).killReads ∧
    (∃ res, outcomeOf s i = some (.ok (.invoked res)) ∧ res.outcome = outcome) ∧
    (summaryOf s i).produced = produced

variable {w : Worker} {sup : Supervisor} {req : Request} {d : Draws} {row : Option CheckpointRow}
  {kill : Nat → Bool} {outcome : Outcome} {produced : List Dict}

/-- What an invocation returns and produces is its course. -/
theorem returns_course (h : Returns w sup req d row kill outcome produced) :
    whole w row sup req d kill = (outcome, produced) := by
  obtain ⟨ι, _, ops, w₀, s, i, hreach, hi, hanswers, hread, ⟨res, hres, houtcome⟩, hproduced⟩ := h
  have hmon := monitored hreach hi (outline w row sup req d) trivial (fun _ _ _ => trivial)
    (relied_of_forall _ fun e he _ => hanswers e he)
  rw [hres] at hmon
  rw [← houtcome, ← hproduced]
  exact hmon kill hread

/-- The checkpoint without the completion flag. -/
def strip (row : CheckpointRow) : CheckpointRow :=
  { row with state := row.state.filter fun field => field.1 != "completed" }

theorem loads_strip (fields : JsonObject) :
    loads (fields.filter fun field => field.1 != "completed") = erase (loads fields) := by
  induction fields with
  | nil => rfl
  | cons field fields ih =>
    obtain ⟨k, v⟩ := field
    by_cases h : k = "completed" <;> simpa [loads, Dict.erase, h] using ih

theorem resumed_strip : resumed req d (row.map strip) = erase (resumed req d row) := by
  unfold resumed Supervisor.resume
  rw [erase_set _ _ _ (by decide), erase_set _ _ _ (by decide)]
  cases row with
  | none => rfl
  | some row =>
    simp only [Option.map_some, CheckpointTuple.ofRow, strip, loads_strip]

/-- An invocation of a worker that returns `ok` has produced a state that is
done, exactly if the flag of the resumed checkpoint is not set, there is no
first step or the first step is done; and exactly then, for a worker that reads
`completed` nowhere, it ends as, and after as many steps as, every invocation
that resumes from that checkpoint without the flag. -/
theorem done_iff_flag_idle (w : Worker) (sup : Supervisor) (req : Request) (d : Draws)
    (row : Option CheckpointRow) (kill : Nat → Bool) (outcome : Outcome) (produced : List Dict)
    (h : Returns w sup req d row kill outcome produced) :
    ((outcome = .ok → ∃ x ∈ produced, w.done x = true) ↔
      Idle w kill sup.maxSteps.toNat (resumed req d row)) ∧
    ∀ outcome' produced', w.Blind → Returns w sup req d (row.map strip) kill outcome' produced' →
      (outcome = outcome' ∧ produced.length = produced'.length ↔
        Idle w kill sup.maxSteps.toNat (resumed req d row)) := by
  have hcourse : course w.step kill sup.maxSteps.toNat 0 (resumed req d row) = (outcome, produced) :=
    returns_course h
  constructor
  · have hdone := done_iff_idle w kill sup.maxSteps.toNat (resumed req d row)
    rwa [hcourse] at hdone
  · intro outcome' produced' hw h'
    have hcourse' : course w.step kill sup.maxSteps.toNat 0 (resumed req d (row.map strip)) =
      (outcome', produced') := returns_course h'
    have hsame := same_iff_idle hw kill sup.maxSteps.toNat (resumed req d row)
    rwa [← resumed_strip, hcourse, hcourse'] at hsame

/-- A worker that is done when its input says so. -/
def finisher : Worker where
  advance := id
  done state :=
    match Dict.get? state "input" with
    | some (.str s) => s == "finish"
    | _ => false
  keeps _ := rfl
  blind state := by rw [get?_erase_other state "input" (by decide)]

/-- The worker's step, without a fault. -/
def Calm (w : Worker) (c : Choice) : Prop := c.fault = none ∧ c.step = fun state => .ok (w.step state)

/-- The call did not fail, and found a checkpoint that is `kept` if it looked for one. -/
def found (kept : CheckpointRow → Bool) : Answered → Bool
  | ⟨.fetch (.latestCheckpoint _), .ok (some row), _⟩ => kept row
  | ⟨.fetch (.latestCheckpoint _), _, _⟩ => false
  | e => !e.failed

theorem answers_of_calm {e : Answered} {kept : CheckpointRow → Bool} {row : CheckpointRow}
    (hkept : ∀ row', kept row' = true → row' = row) (hfound : found kept e = true)
    (hstep : ∀ state r landed, e = ⟨.stepFn state, r, landed⟩ → r = .ok (w.step state)) :
    Answers w (some row) e := by
  unfold found at hfound
  unfold Answers
  split
  · exact hstep _ _ _ rfl
  · split at hfound
    · rename_i heq
      cases heq
      rw [hkept _ hfound]
    · cases hfound
    · rename_i hne
      exact absurd rfl (hne _ _ _)
  · split at hfound
    · rfl
    · cases hfound
    · simpa using hfound

def asked (inputText : String) : Request := ⟨some "t", inputText, []⟩

def drawn (r : String) : Draws := ⟨"t", r, fun _ => r ++ ".c", r ++ ".m", fun _ => "now", .nan⟩

def oneStep : Supervisor := ⟨.sqlite, "agent.events", 1⟩

/-- An invocation on thread `t` with its own request id and checkpoint ids. -/
def ask (inputText r : String) : Operation := .invoke oneStep (asked inputText) (drawn r)

/-- The checkpoint of a thread that was completed. -/
def closed : CheckpointRow := ⟨"t", "c0", none, [("completed", .bool true)]⟩

def isClosed (row : CheckpointRow) : Bool :=
  match row with
  | ⟨"t", "c0", none, [("completed", .bool true)]⟩ => true
  | _ => false

def isStripped (row : CheckpointRow) : Bool :=
  match row with
  | ⟨"t", "c0", none, []⟩ => true
  | _ => false

theorem eq_of_isClosed (row : CheckpointRow) (h : isClosed row = true) : row = closed := by
  unfold isClosed at h
  split at h
  · rfl
  · cases h

theorem eq_of_isStripped (row : CheckpointRow) (h : isStripped row = true) : row = strip closed := by
  unfold isStripped at h
  split at h
  · rfl
  · cases h

/-- One invocation by itself, on the checkpoint `row`. -/
def resuming (row : CheckpointRow) : Stack (Fin 1) :=
  start (fun _ => ask "work" "r") { World.empty with langgraphCheckpoints := [row] }

theorem returns_of_exec {kept : CheckpointRow → Bool} {row : CheckpointRow} (outcome : Outcome)
    (n : Nat) (hkept : ∀ row', kept row' = true → row' = row)
    (h : (((resuming row).exec interp Anyhow
      (List.replicate n (0, { step := fun state => .ok (finisher.step state) }))).any fun s : Stack (Fin 1) =>
        decide (returnedAs s 0 outcome = true ∧ (∀ e ∈ s.traceOf 0, found kept e = true) ∧
          (summaryOf s 0).killReads = [false])) = true) :
    ∃ produced, Returns finisher oneStep (asked "work") (drawn "r") (some row) (fun _ => false) outcome
      produced := by
  obtain ⟨s, hreach, hended, hfound, hread⟩ := Pool.Reach.exists_of_exec_good
    interp Anyhow (resuming row) (Calm finisher)
    (List.replicate n (0, { step := fun state => .ok (finisher.step state) }))
    (fun p hp => by rw [(List.mem_replicate.mp hp).2]; exact ⟨rfl, rfl⟩) h
  have hstep := stepped (f := finisher.step) hreach rfl
  refine ⟨_, Fin 1, _, _, _, s, 0, hreach.mono fun _ _ _ _ => trivial, rfl, ?_, ?_,
    outcomeOf_of_returnedAs hended, rfl⟩
  · intro e he
    exact answers_of_calm hkept (hfound e he) (hstep _ (Pool.mem_traceOf.mp he))
  · rw [hread]
    intro k b hk
    rw [List.getElem?_singleton, Option.ite_none_right_eq_some] at hk
    exact Option.some.inj hk.2

/-- Resumed from the checkpoint of a completed thread, an invocation with more work
returns `ok` and is not done; without the flag it uses up its step. -/
theorem done_iff_flag_idle_closed :
    ∃ produced produced',
      Returns finisher oneStep (asked "work") (drawn "r") (some closed) (fun _ => false) .ok produced ∧
      Returns finisher oneStep (asked "work") (drawn "r") (some (strip closed)) (fun _ => false)
        .maxStepsExceeded produced' ∧
      ¬ Idle finisher (fun _ => false) 1 (resumed (asked "work") (drawn "r") (some closed)) ∧
      ∀ x ∈ produced, finisher.done x = false := by
  obtain ⟨produced, hok⟩ := returns_of_exec .ok 16 eq_of_isClosed (by decide)
  obtain ⟨produced', hmax⟩ := returns_of_exec .maxStepsExceeded 13 eq_of_isStripped (by decide)
  obtain ⟨hdone, hsame⟩ := done_iff_flag_idle finisher _ _ _ (some closed) _ .ok _ hok
  have hbusy : ¬ Idle finisher (fun _ => false) 1 (resumed (asked "work") (drawn "r") (some closed)) :=
    fun hidle => by cases ((hsame _ _ (fun _ => rfl) hmax).mpr hidle).1
  refine ⟨produced, produced', hok, hmax, hbusy, fun x hx => Bool.eq_false_iff.mpr fun hx' => ?_⟩
  exact hbusy (hdone.mp fun _ => ⟨x, hx, hx'⟩)

/-- The second invocation resumes from the completed state of the first, and
returns `ok` though its worker is not done. -/
theorem stale_flag :
    ∃ s res, Reach (fun s i c => Succeeds s i c ∧ Calm finisher c)
        (start (fun i : Fin 2 => if i = 0 then ask "finish" "r0" else ask "work" "r1") World.empty) s ∧
      outcomeOf s 1 = some (.ok (.invoked res)) ∧ res.outcome = .ok ∧
      ∀ x ∈ (summaryOf s 1).produced, finisher.done x = false := by
  obtain ⟨s, hreach, hok, hdone⟩ := Pool.Reach.exists_of_exec_good
    interp Succeeds
    (start (fun i : Fin 2 => if i = 0 then ask "finish" "r0" else ask "work" "r1") World.empty)
    (Calm finisher)
    (P := fun s => returnedAs s 1 .ok = true ∧
      ∀ x ∈ (summaryOf s 1).produced, finisher.done x = false)
    (List.replicate 16 (0, { step := fun state => .ok (finisher.step state) }) ++
      List.replicate 16 (1, { step := fun state => .ok (finisher.step state) }))
    (fun p hp => by
      rcases List.mem_append.mp hp with hp | hp <;> rw [(List.mem_replicate.mp hp).2] <;>
        exact ⟨rfl, rfl⟩) (by decide)
  obtain ⟨res, hres, houtcome⟩ := outcomeOf_of_returnedAs hok
  exact ⟨s, res, hreach, hres, houtcome, hdone⟩

end NoblePort.Completion
