import NoblePort.Contract
import Mathlib.Logic.Function.Basic

/-!
# Pools of cooperative programs

Any family of programs shares one world. At each step a scheduler picks a task
and a choice `Ch` for what the world leaves open, and the awaited call of that
task happens as one atomic step. The log keeps every answered call in order.
-/
namespace Coroutine

variable {ι Op : Type} {Resp : Op → Type} {ε α A σ W Ch : Type}

/-- How a world answers a call, whether the effect takes place with that
answer, and what the effect is. -/
structure Interp (Op : Type) (Resp : Op → Type) (ε W Ch : Type) where
  answer : Ch → W → (op : Op) → Except ε (Resp op) × Bool
  effect : W → Op → W

namespace Interp

variable (I : Interp Op Resp ε W Ch)

def settle (w : W) (e : Entry Op Resp ε) : W := if e.landed then I.effect w e.op else w

/-- The answered call as the log records it. -/
def entry (c : Ch) (w : W) (op : Op) : Entry Op Resp ε := ⟨op, (I.answer c w op).1, (I.answer c w op).2⟩

end Interp

structure Pool (ι Op : Type) (Resp : Op → Type) (ε α W : Type) where
  world : W
  task : ι → Prog Op Resp ε α
  log : List (ι × Entry Op Resp ε)

namespace Pool

variable [DecidableEq ι] (I : Interp Op Resp ε W Ch)

def step (s : Pool ι Op Resp ε α W) (i : ι) (c : Ch) : Option (Pool ι Op Resp ε α W) :=
  match s.task i with
  | .await op k =>
    let e := I.entry c s.world op
    some ⟨I.settle s.world e, Function.update s.task i (k (I.answer c s.world op).1), s.log ++ [(i, e)]⟩
  | _ => none

/-- Run a list of picks, each of which must meet `cond` in the state it starts from. -/
def exec (cond : Pool ι Op Resp ε α W → ι → Ch → Prop) [∀ s i c, Decidable (cond s i c)]
    (s : Pool ι Op Resp ε α W) : List (ι × Ch) → Option (Pool ι Op Resp ε α W)
  | [] => some s
  | (i, c) :: picks => if cond s i c then (s.step I i c).bind fun s' => s'.exec cond picks else none

/-- The answered calls of one task, in order. -/
def traceOf (s : Pool ι Op Resp ε α W) (i : ι) : List (Entry Op Resp ε) :=
  s.log.filterMap fun x => if x.1 = i then some x.2 else none

/-- Everything one step does. -/
theorem step_cases {s s' : Pool ι Op Resp ε α W} {i : ι} {c : Ch} (h : s.step I i c = some s') :
    ∃ op k, s.task i = .await op k ∧ s'.world = I.settle s.world (I.entry c s.world op) ∧
      s'.task = Function.update s.task i (k (I.entry c s.world op).result) ∧
      s'.log = s.log ++ [(i, I.entry c s.world op)] := by
  unfold step at h
  cases ht : s.task i with
  | ret a => simp [ht] at h
  | raise e => simp [ht] at h
  | await op k =>
    simp only [ht, Option.some.injEq] at h
    subst h
    exact ⟨op, k, rfl, rfl, rfl, rfl⟩

omit [DecidableEq ι] in
theorem awaits_of_task {s : Pool ι Op Resp ε α W} {i : ι} {op : Op} {k : Except ε (Resp op) → Prog Op Resp ε α}
    (h : s.task i = .await op k) : (s.task i).awaits = some op := by
  rw [h]
  rfl

theorem traceOf_step_same {s s' : Pool ι Op Resp ε α W} {i : ι} {e : Entry Op Resp ε}
    (h : s'.log = s.log ++ [(i, e)]) : s'.traceOf i = s.traceOf i ++ [e] := by
  simp [traceOf, h]

theorem traceOf_step_other {s s' : Pool ι Op Resp ε α W} {i j : ι} {e : Entry Op Resp ε}
    (h : s'.log = s.log ++ [(i, e)]) (hij : i ≠ j) : s'.traceOf j = s.traceOf j := by
  simp [traceOf, h, hij]

theorem mem_traceOf {s : Pool ι Op Resp ε α W} {i : ι} {e : Entry Op Resp ε} :
    e ∈ s.traceOf i ↔ (i, e) ∈ s.log := by
  simp only [traceOf, List.mem_filterMap, Option.ite_none_right_eq_some, Option.some.injEq]
  constructor
  · rintro ⟨⟨j, e'⟩, hx, hj, he⟩
    simp only at hj he
    subst hj; subst he
    exact hx
  · intro h
    exact ⟨(i, e), h, rfl, rfl⟩

theorem traceOf_append {s s' : Pool ι Op Resp ε α W} {tail : List (ι × Entry Op Resp ε)}
    (h : s'.log = s.log ++ tail) (i : ι) :
    s'.traceOf i = s.traceOf i ++ tail.filterMap fun x => if x.1 = i then some x.2 else none := by
  rw [traceOf, h, List.filterMap_append]
  rfl

/-- What stands before an entry of the log and belongs to its task. -/
theorem traceOf_split {s : Pool ι Op Resp ε α W} {pre post : List (ι × Entry Op Resp ε)} {i : ι}
    {e : Entry Op Resp ε} (h : s.log = pre ++ (i, e) :: post) :
    ∃ tr tr', s.traceOf i = tr ++ e :: tr' ∧ ∀ e' ∈ tr, (i, e') ∈ pre := by
  refine ⟨_, _, by rw [traceOf, h, List.filterMap_append, List.filterMap_cons, if_pos rfl], ?_⟩
  intro e' he'
  exact (mem_traceOf (s := ⟨s.world, s.task, pre⟩)).mp he'

/-- States reached by steps that each meet `cond` in the state they start from. -/
inductive Reach (cond : Pool ι Op Resp ε α W → ι → Ch → Prop) (s₀ : Pool ι Op Resp ε α W) :
    Pool ι Op Resp ε α W → Prop
  | start : Reach cond s₀ s₀
  | step {s s' : Pool ι Op Resp ε α W} {i : ι} {c : Ch} :
      Reach cond s₀ s → cond s i c → s.step I i c = some s' → Reach cond s₀ s'

namespace Reach

variable {I} {cond : Pool ι Op Resp ε α W → ι → Ch → Prop} {s₀ s s' : Pool ι Op Resp ε α W}

theorem trans (h : Reach I cond s₀ s) (h' : Reach I cond s s') : Reach I cond s₀ s' := by
  induction h' with
  | start => exact h
  | step _ hc hs ih => exact .step ih hc hs

theorem mono {cond' : Pool ι Op Resp ε α W → ι → Ch → Prop} (hc : ∀ s i c, cond s i c → cond' s i c)
    (h : Reach I cond s₀ s) : Reach I cond' s₀ s := by
  induction h with
  | start => exact .start
  | step _ hs hstep ih => exact ih.step (hc _ _ _ hs) hstep

/-- What a list of picks computes is reached, by choices as good as the listed ones. -/
theorem of_exec [∀ s i c, Decidable (cond s i c)] {good : Ch → Prop} {picks : List (ι × Ch)}
    (hgood : ∀ p ∈ picks, good p.2) (h : s.exec I cond picks = some s') :
    Reach I (fun s i c => cond s i c ∧ good c) s s' := by
  induction picks generalizing s with
  | nil =>
    simp only [exec, Option.some.injEq] at h
    subst h
    exact .start
  | cons p picks ih =>
    obtain ⟨i, c⟩ := p
    simp only [exec, Option.ite_none_right_eq_some, Option.bind_eq_some_iff] at h
    obtain ⟨hc, m, hm, hrest⟩ := h
    have hfirst : good c := hgood (i, c) (List.mem_cons_self ..)
    exact (Reach.start.step ⟨hc, hfirst⟩ hm).trans
      (ih (fun p hp => hgood p (List.mem_cons_of_mem _ hp)) hrest)

theorem of_picks [∀ s i c, Decidable (cond s i c)] {picks : List (ι × Ch)}
    (h : s.exec I cond picks = some s') : Reach I cond s s' := by
  have hgood : Reach I (fun s i c => cond s i c ∧ True) s s' := of_exec (fun _ _ => trivial) h
  exact hgood.mono fun _ _ _ => And.left

variable (I cond s)

theorem exists_of_exec_good [∀ s i c, Decidable (cond s i c)] (good : Ch → Prop)
    (picks : List (ι × Ch)) (hgood : ∀ p ∈ picks, good p.2)
    {P : Pool ι Op Resp ε α W → Prop} [DecidablePred P]
    (h : (s.exec I cond picks).any (fun s' => decide (P s')) = true) :
    ∃ s', Reach I (fun s i c => cond s i c ∧ good c) s s' ∧ P s' := by
  cases he : s.exec I cond picks with
  | none => simp [he] at h
  | some s' => exact ⟨s', .of_exec hgood he, by simpa [he] using h⟩

theorem exists_of_exec [∀ s i c, Decidable (cond s i c)] (picks : List (ι × Ch))
    {P : Pool ι Op Resp ε α W → Prop} [DecidablePred P]
    (h : (s.exec I cond picks).any (fun s' => decide (P s')) = true) :
    ∃ s', Reach I cond s s' ∧ P s' := by
  obtain ⟨s', hs, hP⟩ := (Option.any_eq_true _ _).mp h
  exact ⟨s', .of_picks hs, of_decide_eq_true hP⟩

variable {I cond s}

/-- The log only grows. -/
theorem log_prefix (h : Reach I cond s₀ s) : s₀.log <+: s.log := by
  induction h with
  | start => exact List.prefix_refl _
  | step _ _ hs ih =>
    obtain ⟨op, k, _, _, _, hl⟩ := step_cases I hs
    rw [hl]
    exact ih.trans (List.prefix_append _ _)

/-- A property of every answer the world gives under `cond` holds of every call logged since. -/
theorem log_since {P : ι × Entry Op Resp ε → Prop}
    (hP : ∀ s i c, cond s i c → ∀ op, (s.task i).awaits = some op → P (i, I.entry c s.world op))
    (h : Reach I cond s₀ s) : ∃ tail, s.log = s₀.log ++ tail ∧ ∀ x ∈ tail, P x := by
  induction h with
  | start => exact ⟨[], (List.append_nil _).symm, nofun⟩
  | @step s s' i c _ hc hs ih =>
    obtain ⟨op, k, ht, _, _, hl⟩ := step_cases I hs
    obtain ⟨tail, htail, hprops⟩ := ih
    refine ⟨tail ++ [(i, I.entry c s.world op)], by rw [hl, htail, List.append_assoc], ?_⟩
    intro x hx
    rcases List.mem_append.mp hx with hx | hx
    · exact hprops x hx
    · rw [List.mem_singleton.mp hx]
      exact hP s i c hc op (by rw [ht]; rfl)

/-- The state in which an entry of the log was about to be answered. -/
theorem at_entry (h : Reach I cond s₀ s) (h₀ : s₀.log = []) {pre post : List (ι × Entry Op Resp ε)}
    {i : ι} {e : Entry Op Resp ε} (hlog : s.log = pre ++ (i, e) :: post) :
    ∃ s₁ c op, Reach I cond s₀ s₁ ∧ s₁.log = pre ∧ cond s₁ i c ∧ (s₁.task i).awaits = some op ∧
      e = I.entry c s₁.world op := by
  induction h generalizing post with
  | start => simp [h₀] at hlog
  | @step s s' j c hr hc hs ih =>
    obtain ⟨op, k, ht, _, _, hl⟩ := step_cases I hs
    rw [hl] at hlog
    rcases List.eq_nil_or_concat post with rfl | ⟨post', x, rfl⟩
    · obtain ⟨hpre, hlast⟩ := List.append_inj' hlog rfl
      cases hlast
      exact ⟨s, c, op, hr, hpre, hc, by rw [ht]; rfl, rfl⟩
    · rw [List.concat_eq_append, ← List.cons_append, ← List.append_assoc] at hlog
      exact ih (List.append_inj' hlog rfl).1

/-- The state in which the log was `pre`. -/
theorem at_prefix (h : Reach I cond s₀ s) (h₀ : s₀.log = []) {pre post : List (ι × Entry Op Resp ε)}
    (hlog : s.log = pre ++ post) : ∃ s₁, Reach I cond s₀ s₁ ∧ Reach I cond s₁ s ∧ s₁.log = pre := by
  induction h generalizing post with
  | start =>
    rw [h₀] at hlog
    obtain ⟨rfl, rfl⟩ := List.append_eq_nil_iff.mp hlog.symm
    exact ⟨s₀, .start, .start, h₀⟩
  | @step s s' j c hr hc hs ih =>
    obtain ⟨op, k, ht, _, _, hl⟩ := step_cases I hs
    rcases List.eq_nil_or_concat post with rfl | ⟨post', x, rfl⟩
    · rw [List.append_nil] at hlog
      exact ⟨s', hr.step hc hs, .start, hlog⟩
    · rw [hl, List.concat_eq_append, ← List.append_assoc] at hlog
      obtain ⟨s₁, h₁, h₂, hpre⟩ := ih (List.append_inj' hlog rfl).1
      exact ⟨s₁, h₁, h₂.step hc hs, hpre⟩

/-- A property of every answer the world gives under `cond` holds of every logged call. -/
theorem log_forall {P : Entry Op Resp ε → Prop}
    (hP : ∀ s i c, cond s i c → ∀ op, P (I.entry c s.world op))
    (h : Reach I cond s₀ s) (h₀ : ∀ x ∈ s₀.log, P x.2) : ∀ x ∈ s.log, P x.2 := by
  obtain ⟨tail, htail, hprops⟩ := h.log_since (P := fun x => P x.2) fun s i c hc op _ => hP s i c hc op
  intro x hx
  rw [htail] at hx
  rcases List.mem_append.mp hx with hx | hx
  · exact h₀ x hx
  · exact hprops x hx

/-- The world is what the logged calls made of the first one. -/
theorem world_eq (h : Reach I cond s₀ s) (h₀ : s₀.log = []) :
    s.world = s.log.foldl (fun w x => I.settle w x.2) s₀.world := by
  induction h with
  | start => simp [h₀]
  | step _ _ hs ih =>
    obtain ⟨op, k, _, hw, _, hl⟩ := step_cases I hs
    rw [hw, hl, List.foldl_append, ← ih]
    rfl

/-- What only the calls of task `i` add to is what the trace of `i` added. -/
theorem view_eq (view : W → List A) (gives : Entry Op Resp ε → List A) {i : ι}
    (h : Reach I cond s₀ s) (h₀ : s₀.log = [])
    (hview : ∀ x ∈ s.log, ∀ w, view (I.settle w x.2) = view w ++ if x.1 = i then gives x.2 else []) :
    view s.world = view s₀.world ++ (s.traceOf i).flatMap gives := by
  rw [h.world_eq h₀, traceOf]
  generalize s₀.world = w
  revert hview
  generalize s.log = log
  intro hview
  induction log generalizing w with
  | nil => simp
  | cons x log ih =>
    have hx := hview x (List.mem_cons_self ..) w
    have htail := ih (I.settle w x.2) (fun y hy => hview y (List.mem_cons_of_mem _ hy))
    rw [List.foldl_cons, htail, hx, List.append_assoc]
    by_cases hi : x.1 = i <;> simp [hi]

section Contracts

variable {i : ι} {C : Contract Op Resp ε σ} {Q : σ → Except ε α → Prop} {o : σ}

/-- A verified task stays verified at every point of every interleaving. -/
theorem wp_task (h : Reach I cond s₀ s) (h₀ : s₀.log = []) (hwp : C.wp (s₀.task i) Q o)
    (hrely : C.Relied o (s.traceOf i)) : C.wp (s.task i) Q (C.after o (s.traceOf i)) := by
  induction h with
  | start => simpa [traceOf, h₀] using hwp
  | @step s s' j c _ _ hs ih =>
    obtain ⟨op, k, ht, _, htask, hl⟩ := step_cases I hs
    by_cases hij : j = i
    · subst hij
      have htr := traceOf_step_same hl
      rw [htr, Contract.relied_append] at hrely
      have hw := ih hrely.1
      rw [ht] at hw
      rw [htr, Contract.after_append, htask, Function.update_self]
      exact hw.2 _ _ hrely.2.1
    · have htr := traceOf_step_other hl hij
      rw [htr] at hrely ⊢
      rw [htask, Function.update_of_ne (Ne.symm hij)]
      exact ih hrely

/-- The call a verified task awaits is guaranteed. -/
theorem guarantee_awaits (h : Reach I cond s₀ s) (h₀ : s₀.log = []) (hwp : C.wp (s₀.task i) Q o)
    (hrely : C.Relied o (s.traceOf i)) {op : Op} (ha : (s.task i).awaits = some op) :
    C.guarantee (C.after o (s.traceOf i)) op := by
  have hw := h.wp_task h₀ hwp hrely
  cases ht : s.task i with
  | ret a => simp [ht, Prog.awaits] at ha
  | raise e => simp [ht, Prog.awaits] at ha
  | await op' k =>
    simp only [ht, Prog.awaits, Option.some.injEq] at ha
    subst ha
    rw [ht] at hw
    exact hw.1

/-- Every logged call of a verified task was guaranteed when it was awaited. -/
theorem guarantee_logged (h : Reach I cond s₀ s) (h₀ : s₀.log = []) (hwp : C.wp (s₀.task i) Q o)
    (hrely : C.Relied o (s.traceOf i)) {pre post : List (Entry Op Resp ε)} {e : Entry Op Resp ε}
    (htr : s.traceOf i = pre ++ e :: post) : C.guarantee (C.after o pre) e.op := by
  induction h generalizing post with
  | start => simp [traceOf, h₀] at htr
  | @step s s' j c hr _ hs ih =>
    obtain ⟨op, k, ht, _, _, hl⟩ := step_cases I hs
    by_cases hij : j = i
    · subst hij
      have hsame := traceOf_step_same hl
      rw [hsame] at htr hrely
      have hrely' := ((C.relied_append _ _ _).mp hrely).1
      rcases List.eq_nil_or_concat post with rfl | ⟨post', x, rfl⟩
      · obtain ⟨hpre, he⟩ := List.append_inj' htr rfl
        cases he
        rw [← hpre]
        exact hr.guarantee_awaits h₀ hwp hrely' (awaits_of_task ht)
      · rw [List.concat_eq_append, ← List.cons_append, ← List.append_assoc] at htr
        exact ih hrely' (List.append_inj' htr rfl).1
    · rw [traceOf_step_other hl hij] at htr hrely
      exact ih hrely htr

end Contracts

end Reach

end Pool

end Coroutine
