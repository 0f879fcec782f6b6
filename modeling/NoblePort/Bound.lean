import NoblePort.Pool

/-!
# How many calls are left

A program that makes at most `n` calls, whatever they answer, is over after
`n` steps of its own, however they are interleaved with those of others.
-/
namespace Coroutine

variable {ι Op : Type} {Resp : Op → Type} {ε α β ω W Ch : Type}

namespace Prog

/-- At most `n` calls, whatever they answer. -/
def Bounded : Prog Op Resp ε α → Nat → Prop
  | .await _ k, n => ∃ m, n = m + 1 ∧ ∀ r, (k r).Bounded m
  | _, _ => True

namespace Bounded

variable {p : Prog Op Resp ε α} {f : α → Prog Op Resp ε β} {a b c : Nat}

theorem mono (h : p.Bounded a) (hab : a ≤ b) : p.Bounded b := by
  induction p generalizing a b with
  | ret x => trivial
  | raise e => trivial
  | await op k ih =>
    obtain ⟨m, rfl, hk⟩ := h
    exact ⟨b - 1, by omega, fun r => ih r (hk r) (by omega)⟩

theorem pure (x : α) : (Pure.pure x : Prog Op Resp ε α).Bounded a := trivial

theorem raise (e : ε) : (.raise e : Prog Op Resp ε α).Bounded a := trivial

theorem call (op : Op) : (.call op : Prog Op Resp ε _).Bounded 1 :=
  ⟨0, rfl, fun r => by cases r <;> trivial⟩

theorem bind (hp : p.Bounded a) (hf : ∀ x, (f x).Bounded b) : (p >>= f).Bounded (a + b) := by
  change (p.bind f).Bounded (a + b)
  induction p generalizing a with
  | ret x => exact (hf x).mono (Nat.le_add_left b a)
  | raise e => trivial
  | await op k ih =>
    obtain ⟨m, rfl, hk⟩ := hp
    exact ⟨m + b, by omega, fun r => ih r (hk r)⟩

theorem attempt (hp : p.Bounded a) : p.attempt.Bounded a := by
  induction p generalizing a with
  | ret x => trivial
  | raise e => trivial
  | await op k ih =>
    obtain ⟨m, rfl, hk⟩ := hp
    exact ⟨m, rfl, fun r => ih r (hk r)⟩

theorem tryExcept {handler : ε → Prog Op Resp ε α} (hp : p.Bounded a)
    (hh : ∀ e, (handler e).Bounded b) : (p.tryExcept handler).Bounded (a + b) := by
  refine hp.attempt.bind fun r => ?_
  cases r with
  | ok x => trivial
  | error e => exact hh e

theorem tryFinally {body : Prog Op Resp ε (ω × α)} {handler : ε → ω × Prog Op Resp ε Unit}
    {fin : ω → Prog Op Resp ε Unit} (hbody : body.Bounded a)
    (hh : ∀ e, (handler e).2.Bounded b) (hfin : ∀ w, (fin w).Bounded c) :
    (body.tryFinally handler fin).Bounded (a + (b + c)) := by
  refine hbody.attempt.bind fun r => ?_
  cases r with
  | ok wa => exact ((hfin wa.1).bind fun _ => .pure (a := 0) wa).mono (by omega)
  | error e =>
    refine (hh e).attempt.bind fun r => ?_
    cases r with
    | ok u => exact (hfin _).bind fun _ => .raise (a := 0) e
    | error e' => exact (hfin _).bind fun _ => .raise (a := 0) e'

end Bounded

end Prog

namespace Pool

variable [DecidableEq ι] {I : Interp Op Resp ε W Ch} {cond : Pool ι Op Resp ε α W → ι → Ch → Prop}
  {s₀ s : Pool ι Op Resp ε α W} {i : ι} {n : Nat}

/-- The calls made and the calls left. -/
theorem Reach.bounded (h : Reach I cond s₀ s) (h₀ : s₀.log = []) (hn : (s₀.task i).Bounded n) :
    ∃ left, (s.traceOf i).length + left = n ∧ (s.task i).Bounded left := by
  induction h with
  | start => exact ⟨n, by simp [traceOf, h₀], hn⟩
  | @step s s' j c _ _ hs ih =>
    obtain ⟨op, k, ht, _, htask, hl⟩ := step_cases I hs
    obtain ⟨left, hleft, hbounded⟩ := ih
    by_cases hij : j = i
    · subst hij
      rw [ht] at hbounded
      obtain ⟨m, rfl, hk⟩ := hbounded
      refine ⟨m, ?_, ?_⟩
      · rw [traceOf_step_same hl, List.length_append, List.length_singleton]
        omega
      · rw [htask, Function.update_self]
        exact hk _
    · rw [traceOf_step_other hl hij, htask, Function.update_of_ne (Ne.symm hij)]
      exact ⟨left, hleft, hbounded⟩

/-- A task that still awaits has calls left. -/
theorem Reach.trace_lt (h : Reach I cond s₀ s) (h₀ : s₀.log = []) (hn : (s₀.task i).Bounded n)
    (ha : (s.task i).awaits ≠ none) : (s.traceOf i).length < n := by
  obtain ⟨left, hleft, hbounded⟩ := h.bounded h₀ hn
  cases ht : s.task i with
  | ret x => simp [ht, Prog.awaits] at ha
  | raise e => simp [ht, Prog.awaits] at ha
  | await op k =>
    rw [ht] at hbounded
    obtain ⟨m, rfl, _⟩ := hbounded
    omega

end Pool

end Coroutine
