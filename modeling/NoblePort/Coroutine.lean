import Mathlib.Logic.Basic

/-!
# Cooperative programs

A coroutine runs until it awaits a call, is suspended there, and goes on with
whatever the call answered: a value or an exception. Calls are an arbitrary
type `Op` with an answer type for each call; exceptions are an arbitrary `ε`.
-/
namespace Coroutine

variable {Op : Type} {Resp : Op → Type} {ε α β ω : Type}

inductive Prog (Op : Type) (Resp : Op → Type) (ε α : Type) where
  | ret : α → Prog Op Resp ε α
  | raise : ε → Prog Op Resp ε α
  | await : (op : Op) → (Except ε (Resp op) → Prog Op Resp ε α) → Prog Op Resp ε α

namespace Prog

def bind : Prog Op Resp ε α → (α → Prog Op Resp ε β) → Prog Op Resp ε β
  | .ret a, f => f a
  | .raise e, _ => .raise e
  | .await op k, f => .await op fun r => (k r).bind f

instance : Monad (Prog Op Resp ε) where
  pure := .ret
  bind := bind

def ofExcept : Except ε α → Prog Op Resp ε α
  | .ok a => .ret a
  | .error e => .raise e

/-- Await one call and go on with its answer or with its exception. -/
def call (op : Op) : Prog Op Resp ε (Resp op) := .await op ofExcept

/-- Run a program and hold on to the exception it may end with. -/
def attempt : Prog Op Resp ε α → Prog Op Resp ε (Except ε α)
  | .ret a => .ret (.ok a)
  | .raise e => .ret (.error e)
  | .await op k => .await op fun r => (k r).attempt

/-- `try: body except e: handler e`. -/
def tryExcept (body : Prog Op Resp ε α) (handler : ε → Prog Op Resp ε α) : Prog Op Resp ε α := do
  match ← body.attempt with
  | .ok a => return a
  | .error e => handler e

/-- `try: body except e: handler e finally: fin` around a local variable of
type `ω` that the finally block reads: the body hands over its final value,
and a handler first assigns it, then runs, then re-raises. An exception of the
handler replaces the one it handles, and one of the finally block replaces both. -/
def tryFinally (body : Prog Op Resp ε (ω × α)) (handler : ε → ω × Prog Op Resp ε Unit)
    (fin : ω → Prog Op Resp ε Unit) : Prog Op Resp ε (ω × α) := do
  match ← body.attempt with
  | .ok (w, a) =>
    fin w
    return (w, a)
  | .error e =>
    let (w, rest) := handler e
    match ← rest.attempt with
    | .ok () =>
      fin w
      .raise e
    | .error e' =>
      fin w
      .raise e'

/-- What a suspended program awaits, if it is not finished. -/
def awaits : Prog Op Resp ε α → Option Op
  | .await op _ => some op
  | _ => none

/-- Run alone against a handler that answers every call and keeps a state. -/
def run {σ : Type} (answer : (op : Op) → σ → Except ε (Resp op) × σ) :
    Prog Op Resp ε α → σ → Except ε α × σ
  | .ret a, s => (.ok a, s)
  | .raise e, s => (.error e, s)
  | .await op k, s => (k (answer op s).1).run answer (answer op s).2

section Run

variable {σ : Type} (answer : (op : Op) → σ → Except ε (Resp op) × σ)

@[simp] theorem run_pure (a : α) (s : σ) :
    (pure a : Prog Op Resp ε α).run answer s = (.ok a, s) := rfl

@[simp] theorem run_raise (e : ε) (s : σ) :
    (.raise e : Prog Op Resp ε α).run answer s = (.error e, s) := rfl

theorem run_bind (p : Prog Op Resp ε α) (f : α → Prog Op Resp ε β) (s : σ) :
    (p >>= f).run answer s =
      match p.run answer s with
      | (.ok a, s') => (f a).run answer s'
      | (.error e, s') => (.error e, s') := by
  change (p.bind f).run answer s = _
  induction p generalizing s with
  | ret a => rfl
  | raise e => rfl
  | await op k ih => exact ih _ _

theorem run_call (op : Op) (s : σ) : (call op : Prog Op Resp ε _).run answer s = answer op s := by
  change (ofExcept (answer op s).1).run answer (answer op s).2 = _
  cases h : (answer op s).1 with
  | ok a => exact Prod.ext h.symm rfl
  | error e => exact Prod.ext h.symm rfl

theorem run_attempt (p : Prog Op Resp ε α) (s : σ) :
    p.attempt.run answer s = (.ok (p.run answer s).1, (p.run answer s).2) := by
  induction p generalizing s with
  | ret a => rfl
  | raise e => rfl
  | await op k ih => exact ih _ _

theorem run_tryExcept (body : Prog Op Resp ε α) (handler : ε → Prog Op Resp ε α) (s : σ) :
    (body.tryExcept handler).run answer s =
      match body.run answer s with
      | (.ok a, s') => (.ok a, s')
      | (.error e, s') => (handler e).run answer s' := by
  rw [tryExcept, run_bind, run_attempt]
  rcases body.run answer s with ⟨r, s'⟩
  cases r <;> rfl

end Run

end Prog

/-- One answered call: what it answered, and whether its effect took place. A
call that raises may have taken effect before it did. -/
structure Entry (Op : Type) (Resp : Op → Type) (ε : Type) where
  op : Op
  result : Except ε (Resp op)
  landed : Bool

def Entry.failed (e : Entry Op Resp ε) : Bool :=
  match e.result with
  | .ok _ => false
  | .error _ => true

end Coroutine
