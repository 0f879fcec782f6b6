import NoblePort.Bound

/-!
# Calls implemented by programs

Each call of one language is implemented by a program over a finer one. If every
implementation takes effect once, by one of its own calls, then the pool of the
finer programs follows the pool it was made from, with the same answers in the
same order.
-/
namespace Coroutine

variable {ι Op Op' : Type} {Resp : Op → Type} {Resp' : Op' → Type} {ε α W W' Ch Ch' : Type}

/-- Run the implementation in place of every call. -/
def Prog.subst (impl : (op : Op) → Prog Op' Resp' ε (Resp op)) :
    Prog Op Resp ε α → Prog Op' Resp' ε α
  | .ret a => .ret a
  | .raise e => .raise e
  | .await op k => (impl op).attempt.bind fun r => (k r).subst impl

/-- Calls of at most `m` calls each. -/
theorem Prog.Bounded.subst {impl : (op : Op) → Prog Op' Resp' ε (Resp op)} {p : Prog Op Resp ε α} {n m : Nat}
    (hp : p.Bounded n) (himpl : ∀ op, (impl op).Bounded m) : (p.subst impl).Bounded (m * n) := by
  induction p generalizing n with
  | ret a => trivial
  | raise e => trivial
  | await op k ih =>
    obtain ⟨left, rfl, hk⟩ := hp
    rw [Nat.mul_succ, Nat.add_comm]
    exact (himpl op).attempt.bind fun r => ih r (hk r)

/-- What every implementation keeps is kept by the whole. -/
theorem Contract.Keeps.subst {σ : Type} {C : Contract Op' Resp' ε σ} {S : σ → Prop}
    {impl : (op : Op) → Prog Op' Resp' ε (Resp op)} (h : ∀ op, C.Keeps S (impl op)) (p : Prog Op Resp ε α) :
    C.Keeps S (p.subst impl) := by
  induction p with
  | ret a => exact .ret a
  | raise e => exact .raise e
  | await op k ih =>
    constructor
    intro s hs
    change C.wp ((impl op).attempt >>= fun r => (k r).subst impl) _ s
    rw [Contract.wp_bind, Contract.wp_attempt]
    exact C.wp_mono _ _ (fun s r hs => (ih r).wp s hs) ((h op).wp s hs)

/-- How a program ended, if it has. -/
def Prog.outcome : Prog Op Resp ε α → Option (Except ε α)
  | .ret a => some (.ok a)
  | .raise e => some (.error e)
  | .await _ _ => none

/-- A world, and the calls that have made it what it is. -/
structure Past (ι Op : Type) (Resp : Op → Type) (ε W : Type) where
  world : W
  log : List (ι × Entry Op Resp ε)

def Pool.past (s : Pool ι Op Resp ε α W) : Past ι Op Resp ε W := ⟨s.world, s.log⟩

/-- One more call, of task `i`. -/
def Interp.extend (I : Interp Op Resp ε W Ch) (x : Past ι Op Resp ε W) (i : ι) (c : Ch) (op : Op) :
    Past ι Op Resp ε W :=
  ⟨I.settle x.world (I.entry c x.world op), x.log ++ [(i, I.entry c x.world op)]⟩

/-- The first call of `q` leaves the finer world and what is left of `q` in `P`,
whatever it is answered; `q` has not ended. -/
def Prog.Next (J : Interp Op' Resp' ε W' Ch') (w : W') (P : W' → Prog Op' Resp' ε α → Prop) :
    Prog Op' Resp' ε α → Prop
  | .await op k => ∀ c, P (J.settle w (J.entry c w op)) (k (J.entry c w op).result)
  | .ret _ | .raise _ => False

/-- What holds between the finer world and the past it follows: always, while
task `i` is between two calls, while the call of task `i` has not happened yet
and `q` is left of its implementation, and once it has and was answered `r`.
`others i` is what the steps of the other tasks do to what task `i` knows. -/
structure Simulation (I : Interp Op Resp ε W Ch) (J : Interp Op' Resp' ε W' Ch')
    (impl : ι → (op : Op) → Prog Op' Resp' ε (Resp op)) where
  shared : W' → Past ι Op Resp ε W → Prop
  idle : ι → W' → Past ι Op Resp ε W → Prop
  before : ι → (op : Op) → Prog Op' Resp' ε (Resp op) → W' → Past ι Op Resp ε W → Prop
  after : ι → (op : Op) → Except ε (Resp op) → Prog Op' Resp' ε (Resp op) → W' →
    Past ι Op Resp ε W → Prop
  others : ι → W' → Past ι Op Resp ε W → W' → Past ι Op Resp ε W → Prop
  stable_idle : ∀ {i w x v y}, others i w x v y → idle i w x → idle i v y
  stable_before : ∀ {i op q w x v y}, others i w x v y → before i op q w x → before i op q v y
  stable_after : ∀ {i op r q w x v y}, others i w x v y → after i op r q w x → after i op r q v y
  begins : ∀ {i w x} op, idle i w x → before i op (impl i op) w x
  advances : ∀ {i op q w x}, shared w x → before i op q w x → q.Next J w fun v rest =>
    (shared v x ∧ before i op rest v x ∧ ∀ j, j ≠ i → others j w x v x) ∨
    ∃ c, shared v (I.extend x i c op) ∧ after i op (I.answer c x.world op).1 rest v (I.extend x i c op) ∧
      ∀ j, j ≠ i → others j w x v (I.extend x i c op)
  completes : ∀ {i op r q w x}, shared w x → after i op r q w x →
    (q.outcome = some r ∧ idle i w x) ∨ q.Next J w fun v rest =>
      shared v x ∧ after i op r rest v x ∧ ∀ j, j ≠ i → others j w x v x

namespace Simulation

variable {I : Interp Op Resp ε W Ch} {J : Interp Op' Resp' ε W' Ch'}
  {impl : ι → (op : Op) → Prog Op' Resp' ε (Resp op)} (S : Simulation I J impl)

/-- Where a task of the finer pool stands in the task that it follows. -/
inductive Follows (i : ι) (w : W') (x : Past ι Op Resp ε W) :
    Prog Op' Resp' ε α → Prog Op Resp ε α → Prop
  | idle (p : Prog Op Resp ε α) : S.idle i w x → Follows i w x (p.subst (impl i)) p
  | before (op : Op) (k : Except ε (Resp op) → Prog Op Resp ε α) (q : Prog Op' Resp' ε (Resp op)) :
      S.before i op q w x →
      Follows i w x (q.attempt.bind fun r => (k r).subst (impl i)) (.await op k)
  | after (op : Op) (k : Except ε (Resp op) → Prog Op Resp ε α) (r : Except ε (Resp op))
      (q : Prog Op' Resp' ε (Resp op)) :
      S.after i op r q w x → Follows i w x (q.attempt.bind fun r => (k r).subst (impl i)) (k r)

variable {S} {i : ι} {w : W'} {x : Past ι Op Resp ε W} {p' : Prog Op' Resp' ε α} {p : Prog Op Resp ε α}

theorem Follows.stable {v : W'} {y : Past ι Op Resp ε W} (hxy : S.others i w x v y)
    (h : S.Follows i w x p' p) : S.Follows i v y p' p := by
  cases h with
  | idle p h => exact .idle p (S.stable_idle hxy h)
  | before op k q h => exact .before op k q (S.stable_before hxy h)
  | after op k r q h => exact .after op k r q (S.stable_after hxy h)

/-- A task that is inside an implementation, with the rest `q` of it. -/
inductive Inside (S : Simulation I J impl) (i : ι) (w : W') (x : Past ι Op Resp ε W) :
    Prog Op' Resp' ε α → Prog Op Resp ε α → Prop
  | before (op : Op) (k : Except ε (Resp op) → Prog Op Resp ε α) (op' : Op')
      (m : Except ε (Resp' op') → Prog Op' Resp' ε (Resp op)) : S.before i op (.await op' m) w x →
      Inside S i w x (.await op' fun a => (m a).attempt.bind fun r => (k r).subst (impl i)) (.await op k)
  | after (op : Op) (k : Except ε (Resp op) → Prog Op Resp ε α) (r : Except ε (Resp op)) (op' : Op')
      (m : Except ε (Resp' op') → Prog Op' Resp' ε (Resp op)) : S.after i op r (.await op' m) w x →
      Inside S i w x (.await op' fun a => (m a).attempt.bind fun r => (k r).subst (impl i)) (k r)

theorem inside_of_before (hx : S.shared w x) {op : Op} {k : Except ε (Resp op) → Prog Op Resp ε α}
    {q : Prog Op' Resp' ε (Resp op)} (h : S.before i op q w x) :
    Inside S i w x (q.attempt.bind fun r => (k r).subst (impl i)) (.await op k) := by
  have hnext := S.advances hx h
  cases q with
  | await op' m => exact .before op k op' m h
  | ret a => exact hnext.elim
  | raise e => exact hnext.elim

/-- A finer task has ended as the task it follows, or it is inside an implementation. -/
theorem Follows.cases (hx : S.shared w x) (h : S.Follows i w x p' p) :
    (∃ r, p'.outcome = some r ∧ p.outcome = some r ∧ S.idle i w x) ∨ Inside S i w x p' p := by
  have hidle (p : Prog Op Resp ε α) (h : S.idle i w x) :
      (∃ r, (p.subst (impl i)).outcome = some r ∧ p.outcome = some r ∧ S.idle i w x) ∨
        Inside S i w x (p.subst (impl i)) p := by
    cases p with
    | ret a => exact .inl ⟨.ok a, rfl, rfl, h⟩
    | raise e => exact .inl ⟨.error e, rfl, rfl, h⟩
    | await op k => exact .inr (inside_of_before hx (S.begins op h))
  cases h with
  | idle p h => exact hidle p h
  | before op k q h => exact .inr (inside_of_before hx h)
  | after op k r q h =>
    rcases S.completes hx h with ⟨hended, hafter⟩ | hnext
    · cases q with
      | ret a =>
        cases hended
        exact hidle (k (.ok a)) hafter
      | raise e =>
        cases hended
        exact hidle (k (.error e)) hafter
      | await op' m => cases hended
    · cases q with
      | await op' m => exact .inr (.after op k r op' m h)
      | ret a => exact hnext.elim
      | raise e => exact hnext.elim

variable (S)

/-- The finer pool `s'` is where the pool `s` is. -/
structure Related (s' : Pool ι Op' Resp' ε α W') (s : Pool ι Op Resp ε α W) : Prop where
  shared : S.shared s'.world s.past
  follows : ∀ i, S.Follows i s'.world s.past (s'.task i) (s.task i)

variable {S} {s' v' : Pool ι Op' Resp' ε α W'} {s : Pool ι Op Resp ε α W}

/-- What has ended has ended in the same way. -/
theorem Related.outcome (h : S.Related s' s) {r : Except ε α} (hr : (s'.task i).outcome = some r) :
    (s.task i).outcome = some r := by
  rcases (h.follows i).cases h.shared with ⟨r', h', hs, _⟩ | hinside
  · rw [hr] at h'
    cases h'
    exact hs
  · generalize s'.task i = p' at hinside hr
    generalize s.task i = p at hinside ⊢
    cases hinside <;> cases hr

variable [DecidableEq ι]

/-- A step of the finer pool is a step of the pool it follows, or none. -/
theorem Related.step (h : S.Related s' s) {c' : Ch'} (hs : s'.step J i c' = some v') :
    S.Related v' s ∨ ∃ c v, s.step I i c = some v ∧ S.Related v' v := by
  obtain ⟨op', k', ht, hworld, htask, _⟩ := Pool.step_cases J hs
  have hothers {y : Past ι Op Resp ε W}
      (hy : ∀ j, j ≠ i → S.others j s'.world s.past v'.world y) (j : ι) (hj : j ≠ i) :
      S.Follows j v'.world y (v'.task j) (s.task j) := by
    rw [htask, Function.update_of_ne hj]
    exact (h.follows j).stable (hy j hj)
  rcases (h.follows i).cases h.shared with ⟨r, hr, _, _⟩ | hinside
  · rw [ht] at hr
    cases hr
  · have hself : v'.task i = k' (J.entry c' s'.world op').result := by rw [htask, Function.update_self]
    rw [ht] at hinside
    generalize hp : s.task i = p at hinside
    cases hinside with
    | before op k _ m hbefore =>
      rcases S.advances h.shared hbefore c' with ⟨hshared, hrest, hj⟩ | ⟨c, hshared, hrest, hj⟩
      · rw [← hworld] at hshared hrest hj
        refine .inl ⟨hshared, fun j => ?_⟩
        by_cases hij : j = i
        · subst hij
          rw [hself, hp]
          exact .before op k _ hrest
        · exact hothers hj j hij
      · rw [← hworld] at hshared hrest hj
        refine .inr ⟨c, ⟨I.settle s.world (I.entry c s.world op),
          Function.update s.task i (k (I.answer c s.world op).1), s.log ++ [(i, I.entry c s.world op)]⟩,
          by rw [Pool.step, hp], hshared, fun j => ?_⟩
        by_cases hij : j = i
        · subst hij
          rw [hself]
          simp only [Function.update_self]
          exact .after op k _ _ hrest
        · simp only [Function.update_of_ne hij]
          exact hothers hj j hij
    | after op k r _ m hafter =>
      rcases S.completes h.shared hafter with ⟨hended, _⟩ | hnext
      · cases hended
      · obtain ⟨hshared, hrest, hj⟩ := hnext c'
        rw [← hworld] at hshared hrest hj
        refine .inl ⟨hshared, fun j => ?_⟩
        by_cases hij : j = i
        · subst hij
          rw [hself, hp]
          exact .after op k r _ hrest
        · exact hothers hj j hij

/-- Every run of the finer pool follows a run of the pool it was made from. -/
theorem Related.reach {s₀' : Pool ι Op' Resp' ε α W'} {s₀ : Pool ι Op Resp ε α W}
    {cond : Pool ι Op' Resp' ε α W' → ι → Ch' → Prop} (h₀ : S.Related s₀' s₀)
    (h : Pool.Reach J cond s₀' s') :
    ∃ s, Pool.Reach I (fun _ _ _ => True) s₀ s ∧ S.Related s' s := by
  induction h with
  | start => exact ⟨s₀, .start, h₀⟩
  | step _ _ hs ih =>
    obtain ⟨s, hreach, hrelated⟩ := ih
    rcases hrelated.step hs with hsame | ⟨c, v, hv, hnew⟩
    · exact ⟨s, hreach, hsame⟩
    · exact ⟨v, hreach.step trivial hv, hnew⟩

end Simulation

end Coroutine
