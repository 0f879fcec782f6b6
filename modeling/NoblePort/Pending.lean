import Mathlib.Tactic.Choose
import NoblePort.Refine

/-!
# Calls that are answered after their effect

The program behind a call may take effect by one of its calls and be answered
only at a later one, which can still fail. Until then the call is pending: it
may end in any way that is left of its program, and there is a run to follow for
each of them.
-/
namespace Coroutine

variable {ι Op Op' : Type} {Resp : Op → Type} {Resp' : Op' → Type} {ε α W W' Ch Ch' : Type}

/-- The program may end as `r`, by what its calls are answered. -/
def Prog.MayEnd : Prog Op Resp ε α → Except ε α → Prop
  | .ret a, r => r = .ok a
  | .raise e, r => r = .error e
  | .await _ k, r => ∃ answer, (k answer).MayEnd r

theorem Prog.exists_mayEnd [Inhabited ε] (p : Prog Op Resp ε α) : ∃ r, p.MayEnd r := by
  induction p with
  | ret a => exact ⟨_, rfl⟩
  | raise e => exact ⟨_, rfl⟩
  | await op k ih =>
    obtain ⟨r, hr⟩ := ih (.error default)
    exact ⟨r, .error default, hr⟩

/-- What holds between the finer world and the past it follows: always, while the
call of task `i` has not happened yet and `q` is left of its implementation, and
once it has happened. A past may go on from there with calls of other tasks. -/
structure Foresight (I : Interp Op Resp ε W Ch) (J : Interp Op' Resp' ε W' Ch')
    (impl : ι → (op : Op) → Prog Op' Resp' ε (Resp op)) where
  shared : W' → Past ι Op Resp ε W → Prop
  before : ι → (op : Op) → Prog Op' Resp' ε (Resp op) → Prop
  pending : ι → (op : Op) → Prog Op' Resp' ε (Resp op) → Past ι Op Resp ε W → Prop
  stable : ∀ {i op q x} j c op', pending i op q x → pending i op q (I.extend x j c op')
  begins : ∀ i op, before i op (impl i op)
  advances : ∀ {i op q} w, before i op q → q.Next J w fun v rest =>
    (before i op rest ∧ ∀ x, shared w x → shared v x) ∨
    ∀ x, shared w x → ∀ r, rest.MayEnd r → ∃ c, (I.answer c x.world op).1 = r ∧
      shared v (I.extend x i c op) ∧ pending i op rest (I.extend x i c op)
  completes : ∀ {i op op' m w x}, shared w x → pending i op (.await op' m) x →
    (Prog.await op' m).Next J w fun v rest => shared v x ∧ pending i op rest x

namespace Foresight

variable {I : Interp Op Resp ε W Ch} {J : Interp Op' Resp' ε W' Ch'}
  {impl : ι → (op : Op) → Prog Op' Resp' ε (Resp op)} (S : Foresight I J impl)

/-- Where the task that is followed may stand, and what is known of its past. -/
inductive Follows (i : ι) :
    Prog Op' Resp' ε α → (Prog Op Resp ε α → Prop) → (Past ι Op Resp ε W → Prop) → Prop
  | idle (p : Prog Op Resp ε α) : Follows i (p.subst (impl i)) (· = p) fun _ => True
  | before (op : Op) (k : Except ε (Resp op) → Prog Op Resp ε α) (q : Prog Op' Resp' ε (Resp op)) :
      S.before i op q →
      Follows i (q.attempt.bind fun r => (k r).subst (impl i)) (· = .await op k) fun _ => True
  | pending (op : Op) (k : Except ε (Resp op) → Prog Op Resp ε α) (q : Prog Op' Resp' ε (Resp op)) :
      Follows i (q.attempt.bind fun r => (k r).subst (impl i)) (fun p => ∃ r, q.MayEnd r ∧ p = k r)
        (S.pending i op q)

/-- A task that is inside an implementation, with its next call. -/
inductive Inside (i : ι) (op' : Op') : (Except ε (Resp' op') → Prog Op' Resp' ε α) →
    (Prog Op Resp ε α → Prop) → (Past ι Op Resp ε W → Prop) → Prop
  | before (op : Op) (k : Except ε (Resp op) → Prog Op Resp ε α)
      (m : Except ε (Resp' op') → Prog Op' Resp' ε (Resp op)) (K : Past ι Op Resp ε W → Prop) :
      S.before i op (.await op' m) →
      Inside i op' (fun a => (m a).attempt.bind fun r => (k r).subst (impl i)) (· = .await op k) K
  | pending (op : Op) (k : Except ε (Resp op) → Prog Op Resp ε α)
      (m : Except ε (Resp' op') → Prog Op' Resp' ε (Resp op)) :
      Inside i op' (fun a => (m a).attempt.bind fun r => (k r).subst (impl i))
        (fun p => ∃ r, (Prog.await op' m).MayEnd r ∧ p = k r) (S.pending i op (.await op' m))

variable {S} {i : ι} {p' : Prog Op' Resp' ε α} {T : Prog Op Resp ε α → Prop}
  {K : Past ι Op Resp ε W → Prop}

theorem Follows.exists_mem [Inhabited ε] (h : S.Follows i p' T K) : ∃ p, T p := by
  cases h with
  | idle p => exact ⟨p, rfl⟩
  | before op k q _ => exact ⟨_, rfl⟩
  | pending op k q =>
    obtain ⟨r, hr⟩ := q.exists_mayEnd
    exact ⟨k r, r, hr, rfl⟩

theorem Follows.stable (h : S.Follows i p' T K) (j : ι) (c : Ch) (op : Op) {x : Past ι Op Resp ε W}
    (hx : K x) : K (I.extend x j c op) := by
  cases h with
  | idle p => trivial
  | before op k q _ => trivial
  | pending op' k q => exact S.stable j c op hx

/-- A call whose implementation has not begun, or has something left to do. -/
theorem before_awaits (w : W') {op : Op} {q : Prog Op' Resp' ε (Resp op)} (h : S.before i op q) :
    ∃ op' m, q = .await op' m := by
  have hnext := S.advances w h
  cases q with
  | await op' m => exact ⟨op', m, rfl⟩
  | ret a => exact hnext.elim
  | raise e => exact hnext.elim

theorem sole_end {op : Op} (k : Except ε (Resp op) → Prog Op Resp ε α) {q : Prog Op' Resp' ε (Resp op)}
    {r : Except ε (Resp op)} (h : q.outcome = some r) : (fun p => ∃ r, q.MayEnd r ∧ p = k r) = (· = k r) := by
  have hend (r' : Except ε (Resp op)) : q.MayEnd r' ↔ r' = r := by
    cases q with
    | await op' m => cases h
    | ret a => cases h; rfl
    | raise e => cases h; rfl
  funext p
  simp only [hend, exists_eq_left]

/-- A finer task that awaits a call is inside an implementation. -/
theorem Follows.inside (w : W') {op' : Op'} {k' : Except ε (Resp' op') → Prog Op' Resp' ε α}
    (h : S.Follows i (.await op' k') T K) : S.Inside i op' k' T K := by
  have hidle (p : Prog Op Resp ε α) (hp : p.subst (impl i) = .await op' k') :
      S.Inside i op' k' (· = p) K := by
    cases p with
    | ret a => cases hp
    | raise e => cases hp
    | await op k =>
      obtain ⟨op₁, m, hm⟩ := before_awaits w (S.begins i op)
      rw [Prog.subst, hm] at hp
      cases hp
      exact .before op k m K (hm ▸ S.begins i op)
  generalize hp : Prog.await op' k' = p' at h
  cases h with
  | idle p => exact hidle p hp.symm
  | before op k q hq =>
    obtain ⟨op₁, m, rfl⟩ := before_awaits w hq
    cases hp
    exact .before op k m _ hq
  | pending op k q =>
    cases q with
    | await op₁ m =>
      cases hp
      exact .pending op k m
    | ret a =>
      rw [sole_end k (r := .ok a) rfl]
      exact hidle _ hp.symm
    | raise e =>
      rw [sole_end k (r := .error e) rfl]
      exact hidle _ hp.symm

theorem Follows.outcome (w : W') (h : S.Follows i p' T K) {r : Except ε α} (hr : p'.outcome = some r)
    {p : Prog Op Resp ε α} (hp : T p) : p.outcome = some r := by
  have hidle (p : Prog Op Resp ε α) (hr : (p.subst (impl i)).outcome = some r) : p.outcome = some r := by
    cases p with
    | ret a => exact hr
    | raise e => exact hr
    | await op k =>
      obtain ⟨op', m, hm⟩ := before_awaits w (S.begins i op)
      rw [Prog.subst, hm] at hr
      cases hr
  cases h with
  | idle p₀ =>
    cases hp
    exact hidle p hr
  | before op k q hq =>
    obtain ⟨op', m, rfl⟩ := before_awaits w hq
    cases hr
  | pending op k q =>
    cases q with
    | await op' m => cases hr
    | ret a =>
      obtain ⟨_, rfl, rfl⟩ := hp
      exact hidle _ hr
    | raise e =>
      obtain ⟨_, rfl, rfl⟩ := hp
      exact hidle _ hr

variable (S) [DecidableEq ι]

/-- The finer pool `s'` is where a run from `s₀` is, for each way in which its
pending calls may end. -/
structure Related (s₀ : Pool ι Op Resp ε α W) (s' : Pool ι Op' Resp' ε α W')
    (T : ι → Prog Op Resp ε α → Prop) (K : ι → Past ι Op Resp ε W → Prop) : Prop where
  follows : ∀ i, S.Follows i (s'.task i) (T i) (K i)
  run : ∀ p : ι → Prog Op Resp ε α, (∀ i, T i (p i)) →
    ∃ s, Pool.Reach I (fun _ _ _ => True) s₀ s ∧ s.task = p ∧ S.shared s'.world s.past ∧ ∀ i, K i s.past

variable {S} {s₀ : Pool ι Op Resp ε α W} {s' v' : Pool ι Op' Resp' ε α W'}
  {T : ι → Prog Op Resp ε α → Prop} {K : ι → Past ι Op Resp ε W → Prop}

/-- What task `i` knows is replaced, and the others know what they knew. -/
theorem follows_update (h : S.Related s₀ s' T K) {q : Prog Op' Resp' ε α}
    (htask : v'.task = Function.update s'.task i q) {T' : Prog Op Resp ε α → Prop}
    {K' : Past ι Op Resp ε W → Prop} (hq : S.Follows i q T' K') (j : ι) :
    S.Follows j (v'.task j) (Function.update T i T' j) (Function.update K i K' j) := by
  rw [htask]
  by_cases hj : j = i
  · subst hj
    simpa only [Function.update_self] using hq
  · simpa only [Function.update_of_ne hj] using h.follows j

/-- Before a step of task `i` the tasks that are followed stand as after it, but for `i`. -/
theorem mem_before {T' : Prog Op Resp ε α → Prop} {p p₀ : ι → Prog Op Resp ε α}
    (hp : ∀ j, Function.update T i T' j (p j)) (hi : T i (p₀ i)) (hj : ∀ j, j ≠ i → p₀ j = p j) (j : ι) :
    T j (p₀ j) := by
  by_cases h : j = i
  · subst h
    exact hi
  · have hpj := hp j
    rwa [Function.update_of_ne h, ← hj j h] at hpj

theorem known_update {K' : Past ι Op Resp ε W → Prop} {x : Past ι Op Resp ε W} (hi : K' x)
    (hj : ∀ j, j ≠ i → K j x) (j : ι) : Function.update K i K' j x := by
  by_cases h : j = i
  · subst h
    simpa only [Function.update_self] using hi
  · simpa only [Function.update_of_ne h] using hj j h

/-- A step of the finer pool is a step of each run that is followed, or of none. -/
theorem Related.step (h : S.Related s₀ s' T K) {c' : Ch'} (hs : s'.step J i c' = some v') :
    ∃ T K, S.Related s₀ v' T K := by
  obtain ⟨op', k', ht, hworld, htask, _⟩ := Pool.step_cases J hs
  have hi := h.follows i
  rw [ht] at hi
  generalize hT : T i = Ti at hi
  generalize hK : K i = Ki at hi
  cases hi.inside s'.world with
  | before op k m _ hbefore =>
    rcases S.advances s'.world hbefore c' with ⟨hrest, hshared⟩ | hhappens
    · rw [← hworld] at hshared
      refine ⟨_, _, ⟨follows_update h htask (.before op k _ hrest), fun p hp => ?_⟩⟩
      have hself : p i = .await op k := by simpa only [Function.update_self] using hp i
      obtain ⟨s, hreach, hp', hx, hknown⟩ := h.run p (mem_before hp (hT ▸ hself) fun _ _ => rfl)
      exact ⟨s, hreach, hp', hshared _ hx, known_update trivial fun j _ => hknown j⟩
    · rw [← hworld] at hhappens
      refine ⟨_, _, ⟨follows_update h htask (.pending op k _), fun p hp => ?_⟩⟩
      obtain ⟨r, hr, hself⟩ : ∃ r, _ ∧ p i = k r := by simpa only [Function.update_self] using hp i
      obtain ⟨s, hreach, hp', hx, hknown⟩ := h.run (Function.update p i (.await op k))
        (mem_before hp (by rw [hT, Function.update_self]) fun j hj => Function.update_of_ne hj ..)
      obtain ⟨c, hanswer, hx', hrest⟩ := hhappens s.past hx r hr
      have hstep : s.step I i c = some ⟨I.settle s.world (I.entry c s.world op),
          Function.update s.task i (k (I.answer c s.world op).1), s.log ++ [(i, I.entry c s.world op)]⟩ := by
        rw [Pool.step, hp', Function.update_self]
      refine ⟨_, hreach.step trivial hstep, ?_, hx', known_update hrest fun j _ => ?_⟩
      · change Function.update s.task i (k (I.answer c s.past.world op).1) = p
        rw [hanswer, ← hself, hp', Function.update_idem, Function.update_eq_self]
      · exact (h.follows j).stable i c op (hknown j)
  | pending op k m =>
    refine ⟨_, _, ⟨follows_update h htask (.pending op k _), fun p hp => ?_⟩⟩
    obtain ⟨r, hr, hself⟩ : ∃ r, _ ∧ p i = k r := by simpa only [Function.update_self] using hp i
    obtain ⟨s, hreach, hp', hx, hknown⟩ := h.run p (mem_before hp (hT ▸ ⟨r, ⟨_, hr⟩, hself⟩) fun _ _ => rfl)
    obtain ⟨hx', hrest⟩ := S.completes hx (hK ▸ hknown i) c'
    rw [← hworld] at hx'
    exact ⟨s, hreach, hp', hx', known_update hrest fun j _ => hknown j⟩

/-- Every run of the finer pool follows a run of the pool it was made from, and
what has ended has ended in the same way. -/
theorem exists_run [Inhabited ε] {cond : Pool ι Op' Resp' ε α W' → ι → Ch' → Prop}
    {s₀' : Pool ι Op' Resp' ε α W'} (h₀ : S.Related s₀ s₀' T K) (h : Pool.Reach J cond s₀' s') :
    ∃ s, Pool.Reach I (fun _ _ _ => True) s₀ s ∧ S.shared s'.world s.past ∧
      ∀ i r, (s'.task i).outcome = some r → (s.task i).outcome = some r := by
  obtain ⟨T, K, hrelated⟩ : ∃ T K, S.Related s₀ s' T K := by
    induction h with
    | start => exact ⟨T, K, h₀⟩
    | step _ _ hs ih =>
      obtain ⟨T, K, hrelated⟩ := ih
      exact hrelated.step hs
  choose p hp using fun i => (hrelated.follows i).exists_mem
  obtain ⟨s, hreach, rfl, hx, _⟩ := hrelated.run p hp
  exact ⟨s, hreach, hx, fun i r hr => (hrelated.follows i).outcome s'.world hr (hp i)⟩

end Foresight

end Coroutine
