import NoblePort.Pool

/-!
# Erasing tasks from a run

Some tasks of a pool are kept and the others are erased. Where a view of the
world is neither changed by the erased tasks nor hides anything that the kept
ones depend on, the run without the erased steps gives the same view, and
brings the kept tasks to the same point.
-/
namespace Coroutine

variable {ι Op : Type} {Resp : Op → Type} {ε α W V Ch : Type}

/-- Every awaited call meets `P`; nothing is observed. -/
def Contract.only (P : Op → Prop) : Contract Op Resp ε Unit where
  observe _ _ := ()
  rely _ _ := True
  guarantee _ op := P op

theorem Contract.Keeps.only {P : Op → Prop} {S : Unit → Prop} {op : Op} (h : P op) :
    (Contract.only P : Contract Op Resp ε Unit).Keeps S (.call op) :=
  .call (fun _ _ => h) fun _ _ _ hs _ => hs

theorem Contract.only_mono {P P' : Op → Prop} (hP : ∀ op, P op → P' op) (p : Prog Op Resp ε α)
    (Q : Unit → Except ε α → Prop) (s : Unit) (h : (Contract.only P).wp p Q s) :
    (Contract.only P').wp p Q s := by
  induction p generalizing s with
  | ret a => exact h
  | raise e => exact h
  | await op k ih => exact ⟨hP op h.1, fun r landed hr => ih r _ (h.2 r landed hr)⟩

theorem Contract.Keeps.only_mono {P P' : Op → Prop} {S : Unit → Prop} {p : Prog Op Resp ε α}
    (h : (Contract.only P).Keeps S p) (hP : ∀ op, P op → P' op) : (Contract.only P').Keeps S p :=
  ⟨fun s hs => Contract.only_mono hP p _ s (h.wp s hs)⟩

/-- `view` is what the kept tasks depend on, where task `i` awaits `own i` only. -/
structure Separates (I : Interp Op Resp ε W Ch) (keep : ι → Bool) (own : ι → Op → Prop)
    (view : W → V) : Prop where
  hidden : ∀ i c w op, keep i = false → own i op →
    view (I.settle w (I.entry c w op)) = view w
  answer : ∀ i c w w' op, keep i = true → own i op → view w = view w' →
    I.answer c w op = I.answer c w' op
  effect : ∀ i c w w' op, keep i = true → own i op → view w = view w' →
    view (I.settle w (I.entry c w op)) = view (I.settle w' (I.entry c w' op))

namespace Pool

variable [DecidableEq ι] {I : Interp Op Resp ε W Ch} {keep : ι → Bool} {own : ι → Op → Prop}
  {view : W → V}

variable (I) in
/-- The state after the picked steps, one after another. -/
def follow (s : Pool ι Op Resp ε α W) : List (ι × Ch) → Option (Pool ι Op Resp ε α W)
  | [] => some s
  | (i, c) :: picks => (s.step I i c).bind fun s' => s'.follow picks

/-- The world looks the same and the kept tasks stand at the same point. -/
structure Alike (keep : ι → Bool) (view : W → V) (s s' : Pool ι Op Resp ε α W) : Prop where
  view : view s.world = view s'.world
  task : ∀ i, keep i = true → s.task i = s'.task i

/-- Every task awaits its own calls only, from here on. -/
def Owned (own : ι → Op → Prop) (s : Pool ι Op Resp ε α W) : Prop :=
  ∀ i, (Contract.only (own i)).wp (s.task i) (fun _ _ => True) ()

theorem Owned.step {s s' : Pool ι Op Resp ε α W} (h : Owned own s) {i : ι} {c : Ch}
    (hs : s.step I i c = some s') : Owned own s' := by
  obtain ⟨op, k, ht, _, htask, _⟩ := step_cases I hs
  intro j
  rw [htask]
  by_cases hij : j = i
  · subst hij
    have hwp := h j
    rw [ht] at hwp
    rw [Function.update_self]
    exact hwp.2 _ true trivial
  · rw [Function.update_of_ne hij]
    exact h j

/-- A step of an erased task changes nothing of what is kept. -/
theorem Alike.hidden (hsep : Separates I keep own view) {s s' t : Pool ι Op Resp ε α W}
    (hown : Owned own s) (h : Alike keep view s t) {i : ι} {c : Ch} (hi : keep i = false)
    (hs : s.step I i c = some s') : Alike keep view s' t := by
  obtain ⟨op, k, ht, hworld, htask, _⟩ := step_cases I hs
  have hwp := hown i
  rw [ht] at hwp
  constructor
  · rw [hworld, hsep.hidden i c s.world op hi hwp.1, h.view]
  · intro j hj
    have hij : j ≠ i := by
      rintro rfl
      rw [hi] at hj
      cases hj
    rw [htask, Function.update_of_ne hij]
    exact h.task j hj

/-- A kept task takes the same step in both. -/
theorem Alike.step (hsep : Separates I keep own view) {s s' t : Pool ι Op Resp ε α W}
    (hown : Owned own s) (h : Alike keep view s t) {i : ι} {c : Ch} (hi : keep i = true)
    (hs : s.step I i c = some s') : ∃ t', t.step I i c = some t' ∧ Alike keep view s' t' := by
  obtain ⟨op, k, ht, hworld, htask, _⟩ := step_cases I hs
  have hwp := hown i
  rw [ht] at hwp
  have ht' : t.task i = .await op k := by rw [← h.task i hi, ht]
  obtain ⟨t', hs'⟩ : ∃ t', t.step I i c = some t' := by simp [Pool.step, ht']
  obtain ⟨op', k', hop, hworld', htask', _⟩ := step_cases I hs'
  rw [ht'] at hop
  cases hop
  have hanswer : I.answer c s.world op = I.answer c t.world op :=
    hsep.answer i c _ _ op hi hwp.1 h.view
  refine ⟨t', hs', ?_, ?_⟩
  · rw [hworld, hworld']
    exact hsep.effect i c _ _ op hi hwp.1 h.view
  · intro j hj
    rw [htask, htask']
    by_cases hij : j = i
    · subst hij
      simp only [Function.update_self, Interp.entry, hanswer]
    · rw [Function.update_of_ne hij, Function.update_of_ne hij]
      exact h.task j hj

/-- The picks of the kept tasks alone lead to a state that looks the same. -/
theorem Alike.follow (hsep : Separates I keep own view) {s s' t : Pool ι Op Resp ε α W}
    (hown : Owned own s) (h : Alike keep view s t) (picks : List (ι × Ch))
    (hs : s.follow I picks = some s') :
    ∃ t', t.follow I (picks.filter fun p => keep p.1) = some t' ∧ Alike keep view s' t' := by
  induction picks generalizing s t with
  | nil =>
    cases hs
    exact ⟨t, rfl, h⟩
  | cons p picks ih =>
    obtain ⟨i, c⟩ := p
    obtain ⟨m, hm, hrest⟩ := Option.bind_eq_some_iff.mp hs
    cases hi : keep i with
    | false =>
      rw [List.filter_cons_of_neg (by simp [hi])]
      exact ih (hown.step hm) (h.hidden hsep hown hi hm) hrest
    | true =>
      obtain ⟨u, hu, hsame⟩ := h.step hsep hown hi hm
      obtain ⟨t', ht', h'⟩ := ih (hown.step hm) hsame hrest
      refine ⟨t', ?_, h'⟩
      rw [List.filter_cons_of_pos (by simp [hi]), Pool.follow, hu]
      exact ht'

end Pool

end Coroutine
