import Mathlib.Algebra.BigOperators.Group.List.Lemmas
import Mathlib.Data.List.Induction
import Mathlib.Data.List.Nodup

/-!
# Grouping by a key

A dict that a loop fills: at each item the value under its key is replaced, or
put at the end for a key not there yet. The groups come in the order in which
their keys first occur, each with the fold of its own items.
-/
namespace Grouping

variable {κ β γ : Type} [DecidableEq κ]

/-- `d[k] = f(d.get(k))`. -/
def alter (f : Option γ → γ) (k : κ) : List (κ × γ) → List (κ × γ)
  | [] => [(k, f none)]
  | (k', c) :: d => if k' = k then (k', f (some c)) :: d else (k', c) :: alter f k d

/-- Fold the values under each key, from `init`. -/
def tally (step : γ → β → γ) (init : γ) (items : List (κ × β)) : List (κ × γ) :=
  items.foldl (fun d item => alter (fun c => step (c.getD init) item.2) item.1 d) []

/-- The values under a key, in order. -/
def valuesAt (k : κ) (items : List (κ × β)) : List β := (items.filter fun item => item.1 = k).map Prod.snd

/-- The keys in the order in which they first occur. -/
def firsts (ks : List κ) : List κ := ks.foldl (fun seen k => if k ∈ seen then seen else seen ++ [k]) []

@[simp] theorem firsts_nil : firsts ([] : List κ) = [] := rfl

@[simp] theorem firsts_concat (ks : List κ) (k : κ) :
    firsts (ks ++ [k]) = if k ∈ firsts ks then firsts ks else firsts ks ++ [k] := by
  rw [firsts, List.foldl_append]
  rfl

@[simp] theorem mem_firsts {ks : List κ} {k : κ} : k ∈ firsts ks ↔ k ∈ ks := by
  induction ks using List.reverseRecOn with
  | nil => simp
  | append_singleton ks k' ih =>
    rw [firsts_concat]
    split
    · rename_i h
      rw [List.mem_append, List.mem_singleton, ← ih]
      exact ⟨.inl, fun hk => hk.elim id fun heq => heq ▸ h⟩
    · simp [ih]

theorem nodup_firsts (ks : List κ) : (firsts ks).Nodup := by
  induction ks using List.reverseRecOn with
  | nil => simp
  | append_singleton ks k ih =>
    rw [firsts_concat]
    split
    · exact ih
    · rename_i h
      exact ih.append (List.nodup_singleton k) (by simpa using h)

/-- Keys in order stay in order. -/
theorem firsts_sublist (ks : List κ) : (firsts ks).Sublist ks := by
  induction ks using List.reverseRecOn with
  | nil => simp
  | append_singleton ks k ih =>
    rw [firsts_concat]
    split
    · exact ih.trans (List.sublist_append_left ks [k])
    · exact ih.append (List.Sublist.refl _)

theorem firsts_eq_self {ks : List κ} (hks : ks.Nodup) : firsts ks = ks := by
  induction ks using List.reverseRecOn with
  | nil => rfl
  | append_singleton ks k ih =>
    obtain ⟨hks, -, hdisjoint⟩ := List.nodup_append.mp hks
    have hnew : k ∉ firsts ks := fun hk => hdisjoint k (mem_firsts.mp hk) k (by simp) rfl
    rw [firsts_concat, if_neg hnew, ih hks]

/-- Items that were put together by their key are found under it again. -/
theorem filter_flatMap (key : β → κ) (g : κ → List β) {ks : List κ} (hks : ks.Nodup)
    (hkey : ∀ k ∈ ks, ∀ x ∈ g k, key x = k) (k : κ) :
    (ks.flatMap g).filter (fun x => key x = k) = if k ∈ ks then g k else [] := by
  induction ks with
  | nil => rfl
  | cons k' ks ih =>
    obtain ⟨hk', hks⟩ := List.nodup_cons.mp hks
    have hfirst : (g k').filter (fun x => key x = k) = if k' = k then g k' else [] := by
      by_cases h : k' = k
      · rw [if_pos h, List.filter_eq_self]
        intro x hx
        simpa [h] using hkey k' (List.mem_cons_self ..) x hx
      · rw [if_neg h, List.filter_eq_nil_iff]
        intro x hx
        simpa [hkey k' (List.mem_cons_self ..) x hx] using h
    rw [List.flatMap_cons, List.filter_append, hfirst, ih hks fun k hk => hkey k (List.mem_cons_of_mem _ hk)]
    by_cases h : k' = k
    · subst h
      simp [hk']
    · simp [h, Ne.symm h]

theorem valuesAt_concat (k : κ) (items : List (κ × β)) (item : κ × β) :
    valuesAt k (items ++ [item]) = valuesAt k items ++ if item.1 = k then [item.2] else [] := by
  by_cases h : item.1 = k <;> simp [valuesAt, h]

/-- Replacing the value under one key of a dict without repeated keys. -/
theorem alter_map (f : Option γ → γ) (k : κ) (g : κ → γ) {ks : List κ} (hks : ks.Nodup) :
    alter f k (ks.map fun k' => (k', g k')) =
      if k ∈ ks then ks.map fun k' => (k', if k' = k then f (some (g k)) else g k')
      else ks.map (fun k' => (k', g k')) ++ [(k, f none)] := by
  induction ks with
  | nil => rfl
  | cons k' ks ih =>
    obtain ⟨hk', hks⟩ := List.nodup_cons.mp hks
    by_cases h : k' = k
    · subst h
      have hrest : ∀ k ∈ ks, ¬ k = k' := fun k hk heq => hk' (heq ▸ hk)
      simp only [List.map_cons, alter, if_true, List.mem_cons, true_or]
      congr 1
      exact List.map_congr_left fun k hk => by rw [if_neg (hrest k hk)]
    · have hne : ¬ k = k' := fun heq => h heq.symm
      simp only [List.map_cons, alter, h, if_false, ih hks, List.mem_cons, hne, false_or]
      split <;> rfl

/-- The groups of a loop: one for each key that occurs, with the fold of its values. -/
theorem tally_eq (step : γ → β → γ) (init : γ) (items : List (κ × β)) :
    tally step init items =
      (firsts (items.map Prod.fst)).map fun k => (k, (valuesAt k items).foldl step init) := by
  induction items using List.reverseRecOn with
  | nil => rfl
  | append_singleton items item ih =>
    obtain ⟨k, b⟩ := item
    have hstep : tally step init (items ++ [(k, b)]) =
        alter (fun c => step (c.getD init) b) k (tally step init items) := by
      simp [tally]
    rw [hstep, ih, alter_map _ _ _ (nodup_firsts _), List.map_append, List.map_singleton, firsts_concat]
    split
    · refine List.map_congr_left fun k' _ => ?_
      rw [valuesAt_concat]
      by_cases h : k' = k
      · simp [h]
      · simp [h, Ne.symm h]
    · rename_i hnew
      have hnone : valuesAt k items = [] := by
        simp only [mem_firsts, List.mem_map, not_exists, not_and] at hnew
        simpa [valuesAt] using fun k' b' hmem heq => hnew (k', b') hmem heq
      rw [List.map_append, List.map_singleton]
      congr 1
      · refine List.map_congr_left fun k' hk' => ?_
        have hne : ¬ k = k' := fun heq => hnew (heq ▸ hk')
        simp [valuesAt_concat, hne]
      · simp [valuesAt_concat, hnone]

theorem lookup_map (f : κ → γ) (ks : List κ) (k : κ) :
    (ks.map fun k => (k, f k)).lookup k = if k ∈ ks then some (f k) else none := by
  induction ks with
  | nil => rfl
  | cons first ks ih =>
    by_cases h : k = first
    · simp [h]
    · simp [List.lookup_cons, ih, h, beq_false_of_ne h]

/-- What is summed over all items is the sum over the groups. -/
theorem sum_valuesAt {M : Type} [AddCommMonoid M] (f : β → M) {ks : List κ} (hks : ks.Nodup)
    (items : List (κ × β)) (hcover : ∀ item ∈ items, item.1 ∈ ks) :
    (ks.map fun k => ((valuesAt k items).map f).sum).sum = (items.map fun item => f item.2).sum := by
  induction items using List.reverseRecOn with
  | nil => simp [valuesAt]
  | append_singleton items item ih =>
    have hitem : item.1 ∈ ks := hcover item (by simp)
    have hone : (ks.map fun k => if item.1 = k then f item.2 else 0).sum = f item.2 := by
      rw [List.sum_map_eq_nsmul_single item.1 _ fun k hk _ => by simp [hk.symm],
        List.count_eq_one_of_mem hks hitem, if_pos rfl]
      exact one_nsmul _
    have hsplit : (fun k => ((valuesAt k (items ++ [item])).map f).sum) =
        fun k => ((valuesAt k items).map f).sum + if item.1 = k then f item.2 else 0 := by
      funext k
      rw [valuesAt_concat]
      by_cases h : item.1 = k <;> simp [h]
    rw [hsplit, List.sum_map_add, ih fun x hx => hcover x (List.mem_append_left _ hx), hone]
    simp

/-- The items class by class, if each has one of the classes. -/
theorem flatMap_filter_perm (key : β → κ) {ks : List κ} (hks : ks.Nodup) {items : List β}
    (hcover : ∀ x ∈ items, key x ∈ ks) : (ks.flatMap fun k => items.filter fun x => key x = k).Perm items := by
  induction ks generalizing items with
  | nil =>
    cases items with
    | nil => rfl
    | cons x items => simpa using hcover x (List.mem_cons_self ..)
  | cons k ks ih =>
    obtain ⟨hk, hks⟩ := List.nodup_cons.mp hks
    have hrest : ∀ x ∈ items.filter (fun x => !decide (key x = k)), key x ∈ ks := by
      intro x hx
      simp only [List.mem_filter, Bool.not_eq_true', decide_eq_false_iff_not] at hx
      exact (List.mem_cons.mp (hcover x hx.1)).resolve_left hx.2
    have hsame : (ks.flatMap fun k' => items.filter fun x => key x = k') =
        ks.flatMap fun k' => (items.filter fun x => !decide (key x = k)).filter fun x => key x = k' := by
      refine List.flatMap_congr fun k' hk' => ?_
      have hne : ¬ k' = k := fun heq => hk (heq ▸ hk')
      rw [List.filter_filter]
      refine List.filter_congr fun x _ => ?_
      by_cases h : key x = k'
      · simp [h, hne]
      · simp [h]
    rw [List.flatMap_cons, hsame]
    exact ((ih hks hrest).append_left _).trans (List.filter_append_perm _ items)

/-- A traversal that succeeds at every item. -/
theorem mapM_pure_of {m : Type → Type} [Monad m] [LawfulMonad m] {f : β → m γ} {g : β → γ} {xs : List β}
    (h : ∀ x ∈ xs, f x = pure (g x)) : xs.mapM f = pure (xs.map g) := by
  induction xs with
  | nil => simp
  | cons x xs ih =>
    rw [List.mapM_cons, h x (List.mem_cons_self ..), ih fun y hy => h y (List.mem_cons_of_mem _ hy)]
    simp

end Grouping
