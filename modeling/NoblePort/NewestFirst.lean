import Mathlib.Data.List.Sort

/-!
# The newest rows first

Rows appended under keys that never decrease, listed by descending key and cut
off after some of them. Rows with equal keys come in the order in which they
are visited, so the list is the reversed tail of the rows, whatever that order
is, just when no listed row shares its key with an earlier one.
-/
namespace NewestFirst

variable {α κ : Type} [LinearOrder κ] (key : α → κ)

/-- ORDER BY key DESC, in the order of the visit where keys are equal. -/
def descending (visited : List α) : List α := visited.insertionSort fun a b => key b ≤ key a

/-- Each of the newest `n` rows has another key than the rows before it. -/
def Told (n : Nat) (rows : List α) : Prop :=
  ∀ x y, [x, y].Sublist rows → y ∈ rows.reverse.take n → key x ≠ key y

variable {key}

omit [LinearOrder κ] in
/-- Different keys tell all rows apart. -/
theorem told_of_pairwise {rows : List α} (h : rows.Pairwise fun a b => key a ≠ key b) (n : Nat) :
    Told key n rows := fun x y hpair _ => by simpa using h.sublist hpair

theorem descending_perm (visited : List α) : (descending key visited).Perm visited :=
  List.perm_insertionSort _ _

theorem descending_sorted (visited : List α) :
    (descending key visited).Pairwise fun a b => key b ≤ key a :=
  @List.pairwise_insertionSort _ (fun a b : α => key b ≤ key a) _ ⟨fun a b => le_total (key b) (key a)⟩
    ⟨fun _ _ _ hab hbc => le_trans hbc hab⟩ visited

/-- Where the keys at the front are strictly above those behind, sorting leaves
no choice. -/
theorem take_eq {n : Nat} {sorted newest : List α} (hperm : sorted.Perm newest)
    (hsorted : sorted.Pairwise fun a b => key b ≤ key a)
    (hstrict : ∀ x y, [y, x].Sublist newest → y ∈ newest.take n → key x < key y) :
    sorted.take n = newest.take n := by
  induction n generalizing sorted newest with
  | zero => rfl
  | succ n ih =>
    cases newest with
    | nil => rw [hperm.eq_nil]
    | cons y newest =>
      have hfirst : ∀ x ∈ newest, key x < key y := fun x hx =>
        hstrict x y (List.cons_sublist_cons.mpr (List.singleton_sublist.mpr hx)) (by simp)
      cases sorted with
      | nil => exact absurd hperm.symm.eq_nil (by simp)
      | cons z sorted =>
        have hz : z = y := by
          rcases List.mem_cons.mp (hperm.mem_iff.mp (List.mem_cons_self ..)) with hz | hz
          · exact hz
          · have hy : y ∈ z :: sorted := hperm.mem_iff.mpr (List.mem_cons_self ..)
            rcases List.mem_cons.mp hy with hy | hy
            · exact hy.symm
            · exact absurd (List.rel_of_pairwise_cons hsorted hy) (not_le.mpr (hfirst z hz))
        subst hz
        rw [List.take_succ_cons, List.take_succ_cons]
        refine congrArg _ (ih hperm.cons_inv hsorted.of_cons fun x y hsub hy => ?_)
        exact hstrict x y (hsub.cons _) (by simp [hy])

/-- In a list without repetition an element stands on one side of another. -/
theorem mem_of_pair_sublist {x y : α} {front back : List α} (hnodup : (front ++ y :: back).Nodup)
    (h : [x, y].Sublist (front ++ y :: back)) (hxy : x ≠ y) : x ∈ front := by
  have hback : y ∉ back := (List.nodup_cons.mp (List.nodup_append.mp hnodup).2.1).1
  obtain ⟨as, bs, hsplit, has, hbs⟩ := List.sublist_append_iff.mp h
  match as, hsplit with
  | [], hsplit =>
    rw [List.nil_append] at hsplit
    subst hsplit
    rcases List.sublist_cons_iff.mp hbs with hrest | ⟨cs, hcs, hrest⟩
    · exact absurd (hrest.subset (by simp)) hback
    · exact absurd (List.cons.inj hcs).1 hxy
  | a :: as, hsplit =>
    obtain ⟨rfl, _⟩ := List.cons.inj hsplit
    exact has.subset (List.mem_cons_self ..)

/-- Where each of the newest rows has another key than the rows before it, they
come first whatever the order of the visit. -/
theorem take_of_told {rows visited : List α} {n : Nat}
    (hsorted : rows.Pairwise fun a b => key a ≤ key b) (h : Told key n rows)
    (hvisited : visited.Perm rows) : (descending key visited).take n = rows.reverse.take n := by
  refine take_eq ((descending_perm visited).trans (hvisited.trans (List.reverse_perm rows).symm))
    (descending_sorted visited) fun x y hpair hy => ?_
  have hrows : [x, y].Sublist rows := by
    have hreverse := hpair.reverse
    simpa using hreverse
  have hle : key x ≤ key y := by
    have hpairwise := hsorted.sublist hrows
    simpa using hpairwise
  exact lt_of_le_of_ne hle (h x y hrows hy)

/-- A visit in the order of insertion lists the older of two equal keys first. -/
theorem told_of_take {rows : List α} {n : Nat} (hnodup : rows.Nodup)
    (htake : (descending key rows).take n = rows.reverse.take n) : Told key n rows := by
  intro x y hpair hy heq
  have hxy : x ≠ y := by
    have hnodup' := hnodup.sublist hpair
    simpa using hnodup'
  obtain ⟨front, back, hsplit⟩ := List.append_of_mem hy
  have hreverse : rows.reverse = front ++ y :: (back ++ rows.reverse.drop n) := by
    rw [← List.cons_append, ← List.append_assoc, ← hsplit, List.take_append_drop]
  have hlisted : descending key rows = front ++ y :: (back ++ (descending key rows).drop n) := by
    rw [← List.cons_append, ← List.append_assoc, ← hsplit, ← htake, List.take_append_drop]
  -- sorting keeps the two in order, so the older one is listed in front
  have hfront : x ∈ front := by
    have hstable : [x, y].Sublist (descending key rows) :=
      List.pair_sublist_insertionSort (by rw [heq]) hpair
    rw [hlisted] at hstable
    refine mem_of_pair_sublist ?_ hstable hxy
    rw [← hlisted]
    exact (descending_perm rows).nodup_iff.mpr hnodup
  have hrows : rows = (back ++ rows.reverse.drop n).reverse ++ y :: front.reverse := by
    have hboth := congrArg List.reverse hreverse
    simpa using hboth
  have hbehind : x ∈ back ++ rows.reverse.drop n := by
    rw [hrows] at hpair hnodup
    exact List.mem_reverse.mp (mem_of_pair_sublist hnodup hpair hxy)
  have hnodup' := List.nodup_reverse.mpr hnodup
  rw [hreverse, List.nodup_append] at hnodup'
  exact hnodup'.2.2 x hfront x (List.mem_cons_of_mem _ hbehind) rfl

end NewestFirst
