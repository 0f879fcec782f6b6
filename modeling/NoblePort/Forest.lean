import Mathlib.Data.List.Nodup
import Mathlib.Data.List.Induction

/-!
# Append-only forests

Nodes with identities, each with at most one parent, listed in the order they
were added. A node names a parent that is there already, so following the
parents comes to a root, and nodes added later do not change the way.
-/
namespace Forest

variable {α κ : Type} [DecidableEq κ] (ident : α → κ) (parent : α → Option κ)

/-- Follow the parents from `k`, through nodes listed newest first. -/
def climb : List α → Option κ → List α
  | a :: older, some k => if ident a = k then a :: climb older (parent a) else climb older (some k)
  | _, _ => []

/-- The way from a root to `k`, through nodes listed oldest first. -/
def ancestry (nodes : List α) (k : κ) : List α := (climb ident parent nodes.reverse (some k)).reverse

/-- Each node names the one before it as its parent, the first one `p`. -/
def Path : Option κ → List α → Prop
  | _, [] => True
  | p, a :: rest => parent a = p ∧ Path (some (ident a)) rest

/-- Added one after another, with new identities and parents that are there. -/
inductive Grown : List α → Prop
  | nil : Grown []
  | snoc {nodes : List α} {a : α} : Grown nodes → (∀ k ∈ parent a, k ∈ nodes.map ident) →
    ident a ∉ nodes.map ident → Grown (nodes ++ [a])

variable {ident parent}

omit [DecidableEq κ] in
theorem path_append {p : Option κ} {nodes : List α} {a : α} : Path ident parent p (nodes ++ [a]) ↔
    Path ident parent p nodes ∧ parent a = (nodes.getLast?.map ident).or p := by
  induction nodes generalizing p with
  | nil => simp [Path]
  | cons b nodes ih =>
    rw [List.cons_append, Path, Path, ih, List.getLast?_cons, and_assoc]
    cases nodes.getLast? <;> simp

@[simp] theorem climb_none (nodes : List α) : climb ident parent nodes none = [] := by
  cases nodes <;> rfl

theorem climb_sublist (nodes : List α) (k : Option κ) : (climb ident parent nodes k).Sublist nodes := by
  induction nodes generalizing k with
  | nil => exact List.Sublist.refl _
  | cons a older ih =>
    cases k with
    | none => exact List.nil_sublist _
    | some k =>
      rw [climb]
      split
      · exact (ih _).cons_cons a
      · exact (ih _).cons a

/-- Nodes with other identities are passed over. -/
theorem climb_skip {newer older : List α} {k : κ} (h : ∀ a ∈ newer, ident a ≠ k) :
    climb ident parent (newer ++ older) (some k) = climb ident parent older (some k) := by
  induction newer with
  | nil => rfl
  | cons a newer ih =>
    rw [List.cons_append, climb, if_neg (h a (List.mem_cons_self ..))]
    exact ih fun b hb => h b (List.mem_cons_of_mem _ hb)

theorem ancestry_sublist (nodes : List α) (k : κ) : (ancestry ident parent nodes k).Sublist nodes := by
  have h : (climb ident parent nodes.reverse (some k)).Sublist nodes.reverse := climb_sublist _ _
  have hreverse := h.reverse
  rwa [List.reverse_reverse] at hreverse

/-- What is added later under other identities does not change the way. -/
theorem ancestry_append {nodes more : List α} {k : κ} (h : ∀ a ∈ more, ident a ≠ k) :
    ancestry ident parent (nodes ++ more) k = ancestry ident parent nodes k := by
  rw [ancestry, List.reverse_append, climb_skip fun a ha => h a (List.mem_reverse.mp ha)]
  rfl

theorem ancestry_last {nodes : List α} {a : α} : ancestry ident parent (nodes ++ [a]) (ident a) =
    (climb ident parent nodes.reverse (parent a)).reverse ++ [a] := by
  rw [ancestry, List.reverse_append, List.reverse_singleton, List.singleton_append, climb, if_pos rfl,
    List.reverse_cons]

namespace Grown

omit [DecidableEq κ] in
theorem nodup {nodes : List α} (h : Grown ident parent nodes) : (nodes.map ident).Nodup := by
  induction h with
  | nil => exact List.nodup_nil
  | @snoc nodes a _ _ hnew ih =>
    rw [List.map_append, List.map_singleton, List.nodup_append]
    refine ⟨ih, List.nodup_singleton _, ?_⟩
    rintro k hk _ hmem rfl
    rw [List.mem_singleton.mp hmem] at hk
    exact hnew hk

/-- From a node the way back ends at a root. -/
theorem path {nodes : List α} (h : Grown ident parent nodes) {a : α} (ha : a ∈ nodes) :
    Path ident parent none (ancestry ident parent nodes (ident a)) ∧
      (ancestry ident parent nodes (ident a)).getLast? = some a := by
  induction h generalizing a with
  | nil => cases ha
  | @snoc nodes b hgrown hparent hnew ih =>
    rcases List.mem_append.mp ha with ha | ha
    · have hother : ∀ c ∈ [b], ident c ≠ ident a := by
        intro c hc heq
        rw [List.mem_singleton.mp hc] at heq
        exact hnew (heq ▸ List.mem_map_of_mem ha)
      rw [ancestry_append hother]
      exact ih ha
    · obtain rfl := List.mem_singleton.mp ha
      rw [ancestry_last, path_append, List.getLast?_concat]
      refine ⟨?_, rfl⟩
      cases hp : parent a with
      | none => simp [Path]
      | some k =>
        obtain ⟨c, hc, rfl⟩ := List.mem_map.mp (hparent k hp)
        obtain ⟨hpath, hlast⟩ := ih hc
        change Path ident parent none (ancestry ident parent nodes (ident c)) ∧
          _ = ((ancestry ident parent nodes (ident c)).getLast?.map ident).or none
        rw [hlast]
        exact ⟨hpath, rfl⟩

/-- The way to a node stays the same as the forest grows. -/
theorem stable {nodes more : List α} (h : Grown ident parent (nodes ++ more)) {a : α} (ha : a ∈ nodes) :
    ancestry ident parent (nodes ++ more) (ident a) = ancestry ident parent nodes (ident a) := by
  have hnodup := h.nodup
  rw [List.map_append, List.nodup_append] at hnodup
  exact ancestry_append fun b hb heq =>
    hnodup.2.2 _ (List.mem_map_of_mem ha) _ (List.mem_map_of_mem hb) heq.symm

end Grown

end Forest
