import Mathlib.Data.List.Perm.Basic
import Mathlib.Tactic

/-!
Insertion sort by scanning an array from its end.

Each new element is compared with the elements already in the array, last
one first; those that are not smaller move up one place, and the scan
stops at the first smaller one. The array is kept here as the list of its
elements read from the end, so that the scan is structural recursion.

When no two keys are equal the result is the only increasing arrangement
of the elements, so it does not depend on the order they arrived in.
-/

namespace InsertionSort

variable {α : Type*} (key : α → ℕ)

/-- Insert into an array read from its end. -/
def insertBack (x : α) : List α → List α
  | [] => [x]
  | y :: ys => if key x > key y then x :: y :: ys else y :: insertBack x ys

/-- Insert the elements one by one, and read the array from its start. -/
def sort (xs : List α) : List α :=
  (xs.foldl (fun acc x => insertBack key x acc) []).reverse

theorem insertBack_perm (x : α) (ys : List α) : (insertBack key x ys).Perm (x :: ys) := by
  induction ys with
  | nil => exact List.Perm.refl _
  | cons y ys ih =>
      rw [insertBack]
      split
      · exact List.Perm.refl _
      · exact (ih.cons y).trans (List.Perm.swap x y ys)

theorem foldl_insertBack_perm (xs acc : List α) :
    (xs.foldl (fun acc x => insertBack key x acc) acc).Perm (xs ++ acc) := by
  induction xs generalizing acc with
  | nil => exact List.Perm.refl _
  | cons x xs ih =>
      have hinsert : (xs ++ insertBack key x acc).Perm (xs ++ x :: acc) :=
        (insertBack_perm key x acc).append_left xs
      exact (ih _).trans (hinsert.trans List.perm_middle)

theorem sort_perm (xs : List α) : (sort key xs).Perm xs := by
  have hfold := foldl_insertBack_perm key xs []
  rw [List.append_nil] at hfold
  exact (List.reverse_perm _).trans hfold

@[simp] theorem mem_sort {xs : List α} {x : α} : x ∈ sort key xs ↔ x ∈ xs :=
  (sort_perm key xs).mem_iff

/-- Read from its end the array is decreasing, and stays so. -/
theorem insertBack_pairwise {x : α} {ys : List α}
    (h : ys.Pairwise (fun a b => key b ≤ key a)) :
    (insertBack key x ys).Pairwise (fun a b => key b ≤ key a) := by
  induction ys with
  | nil => simp [insertBack]
  | cons y ys ih =>
      rw [List.pairwise_cons] at h
      rw [insertBack]
      split
      · rename_i hlt
        refine List.pairwise_cons.mpr ⟨fun z hz => ?_, List.pairwise_cons.mpr h⟩
        rcases List.mem_cons.mp hz with rfl | hz
        · exact hlt.le
        · exact (h.1 z hz).trans hlt.le
      · rename_i hge
        refine List.pairwise_cons.mpr ⟨fun z hz => ?_, ih h.2⟩
        rcases List.mem_cons.mp ((insertBack_perm key x ys).mem_iff.mp hz) with rfl | hz
        · exact not_lt.mp hge
        · exact h.1 z hz

theorem foldl_insertBack_pairwise {xs acc : List α}
    (h : acc.Pairwise (fun a b => key b ≤ key a)) :
    (xs.foldl (fun acc x => insertBack key x acc) acc).Pairwise
      (fun a b => key b ≤ key a) := by
  induction xs generalizing acc with
  | nil => exact h
  | cons x xs ih => exact ih (insertBack_pairwise key h)

theorem sort_pairwise (xs : List α) :
    (sort key xs).Pairwise (fun a b => key a ≤ key b) :=
  List.pairwise_reverse.mpr (foldl_insertBack_pairwise key List.Pairwise.nil)

/-- With distinct keys the result depends on the elements only, not on
the order they came in. -/
theorem sort_eq_of_perm {xs ys : List α} (hperm : xs.Perm ys)
    (hkeys : ∀ a ∈ xs, ∀ b ∈ xs, key a = key b → a = b) : sort key xs = sort key ys := by
  have hboth : (sort key xs).Perm (sort key ys) :=
    (sort_perm key xs).trans (hperm.trans (sort_perm key ys).symm)
  refine hboth.eq_of_pairwise ?_ (sort_pairwise key xs) (sort_pairwise key ys)
  intro a b ha hb hab hba
  exact hkeys a ((mem_sort key).mp ha) b (hperm.mem_iff.mpr ((mem_sort key).mp hb))
    (le_antisymm hab hba)

end InsertionSort
