/-!
# AwaitLint — totals of a measure

`total f xs` adds up the measure `f` over a list. The loops of this library end because such a
total falls: the work left on a stack, the numbers of the parents in a tree, the room left in sets.
-/

namespace AwaitLint

universe u

variable {α : Type u}

/-- The sum of a measure over the members of a list. -/
def total (f : α → Nat) : List α → Nat
  | [] => 0
  | x :: xs => f x + total f xs

@[simp] theorem total_nil (f : α → Nat) : total f [] = 0 := rfl

@[simp] theorem total_cons (f : α → Nat) (x : α) (xs : List α) :
    total f (x :: xs) = f x + total f xs := rfl

@[simp] theorem total_append (f : α → Nat) (xs ys : List α) :
    total f (xs ++ ys) = total f xs + total f ys := by
  induction xs with
  | nil => simp
  | cons x xs ih =>
    simp only [List.cons_append, total_cons, ih]
    omega

@[simp] theorem total_reverse (f : α → Nat) (xs : List α) : total f xs.reverse = total f xs := by
  induction xs with
  | nil => rfl
  | cons x xs ih =>
    simp only [List.reverse_cons, total_append, total_cons, total_nil, ih]
    omega

theorem le_total (f : α → Nat) {x : α} {xs : List α} (h : x ∈ xs) : f x ≤ total f xs := by
  induction xs with
  | nil => cases h
  | cons y xs ih =>
    rw [total_cons]
    rcases List.mem_cons.1 h with rfl | h
    · omega
    · have := ih h
      omega

/-- Replacing a member changes the sum by what the two differ. -/
theorem total_set (f : α → Nat) {xs : List α} {i : Nat} {x : α} (h : xs[i]? = some x) (y : α) :
    total f (xs.set i y) + f x = total f xs + f y := by
  induction xs generalizing i with
  | nil => cases h
  | cons z xs ih =>
    cases i with
    | zero =>
      cases h
      rw [List.set_cons_zero, total_cons, total_cons]
      omega
    | succ i =>
      have := ih h
      rw [List.set_cons_succ, total_cons, total_cons]
      omega

theorem total_le_of_sublist (f : α → Nat) {xs ys : List α} (h : xs.Sublist ys) :
    total f xs ≤ total f ys := by
  induction h with
  | slnil => exact Nat.le_refl _
  | cons y _ ih =>
    rw [total_cons]
    omega
  | cons_cons x _ ih =>
    rw [total_cons, total_cons]
    omega

end AwaitLint
