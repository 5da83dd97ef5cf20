import Mathlib.Algebra.BigOperators.Group.List.Basic
import Mathlib.Algebra.Order.Ring.Nat

/-!
# Incidences

The pairs of a relation between two lists, counted from either side. Where no two elements on one
side meet the same one on the other, the count is that of the elements met.
-/

namespace ConvergioMesh.Library

variable {α β : Type} {R : α → β → Bool} {xs : List α} {ys : List β}

theorem countP_eq_sum (p : α → Bool) (xs : List α) : xs.countP p = (xs.map fun x => if p x then 1 else 0).sum := by
  induction xs with
  | nil => rfl
  | cons x xs ih => rw [List.countP_cons, List.map_cons, List.sum_cons, ih, Nat.add_comm]

theorem sum_countP_comm (R : α → β → Bool) (xs : List α) (ys : List β) :
    (xs.map fun x => ys.countP (R x)).sum = (ys.map fun y => xs.countP (R · y)).sum := by
  induction xs with
  | nil => simp
  | cons x xs ih =>
    rw [List.map_cons, List.sum_cons, ih]
    simp only [List.countP_cons, List.sum_map_add]
    rw [← countP_eq_sum (R x), Nat.add_comm]

theorem eq_of_countP_le_one {p : α → Bool} (once : xs.countP p ≤ 1) {x y : α} (hx : x ∈ xs) (hy : y ∈ xs) (px : p x = true)
    (py : p y = true) : x = y := by
  rw [List.countP_eq_length_filter] at once
  have mx : x ∈ xs.filter p := List.mem_filter.mpr ⟨hx, px⟩
  have my : y ∈ xs.filter p := List.mem_filter.mpr ⟨hy, py⟩
  match found : xs.filter p with
  | [] =>
    rw [found] at mx
    cases mx
  | [z] =>
    rw [found, List.mem_singleton] at mx my
    rw [mx, my]
  | _ :: _ :: _ =>
    rw [found, List.length_cons, List.length_cons] at once
    omega

theorem countP_le_one {p : α → Bool} (distinct : xs.Nodup) (unique : ∀ x ∈ xs, ∀ y ∈ xs, p x = true → p y = true → x = y) :
    xs.countP p ≤ 1 := by
  rw [List.countP_eq_length_filter]
  have nodup : (xs.filter p).Nodup := distinct.filter p
  match found : xs.filter p with
  | [] => exact Nat.zero_le _
  | [_] => exact Nat.le_refl _
  | x :: y :: rest =>
    have mx : x ∈ xs.filter p := found ▸ List.mem_cons_self
    have my : y ∈ xs.filter p := found ▸ List.mem_cons_of_mem _ List.mem_cons_self
    rw [List.mem_filter] at mx my
    rw [found, unique x mx.1 y my.1 mx.2 my.2, List.nodup_cons] at nodup
    exact absurd List.mem_cons_self nodup.1

/-- If each `y` is met at most once, the incidences are as many as the `y` that are met. -/
theorem sum_countP_of_unique (distinct : xs.Nodup)
    (unique : ∀ y ∈ ys, ∀ x ∈ xs, ∀ x' ∈ xs, R x y = true → R x' y = true → x = x') :
    (xs.map fun x => ys.countP (R x)).sum = ys.countP fun y => xs.any (R · y) := by
  rw [sum_countP_comm, countP_eq_sum]
  congr 1
  refine List.map_congr_left fun y listed => ?_
  have atMost := countP_le_one distinct (unique y listed)
  by_cases met : xs.any (R · y) = true
  · have atLeast : 1 ≤ xs.countP (R · y) := List.one_le_countP_iff.mpr (List.any_eq_true.mp met)
    rw [if_pos met]
    omega
  · rw [if_neg met, List.countP_eq_zero]
    intro x member holds
    exact met (List.any_eq_true.mpr ⟨x, member, holds⟩)

end ConvergioMesh.Library
