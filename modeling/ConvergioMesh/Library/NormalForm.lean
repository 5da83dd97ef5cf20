import Mathlib.Logic.Relation

/-!
# Repeated application

Elements that repeated application of a function brings together. A function that takes two of them
to fixed points takes them to the same one.
-/

namespace ConvergioMesh.Library

open Relation

variable {α : Type*} {f : α → α} {R : α → α → Prop} {x y : α}

/-- Some number of applications of `f` to each of the two has one result. -/
def Meets (f : α → α) : α → α → Prop := Join (ReflTransGen fun x y => f x = y)

theorem meets_equivalence (f : α → α) : Equivalence (Meets f) := by
  apply equivalence_join_reflTransGen
  rintro x _ _ rfl rfl
  exact ⟨f x, .refl, .refl⟩

theorem meets_apply (f : α → α) (x : α) : Meets f x (f x) := ⟨f x, .single rfl, .refl⟩

theorem meets_of_apply_eq (same : f x = f y) : Meets f x y := ⟨f y, .single same, .single rfl⟩

theorem eq_of_steps_of_fixed (fixed : f x = x) (steps : ReflTransGen (fun x y => f x = y) x y) : x = y := by
  induction steps with
  | refl => rfl
  | tail _ step ih => rw [← step, ← ih, fixed]

theorem Meets.eq_of_fixed (h : Meets f x y) (fixed : f x = x) (fixed' : f y = y) : x = y := by
  obtain ⟨z, steps, steps'⟩ := h
  exact (eq_of_steps_of_fixed fixed steps).trans (eq_of_steps_of_fixed fixed' steps').symm

/-- If related elements meet, so do those that a chain of relations joins, and a function that takes them
to fixed points takes them to one. -/
theorem apply_eq_of_eqvGen (meet : ∀ x y, R x y → Meets f x y) (related : EqvGen R x y) (fixed : f (f x) = f x)
    (fixed' : f (f y) = f y) : f x = f y := by
  have equivalence := meets_equivalence f
  have joined : Meets f x y := equivalence.eqvGen_iff.mp (EqvGen.mono meet _ _ related)
  have moved : Meets f (f x) (f y) :=
    equivalence.trans (equivalence.symm (meets_apply f x)) (equivalence.trans joined (meets_apply f y))
  exact moved.eq_of_fixed fixed fixed'

end ConvergioMesh.Library
