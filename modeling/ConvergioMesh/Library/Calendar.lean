import Mathlib.Algebra.Order.Ring.Nat
import Mathlib.Data.List.Lex

/-!
# Calendar

The Gregorian calendar, extended backwards. Counting days keeps the order of the dates.
-/

namespace ConvergioMesh.Library

def isLeap (year : Nat) : Bool := year % 4 = 0 && (year % 100 != 0 || year % 400 = 0)

def monthLengths (leap : Bool) : List Nat := [31, if leap then 29 else 28, 31, 30, 31, 30, 31, 31, 30, 31, 30, 31]

/-- The number of days of a month, the first one being 1. -/
def monthDays (leap : Bool) (month : Nat) : Nat := (monthLengths leap).getD (month - 1) 0

def daysBeforeMonth (leap : Bool) (month : Nat) : Nat := ((monthLengths leap).take (month - 1)).sum

/-- Days from the first of January of the year 0. -/
def daysBeforeYear (year : Nat) : Nat := 365 * year + (year + 3) / 4 + (year + 399) / 400 - (year + 99) / 100

def dayNumber (year month day : Nat) : Nat := daysBeforeYear year + daysBeforeMonth (isLeap year) month + (day - 1)

structure IsDate (year month day : Nat) : Prop where
  month_range : 1 ≤ month ∧ month ≤ 12
  day_range : 1 ≤ day ∧ day ≤ monthDays (isLeap year) month

example : dayNumber 2026 4 21 - dayNumber 1970 1 1 = 20564 := by decide

theorem daysBeforeYear_succ (year : Nat) :
    daysBeforeYear (year + 1) = daysBeforeYear year + if isLeap year then 366 else 365 := by
  have fourth : (year + 1 + 3) / 4 = (year + 3) / 4 + if year % 4 = 0 then 1 else 0 := by split <;> omega
  have century : (year + 1 + 99) / 100 = (year + 99) / 100 + if year % 100 = 0 then 1 else 0 := by split <;> omega
  have era : (year + 1 + 399) / 400 = (year + 399) / 400 + if year % 400 = 0 then 1 else 0 := by split <;> omega
  have fewer : (year + 99) / 100 ≤ (year + 3) / 4 := by omega
  have nested : year % 100 = 0 → year % 4 = 0 := by omega
  have nested' : year % 400 = 0 → year % 100 = 0 := by omega
  unfold daysBeforeYear isLeap
  rw [fourth, century, era]
  generalize (year + 3) / 4 = a at *
  generalize (year + 99) / 100 = b at *
  generalize (year + 399) / 400 = c at *
  by_cases every4 : year % 4 = 0 <;> by_cases every100 : year % 100 = 0 <;> by_cases every400 : year % 400 = 0 <;>
    simp [every4, every100, every400] at nested nested' ⊢ <;> omega

theorem daysBeforeYear_mono {y z : Nat} (h : y ≤ z) : daysBeforeYear y ≤ daysBeforeYear z := by
  induction h with
  | refl => exact le_rfl
  | step _ ih => exact ih.trans (by rw [Nat.succ_eq_add_one, daysBeforeYear_succ]; omega)

theorem months_apart : ∀ leap, ∀ n < 13, ∀ m < n, 1 ≤ m →
    daysBeforeMonth leap m + monthDays leap m ≤ daysBeforeMonth leap n := by decide

theorem month_within : ∀ leap, ∀ m < 13, 1 ≤ m →
    daysBeforeMonth leap m + monthDays leap m ≤ if leap then 366 else 365 := by decide

theorem dayNumber_lt {y m d y' m' d' : Nat} (date : IsDate y m d) (date' : IsDate y' m' d')
    (h : [y, m, d] < [y', m', d']) : dayNumber y m d < dayNumber y' m' d' := by
  obtain ⟨⟨first, last⟩, low, high⟩ := date
  obtain ⟨⟨first', last'⟩, low', high'⟩ := date'
  unfold dayNumber
  rcases List.cons_lt_cons_iff.mp h with years | ⟨rfl, rest⟩
  · have within := month_within (isLeap y) m (by omega) first
    have next := daysBeforeYear_succ y
    have later : daysBeforeYear (y + 1) ≤ daysBeforeYear y' := daysBeforeYear_mono years
    omega
  rcases List.cons_lt_cons_iff.mp rest with months | ⟨rfl, last_field⟩
  · have apart := months_apart (isLeap y) m' (by omega) m months first
    omega
  rcases List.cons_lt_cons_iff.mp last_field with days | ⟨_, impossible⟩
  · omega
  · exact absurd impossible (List.not_lt_nil _)

end ConvergioMesh.Library
