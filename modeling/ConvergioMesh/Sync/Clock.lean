import ConvergioMesh.Library.FixedWidth
import ConvergioMesh.Sqlite.Value

/-! The clock of a node, to the second, and the text of its timestamps. -/

namespace ConvergioMesh

open Library

/-- A UTC time to the second, up to the year 9999. -/
structure UtcSecond where
  year : Nat
  month : Nat
  day : Nat
  hour : Nat
  minute : Nat
  second : Nat
  year_lt : year < 10000 := by decide
  month_range : 1 ≤ month ∧ month ≤ 12 := by decide
  day_range : 1 ≤ day ∧ day ≤ 31 := by decide
  hour_lt : hour < 24 := by decide
  minute_lt : minute < 60 := by decide
  second_le : second ≤ 60 := by decide

namespace UtcSecond

def fields (t : UtcSecond) : List Nat := [t.year, t.month, t.day, t.hour, t.minute, t.second]

instance : LE UtcSecond := ⟨fun a b => a.fields ≤ b.fields⟩

instance (a b : UtcSecond) : Decidable (a ≤ b) := inferInstanceAs (Decidable (a.fields ≤ b.fields))

theorem le_self (a : UtcSecond) : a ≤ a := (le_rfl : a.fields ≤ a.fields)

def layout : Layout := [([], 4), (['-'], 2), (['-'], 2), ([' '], 2), ([':'], 2), ([':'], 2)]

def format (t : UtcSecond) : String := String.ofList (render layout t.fields)

example : (mk 2026 4 21 8 0 30).format = "2026-04-21 08:00:30" := by decide

theorem fits (t : UtcSecond) : Fits layout t.fields := by
  have := t.year_lt
  have := t.month_range
  have := t.day_range
  have := t.hour_lt
  have := t.minute_lt
  have := t.second_le
  refine .cons ?_ (.cons ?_ (.cons ?_ (.cons ?_ (.cons ?_ (.cons ?_ .nil))))) <;> dsimp only <;> omega

theorem format_le {a b : UtcSecond} (h : a ≤ b) : a.format ≤ b.format := by
  rcases lt_or_eq_of_le (show a.fields ≤ b.fields from h) with earlier | same
  · have texts := render_lt a.fits b.fits earlier
    refine le_of_lt ?_
    rw [String.lt_iff_toList_lt, format, format, String.toList_ofList, String.toList_ofList]
    exact texts
  · rw [format, format, same]

theorem T_not_mem_format (t : UtcSecond) : 'T' ∉ t.format.toList := by
  rw [format, String.toList_ofList]
  intro member
  rcases mem_render member with ⟨field, listed, inside⟩ | ⟨d, small, same⟩
  · exact absurd inside ((by decide : ∀ f ∈ layout, 'T' ∉ f.1) field listed)
  · exact absurd same ((by decide : ∀ d < 10, 'T' ≠ Nat.digitChar d) d small)

theorem replaceT_format (t : UtcSecond) : replaceT t.format = t.format := replaceT_of_free t.T_not_mem_format

/-- The full hours of one day. -/
def april21 (hour : Nat) (hour_lt : hour < 24 := by decide) : UtcSecond where
  year := 2026
  month := 4
  day := 21
  hour
  minute := 0
  second := 0
  hour_lt

end UtcSecond

end ConvergioMesh
