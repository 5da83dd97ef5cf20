import Mathlib.Data.Prod.Lex
import Mathlib.Tactic.Linarith
import ConvergioMesh.Library.Calendar
import ConvergioMesh.Sync.Apply
import ConvergioMesh.Sync.Clock

/-!
# Timestamps

The forms a timestamp is documented to have, the instant each denotes, and what the comparison of
the texts makes of it.
-/

namespace ConvergioMesh

open Library

inductive Separator where
  | upper
  | lower
  | blank
  deriving DecidableEq

def Separator.char : Separator → Char
  | .upper => 'T'
  | .lower => 't'
  | .blank => ' '

/-- The order of the separators once each `T` is a blank. -/
def Separator.rank : Separator → Nat
  | .upper | .blank => 0
  | .lower => 1

inductive Zone where
  | utc (letter : Bool)
  | numeric (east : Bool) (hours minutes : Nat) (range : hours < 24 ∧ minutes < 60)
  deriving DecidableEq

def Zone.text : Zone → List Char
  | .utc letter => [if letter then 'Z' else 'z']
  | .numeric east hours minutes _ => (if east then '+' else '-') :: (numeral 2 hours ++ ':' :: numeral 2 minutes)

/-- Minutes east of UTC. -/
def Zone.offset : Zone → Int
  | .utc _ => 0
  | .numeric east hours minutes _ => (if east then 1 else -1) * (60 * hours + minutes)

/-- The canonical form, which is in UTC, and the forms of RFC 3339. -/
inductive Form where
  | canonical
  | rfc3339 (separator : Separator) (fraction : List (Fin 10)) (zone : Zone)
  deriving DecidableEq

namespace Form

def separator : Form → Separator
  | .canonical => .blank
  | .rfc3339 separator _ _ => separator

def fraction : Form → List (Fin 10)
  | .canonical => []
  | .rfc3339 _ fraction _ => fraction

def offset : Form → Int
  | .canonical => 0
  | .rfc3339 _ _ zone => zone.offset

def zoneText : Form → List Char
  | .canonical => []
  | .rfc3339 _ _ zone => zone.text

/-- What stands behind the seconds. -/
def suffix (f : Form) : List Char :=
  (if f.fraction.isEmpty then [] else '.' :: f.fraction.map fun d => Nat.digitChar d.val) ++ f.zoneText

end Form

/-- The number behind the point. -/
def fractionValue : List (Fin 10) → Rat
  | [] => 0
  | d :: ds => (d.val + fractionValue ds) / 10

/-- With the same fields, what is written further east is earlier, then what has the smaller fraction. -/
def Form.Earlier (f g : Form) : Prop :=
  g.offset < f.offset ∨ f.offset = g.offset ∧ fractionValue f.fraction < fractionValue g.fraction

/-- A date and a time of day as written, and the form they are written in. -/
structure Timestamp where
  clock : UtcSecond
  form : Form
  real : IsDate clock.year clock.month clock.day := by exact ⟨by decide, by decide⟩

namespace Timestamp

def dateLayout : Layout := [([], 4), (['-'], 2), (['-'], 2)]

def timeLayout : Layout := [([], 2), ([':'], 2), ([':'], 2)]

def dateFields (a : Timestamp) : List Nat := [a.clock.year, a.clock.month, a.clock.day]

def timeFields (a : Timestamp) : List Nat := [a.clock.hour, a.clock.minute, a.clock.second]

def chars (a : Timestamp) : List Char :=
  render dateLayout a.dateFields ++
    a.form.separator.char :: (render timeLayout a.timeFields ++ a.form.suffix)

def text (a : Timestamp) : String := String.ofList a.chars

/-- The minute as written, counted without regard to the offset. -/
def writtenMinute (a : Timestamp) : Nat :=
  (dayNumber a.clock.year a.clock.month a.clock.day * 24 + a.clock.hour) * 60 + a.clock.minute

/-- The seconds with their fraction: a leap second is the last one of its minute. -/
def seconds (a : Timestamp) : Rat := a.clock.second + fractionValue a.form.fraction

/-- The minute of UTC, and the seconds within it. -/
def instant (a : Timestamp) : Int ×ₗ Rat := toLex (a.writtenMinute - a.form.offset, a.seconds)

/-- The fields as written, in the order of the text. -/
def wall (a : Timestamp) : List Nat := a.dateFields ++ a.form.separator.rank :: a.timeFields

example : (⟨⟨2026, 4, 21, 8, 0, 30, by decide, by decide, by decide, by decide, by decide, by decide⟩,
    .rfc3339 .upper [2, 5] (.numeric true 2 0 (by decide)), by exact ⟨by decide, by decide⟩⟩ : Timestamp).text =
      "2026-04-21T08:00:30.25+02:00" := by decide

theorem date_fits (a : Timestamp) : Fits dateLayout a.dateFields := by
  have := a.clock.year_lt
  have := a.clock.month_range
  have := a.clock.day_range
  refine .cons ?_ (.cons ?_ (.cons ?_ .nil)) <;> dsimp only <;> omega

theorem time_fits (a : Timestamp) : Fits timeLayout a.timeFields := by
  have := a.clock.hour_lt
  have := a.clock.minute_lt
  have := a.clock.second_le
  refine .cons ?_ (.cons ?_ (.cons ?_ .nil)) <;> dsimp only <;> omega

/-! ### The text after normalisation -/

theorem T_not_mem_digits (fraction : List (Fin 10)) : 'T' ∉ fraction.map fun d => Nat.digitChar d.val := by
  intro member
  obtain ⟨d, _, same⟩ := List.mem_map.mp member
  exact absurd same ((by decide : ∀ d : Fin 10, Nat.digitChar d.val ≠ 'T') d)

theorem T_not_mem_numeral (w n : Nat) : 'T' ∉ numeral w n := by
  intro member
  obtain ⟨d, small, same⟩ := mem_numeral member
  exact absurd same ((by decide : ∀ d < 10, 'T' ≠ Nat.digitChar d) d small)

theorem T_not_mem_zone (zone : Zone) : 'T' ∉ zone.text := by
  cases zone with
  | utc letter => cases letter <;> decide
  | numeric east hours minutes range =>
    have digits := T_not_mem_numeral 2
    cases east <;> simp [Zone.text, digits]

theorem T_not_mem_suffix (f : Form) : 'T' ∉ f.suffix := by
  have zone : 'T' ∉ f.zoneText := by
    cases f with
    | canonical => exact List.not_mem_nil
    | rfc3339 _ _ zone => exact T_not_mem_zone zone
  unfold Form.suffix
  split
  · exact zone
  · simp [T_not_mem_digits, zone]

theorem T_not_mem_render {layout : Layout} (plain : ∀ field ∈ layout, 'T' ∉ field.1) (values : List Nat) :
    'T' ∉ render layout values := by
  intro member
  rcases mem_render member with ⟨field, listed, inside⟩ | ⟨d, small, same⟩
  · exact plain field listed inside
  · exact absurd same ((by decide : ∀ d < 10, 'T' ≠ Nat.digitChar d) d small)

/-- The separator once each `T` is a blank. -/
def blank (s : Separator) : Char := if s.char = 'T' then ' ' else s.char

theorem toList_replaceT_text (a : Timestamp) :
    (replaceT a.text).toList = render dateLayout a.dateFields ++
      blank a.form.separator :: (render timeLayout a.timeFields ++ a.form.suffix) := by
  have date : 'T' ∉ render dateLayout a.dateFields := T_not_mem_render (by decide) _
  have time : 'T' ∉ render timeLayout a.timeFields := T_not_mem_render (by decide) _
  rw [replaceT, text, String.toList_ofList, String.toList_ofList, chars, List.map_append, List.map_cons,
    List.map_append, mapT_of_free date, mapT_of_free time, mapT_of_free (T_not_mem_suffix a.form)]
  rfl

theorem blank_lt (s s' : Separator) : blank s < blank s' ↔ s.rank < s'.rank := by
  cases s <;> cases s' <;> decide

theorem blank_eq (s s' : Separator) : blank s = blank s' ↔ s.rank = s'.rank := by
  cases s <;> cases s' <;> decide

/-- Texts are ordered by the fields as written, then by what stands behind the seconds. -/
theorem replaceT_lt_iff (a b : Timestamp) :
    replaceT a.text < replaceT b.text ↔ a.wall < b.wall ∨ a.wall = b.wall ∧ a.form.suffix < b.form.suffix := by
  have dates : (render dateLayout a.dateFields).length = (render dateLayout b.dateFields).length := by
    rw [length_render a.date_fits, length_render b.date_fits]
  have times : (render timeLayout a.timeFields).length = (render timeLayout b.timeFields).length := by
    rw [length_render a.time_fits, length_render b.time_fits]
  rw [String.lt_iff_toList_lt, toList_replaceT_text, toList_replaceT_text, append_lt_append_iff dates,
    List.cons_lt_cons_iff, append_lt_append_iff times, render_lt_iff a.date_fits b.date_fits,
    render_inj a.date_fits b.date_fits, render_lt_iff a.time_fits b.time_fits,
    render_inj a.time_fits b.time_fits, blank_lt, blank_eq]
  have same : a.wall = b.wall ↔ a.dateFields = b.dateFields ∧ a.form.separator.rank = b.form.separator.rank ∧
      a.timeFields = b.timeFields := by
    simp [wall, dateFields, timeFields, and_assoc]
  rw [same]
  unfold wall
  rw [append_lt_append_iff (show a.dateFields.length = b.dateFields.length from rfl), List.cons_lt_cons_iff]
  tauto

/-! ### Instants -/

theorem instant_lt_iff (a b : Timestamp) : a.instant < b.instant ↔
    (a.writtenMinute - a.form.offset : Int) < b.writtenMinute - b.form.offset ∨
      (a.writtenMinute - a.form.offset : Int) = b.writtenMinute - b.form.offset ∧ a.seconds < b.seconds :=
  Prod.Lex.lt_iff

theorem instant_lt_iff_of_wall {a b : Timestamp} (same : a.wall = b.wall) :
    a.instant < b.instant ↔ a.form.Earlier b.form := by
  obtain ⟨⟨year, month, day⟩, _, hour, minute, second⟩ :
      (a.clock.year = b.clock.year ∧ a.clock.month = b.clock.month ∧ a.clock.day = b.clock.day) ∧
        a.form.separator.rank = b.form.separator.rank ∧
          a.clock.hour = b.clock.hour ∧ a.clock.minute = b.clock.minute ∧ a.clock.second = b.clock.second := by
    simpa [wall, dateFields, timeFields, and_assoc] using same
  rw [instant_lt_iff]
  unfold writtenMinute seconds Form.Earlier
  rw [year, month, day, hour, minute, second]
  simp

end Timestamp

end ConvergioMesh
