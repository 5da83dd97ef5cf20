import Mathlib.Algebra.Order.Ring.Nat
import Mathlib.Data.Char
import Mathlib.Data.List.Lex

/-!
# Fixed-width numerals

Records of numbers, each printed with a fixed number of digits behind a fixed separator. The order
of the texts is the lexicographic order of the numbers.
-/

namespace ConvergioMesh.Library

/-- The last `w` decimal digits of a number. -/
def numeral : Nat → Nat → List Char
  | 0, _ => []
  | w + 1, n => numeral w (n / 10) ++ [Nat.digitChar (n % 10)]

/-- The fields of a record: the separator before each, and its width. -/
abbrev Layout := List (List Char × Nat)

def render : Layout → List Nat → List Char
  | (sep, w) :: layout, n :: values => sep ++ numeral w n ++ render layout values
  | _, _ => []

abbrev Fits (layout : Layout) (values : List Nat) : Prop :=
  List.Forall₂ (fun field n => n < 10 ^ field.2) layout values

@[simp] theorem length_numeral (w n : Nat) : (numeral w n).length = w := by
  induction w generalizing n with
  | zero => rfl
  | succ w ih => simp [numeral, ih]

theorem lt_append_of_lt {α : Type} [LT α] {k l : List α} (h : k < l) (length : k.length = l.length) (x y : List α) :
    k ++ x < l ++ y := by
  induction h with
  | nil => cases length
  | cons rest ih => exact List.Lex.cons (ih (by simpa using length))
  | rel smaller => exact List.Lex.rel smaller

theorem append_lt_append_iff {α : Type} [LinearOrder α] {k l x y : List α} (length : k.length = l.length) :
    k ++ x < l ++ y ↔ k < l ∨ k = l ∧ x < y := by
  constructor
  · intro h
    rcases lt_trichotomy k l with smaller | same | larger
    · exact .inl smaller
    · subst same
      refine .inr ⟨rfl, ?_⟩
      by_contra above
      rcases (not_lt.mp above).eq_or_lt with rfl | above
      · exact lt_irrefl _ h
      · exact h.not_gt (List.Lex.append_left _ above _)
    · exact absurd (lt_append_of_lt larger length.symm y x) h.not_gt
  · rintro (smaller | ⟨rfl, rest⟩)
    · exact lt_append_of_lt smaller length x y
    · exact List.Lex.append_left _ rest _

theorem prefix_lt_iff {α : Type} [LinearOrder α] (k : List α) {x y : List α} : k ++ x < k ++ y ↔ x < y := by
  simp [append_lt_append_iff (rfl : k.length = k.length)]

/-- Two lists are the same, differ at a first place, or one goes on where the other ends. -/
theorem eq_or_differ {α : Type} (k l : List α) :
    k = l ∨ (∃ p x xs y ys, k = p ++ x :: xs ∧ l = p ++ y :: ys ∧ x ≠ y) ∨
      (∃ y ys, l = k ++ y :: ys) ∨ ∃ x xs, k = l ++ x :: xs := by
  induction k generalizing l with
  | nil =>
    cases l with
    | nil => exact .inl rfl
    | cons y ys => exact .inr (.inr (.inl ⟨y, ys, rfl⟩))
  | cons x k ih =>
    cases l with
    | nil => exact .inr (.inr (.inr ⟨x, k, rfl⟩))
    | cons y l =>
      by_cases same : x = y
      · subst y
        rcases ih l with rfl | ⟨p, d, ds, e, es, rfl, rfl, other⟩ | ⟨e, es, rfl⟩ | ⟨d, ds, rfl⟩
        · exact .inl rfl
        · exact .inr (.inl ⟨x :: p, d, ds, e, es, rfl, rfl, other⟩)
        · exact .inr (.inr (.inl ⟨e, es, rfl⟩))
        · exact .inr (.inr (.inr ⟨d, ds, rfl⟩))
      · exact .inr (.inl ⟨[], x, k, y, l, rfl, rfl, same⟩)

theorem digitChar_lt : ∀ n < 10, ∀ m < n, Nat.digitChar m < Nat.digitChar n := by decide

theorem numeral_lt {w m n : Nat} (h : m < n) (room : n < 10 ^ w) : numeral w m < numeral w n := by
  induction w generalizing m n with
  | zero =>
    rw [Nat.pow_zero] at room
    omega
  | succ w ih =>
    rw [Nat.pow_succ] at room
    unfold numeral
    by_cases high : m / 10 = n / 10
    · rw [high]
      refine List.Lex.append_left _ (List.Lex.rel (digitChar_lt _ ?_ _ ?_)) _ <;> omega
    · exact lt_append_of_lt (ih (by omega) (by omega)) (by simp) _ _

theorem render_lt {layout : Layout} {xs ys : List Nat} (fits : Fits layout xs) (fits' : Fits layout ys)
    (h : xs < ys) : render layout xs < render layout ys := by
  induction fits generalizing ys with
  | nil =>
    cases fits'
    exact absurd h (List.not_lt_nil _)
  | cons room _ ih =>
    cases fits' with
    | cons room' rest' =>
      unfold render
      rw [List.append_assoc, List.append_assoc]
      refine List.Lex.append_left _ ?_ _
      rcases List.cons_lt_cons_iff.mp h with smaller | ⟨rfl, later⟩
      · exact lt_append_of_lt (numeral_lt smaller room') (by simp) _ _
      · exact List.Lex.append_left _ (ih rest' later) _

theorem length_render {layout : Layout} {values : List Nat} (fits : Fits layout values) :
    (render layout values).length = (layout.map fun field => field.1.length + field.2).sum := by
  induction fits with
  | nil => rfl
  | cons _ _ ih => simp [render, ih, Nat.add_assoc]

theorem render_lt_iff {layout : Layout} {xs ys : List Nat} (fits : Fits layout xs) (fits' : Fits layout ys) :
    render layout xs < render layout ys ↔ xs < ys := by
  refine ⟨fun h => ?_, render_lt fits fits'⟩
  rcases lt_trichotomy xs ys with smaller | rfl | larger
  · exact smaller
  · exact absurd h (lt_irrefl _)
  · exact absurd (render_lt fits' fits larger) h.not_gt

theorem render_inj {layout : Layout} {xs ys : List Nat} (fits : Fits layout xs) (fits' : Fits layout ys) :
    render layout xs = render layout ys ↔ xs = ys := by
  refine ⟨fun h => ?_, congrArg _⟩
  rcases lt_trichotomy xs ys with smaller | same | larger
  · exact absurd h (render_lt fits fits' smaller).ne
  · exact same
  · exact absurd h (render_lt fits' fits larger).ne'

theorem mem_numeral {w n : Nat} {c : Char} (h : c ∈ numeral w n) : ∃ d < 10, c = Nat.digitChar d := by
  induction w generalizing n with
  | zero => cases h
  | succ w ih =>
    rcases List.mem_append.mp h with high | low
    · exact ih high
    · exact ⟨n % 10, Nat.mod_lt _ (by decide), List.mem_singleton.mp low⟩

theorem mem_render {layout : Layout} {values : List Nat} {c : Char} (h : c ∈ render layout values) :
    (∃ field ∈ layout, c ∈ field.1) ∨ ∃ d < 10, c = Nat.digitChar d := by
  induction layout generalizing values with
  | nil => cases h
  | cons field layout ih =>
    cases values with
    | nil => cases h
    | cons n values =>
      unfold render at h
      rcases List.mem_append.mp h with here | later
      · rcases List.mem_append.mp here with sep | digit
        · exact .inl ⟨field, List.mem_cons_self, sep⟩
        · exact .inr (mem_numeral digit)
      · exact (ih later).imp_left fun ⟨f, member, inside⟩ => ⟨f, List.mem_cons_of_mem _ member, inside⟩

end ConvergioMesh.Library
