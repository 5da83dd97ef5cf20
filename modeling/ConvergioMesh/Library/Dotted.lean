import ConvergioMesh.Library.FixedWidth

/-!
# Dotted numerals

Numbers in decimal with a dot between them. Two such texts are ordered by the first numbers that
differ, as texts: the smaller of two numbers comes first if it is at most what the leading digits of
the larger make.
-/

namespace ConvergioMesh.Library

def decimal (n : Nat) : List Char := Nat.toDigits 10 n

/-- Each number with a dot before it. -/
def dots (ns : List Nat) : List Char := ns.flatMap fun n => '.' :: decimal n

def dotted : List Nat → List Char
  | [] => []
  | n :: rest => decimal n ++ dots rest

/-- The first `w` digits of a number, as a number. -/
def leading (w n : Nat) : Nat := n / 10 ^ ((decimal n).length - w)

/-- Two numbers are ordered alike as numbers and as texts. -/
def OrderedAlike (x y : Nat) : Prop := min x y ≤ leading (decimal (min x y)).length (max x y)

/-- The first numbers that differ are ordered alike as numbers and as texts. -/
def DottedAlike : List Nat → List Nat → Prop
  | x :: xs, y :: ys => if x = y then DottedAlike xs ys else OrderedAlike x y
  | _, _ => True

instance (x y : Nat) : Decidable (OrderedAlike x y) := inferInstanceAs (Decidable (_ ≤ _))

instance : (xs ys : List Nat) → Decidable (DottedAlike xs ys)
  | x :: xs, y :: ys =>
    have := instDecidableDottedAlike xs ys
    inferInstanceAs (Decidable (if x = y then DottedAlike xs ys else OrderedAlike x y))
  | [], _ => .isTrue trivial
  | _ :: _, [] => .isTrue trivial

/-! ### Decimals -/

theorem numeral_add (v w n : Nat) : numeral (v + w) n = numeral v (n / 10 ^ w) ++ numeral w n := by
  induction w generalizing n with
  | zero => simp [numeral]
  | succ w ih =>
    have high : n / 10 / 10 ^ w = n / 10 ^ (w + 1) := by rw [Nat.div_div_eq_div_mul, Nat.pow_succ']
    rw [Nat.add_succ, numeral, ih, high, numeral, List.append_assoc]

theorem decimal_eq_numeral (n : Nat) : decimal n = numeral (decimal n).length n := by
  induction n using Nat.strongRecOn with
  | ind n ih =>
    by_cases small : n < 10
    · have one : decimal n = [Nat.digitChar n] := Nat.toDigits_of_lt_base small
      rw [one]
      simp [numeral, Nat.mod_eq_of_lt small]
    · have split : decimal n = decimal (n / 10) ++ [Nat.digitChar (n % 10)] :=
        Nat.toDigits_of_base_le (by decide) (by omega)
      rw [split, List.length_append, List.length_singleton, numeral, ← ih (n / 10) (by omega)]

theorem length_decimal_le_iff {n w : Nat} (positive : 0 < w) : (decimal n).length ≤ w ↔ n < 10 ^ w :=
  Nat.length_toDigits_le_iff (by decide) positive

theorem lt_pow_length_decimal (n : Nat) : n < 10 ^ (decimal n).length :=
  (length_decimal_le_iff Nat.length_toDigits_pos).mp le_rfl

theorem decimal_injective {x y : Nat} (same : decimal x = decimal y) : x = y := by
  have read := congrArg (fun digits => Nat.ofDigitChars 10 digits 0) same
  simpa [decimal] using read

theorem decimal_lt_iff {x y : Nat} (h : x < y) : decimal x < decimal y ↔ x ≤ leading (decimal x).length y := by
  have shorter : (decimal x).length ≤ (decimal y).length :=
    (length_decimal_le_iff Nat.length_toDigits_pos).mpr (h.trans (lt_pow_length_decimal y))
  obtain ⟨w, longer⟩ := Nat.exists_eq_add_of_le shorter
  have room := lt_pow_length_decimal y
  have front : decimal y = numeral (decimal x).length (y / 10 ^ w) ++ numeral w y := by
    rw [← numeral_add, ← longer, ← decimal_eq_numeral]
  have whole : decimal x = numeral (decimal x).length x ++ [] := by
    rw [List.append_nil, ← decimal_eq_numeral]
  have cut : leading (decimal x).length y = y / 10 ^ w := by
    rw [leading, longer, Nat.add_sub_cancel_left]
  have cut_room : y / 10 ^ w < 10 ^ (decimal x).length := by
    rw [Nat.div_lt_iff_lt_mul (Nat.pow_pos (by decide)), ← Nat.pow_add, ← longer]
    exact room
  have sameLength (m n : Nat) : (numeral (decimal x).length m).length = (numeral (decimal x).length n).length := by
    rw [length_numeral, length_numeral]
  rw [cut, front]
  nth_rewrite 1 [whole]
  rw [append_lt_append_iff (sameLength _ _)]
  rcases lt_trichotomy x (y / 10 ^ w) with smaller | same | larger
  · exact iff_of_true (.inl (numeral_lt smaller cut_room)) smaller.le
  · refine iff_of_true (.inr ⟨congrArg _ same, ?_⟩) same.le
    cases w with
    | zero =>
      rw [Nat.pow_zero, Nat.div_one] at same
      exact absurd same h.ne
    | succ w =>
      cases digits : numeral (w + 1) y with
      | nil =>
        have length := length_numeral (w + 1) y
        rw [digits] at length
        cases length
      | cons d rest => exact List.nil_lt_cons d rest
  · have above := numeral_lt larger (lt_pow_length_decimal x)
    refine iff_of_false ?_ larger.not_ge
    rintro (less | ⟨equal, _⟩)
    · exact absurd less above.not_gt
    · exact absurd equal above.ne'

/-- Two different numbers are ordered as texts as they are as numbers, or the other way around. -/
theorem decimal_lt_iff_lt {x y : Nat} (other : x ≠ y) : (decimal x < decimal y ↔ x < y) ↔ OrderedAlike x y := by
  unfold OrderedAlike
  rcases Nat.lt_or_gt_of_ne other with less | greater
  · rw [Nat.min_eq_left less.le, Nat.max_eq_right less.le, iff_true_right less]
    exact decimal_lt_iff less
  · have apart : decimal y ≠ decimal x := fun same => other (decimal_injective same).symm
    rw [Nat.min_eq_right greater.le, Nat.max_eq_left greater.le, iff_false_right greater.not_gt, ← decimal_lt_iff greater]
    exact ⟨fun above => (not_lt.mp above).lt_of_ne apart, fun below => below.not_gt⟩

/-! ### Dotted numerals -/

/-- Texts behind different words are ordered as the words, if what follows a word is below its letters. -/
theorem append_lt_append_of_ne {α : Type} [LinearOrder α] {sep : α} {a b s t : List α} (other : a ≠ b)
    (above : ∀ c ∈ a, sep < c) (above' : ∀ c ∈ b, sep < c) (low : ∀ c ∈ s.head?, c = sep)
    (low' : ∀ c ∈ t.head?, c = sep) : a ++ s < b ++ t ↔ a < b := by
  induction a generalizing b with
  | nil =>
    cases b with
    | nil => exact absurd rfl other
    | cons d b =>
      refine iff_of_true ?_ (List.nil_lt_cons d b)
      cases s with
      | nil => exact List.nil_lt_cons d _
      | cons c s =>
        have less := above' d List.mem_cons_self
        rw [← low c rfl] at less
        exact List.Lex.rel less
  | cons c a ih =>
    rw [List.forall_mem_cons] at above
    cases b with
    | nil =>
      refine iff_of_false ?_ (List.not_lt_nil _)
      cases t with
      | nil => exact List.not_lt_nil _
      | cons d t =>
        have less := above.1
        rw [← low' d rfl] at less
        exact (show d :: t < c :: (a ++ s) from List.Lex.rel less).not_gt
    | cons d b =>
      rw [List.forall_mem_cons] at above'
      rw [List.cons_append, List.cons_append, List.cons_lt_cons_iff, List.cons_lt_cons_iff]
      refine or_congr_right (and_congr_right fun same => ?_)
      subst d
      exact ih (fun equal => other (congrArg _ equal)) above.2 above'.2

theorem dot_lt_of_mem_decimal {n : Nat} {c : Char} (member : c ∈ decimal n) : '.' < c := by
  have digit := Nat.isDigit_of_mem_toDigits (by decide) (by decide) member
  simp only [Char.isDigit, Bool.and_eq_true, decide_eq_true_eq, ge_iff_le, UInt32.le_iff_toNat_le] at digit
  change 48 ≤ c.toNat ∧ c.toNat ≤ 57 at digit
  apply Char.lt_def.mpr
  apply UInt32.lt_iff_toNat_lt.mpr
  change 46 < c.toNat
  omega

theorem dots_head (ns : List Nat) : ∀ c ∈ (dots ns).head?, c = '.' := by
  cases ns with
  | nil => nofun
  | cons n ns =>
    rintro c ⟨⟩
    rfl

theorem dots_lt_iff {xs ys : List Nat} (length : xs.length = ys.length) : dots xs < dots ys ↔ dotted xs < dotted ys := by
  cases xs with
  | nil =>
    cases ys with
    | nil => rfl
    | cons y ys => cases length
  | cons x xs =>
    cases ys with
    | nil => cases length
    | cons y ys =>
      change '.' :: dotted (x :: xs) < '.' :: dotted (y :: ys) ↔ _
      rw [List.cons_lt_cons_iff]
      simp

/-- Dotted texts of equally many numbers are ordered as the lists of the numbers exactly if the first numbers that
differ are. -/
theorem dotted_lt_iff {xs ys : List Nat} (length : xs.length = ys.length) :
    (dotted xs < dotted ys ↔ xs < ys) ↔ DottedAlike xs ys := by
  induction xs generalizing ys with
  | nil =>
    cases ys with
    | nil => simp [DottedAlike, dotted]
    | cons y ys => cases length
  | cons x xs ih =>
    cases ys with
    | nil => cases length
    | cons y ys =>
      have shorter : xs.length = ys.length := Nat.succ.inj length
      unfold DottedAlike dotted
      by_cases same : x = y
      · subst y
        have tails : decimal x ++ dots xs < decimal x ++ dots ys ↔ dots xs < dots ys := by
          rw [append_lt_append_iff rfl]
          simp
        rw [if_pos rfl, tails, dots_lt_iff shorter, List.cons_lt_cons_iff]
        simpa using ih shorter
      · have apart : decimal x ≠ decimal y := fun equal => same (decimal_injective equal)
        rw [if_neg same, append_lt_append_of_ne apart (fun _ => dot_lt_of_mem_decimal) (fun _ => dot_lt_of_mem_decimal)
          (dots_head xs) (dots_head ys), List.cons_lt_cons_iff, ← decimal_lt_iff_lt same]
        simp [same]

end ConvergioMesh.Library
