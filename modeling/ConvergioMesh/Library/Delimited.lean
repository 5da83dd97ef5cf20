import Mathlib.Data.List.Basic
import ConvergioMesh.Library.Dotted

/-!
# Labelled counts with plain separators

A list of labels and counts, written `label=count;` one after the other. Labels may hold any
characters, so a text can have several readings. Two readings part where a label of one begins with
a whole entry of the other, or where one list ends.
-/

namespace ConvergioMesh.Library

def entryText (e : List Char × Nat) : List Char := e.1 ++ '=' :: (decimal e.2 ++ [';'])

def entriesText (es : List (List Char × Nat)) : List Char := es.flatMap entryText

/-- A label of either list begins with an entry of the other. -/
def Absorbs (es es' : List (List Char × Nat)) : Prop :=
  ∃ e ∈ es, ∃ e' ∈ es', entryText e <+: e'.1 ∨ entryText e' <+: e.1

theorem not_mem_decimal {c : Char} (plain : c.isDigit = false) (n : Nat) : c ∉ decimal n := by
  intro member
  rw [Nat.isDigit_of_mem_toDigits (by decide) (by decide) member] at plain
  cases plain

theorem mark_mem_entryText (e : List Char × Nat) : '=' ∈ entryText e :=
  List.mem_append_right _ List.mem_cons_self

/-- Of two prefixes of one text, one that does not hold the mark is a prefix of what precedes the mark in the other. -/
theorem prefix_of_before_mark {c : Char} {l before t : List Char} (plain : c ∉ l) (first : l <+: t)
    (second : before ++ [c] <+: t) : l <+: before := by
  rcases List.prefix_or_prefix_of_prefix first second with inside | around
  · rcases List.prefix_concat_iff.mp inside with same | inside
    · rw [same] at plain
      simp at plain
    · exact inside
  · exact absurd (around.subset (List.mem_append_right _ (List.mem_singleton_self c))) plain

theorem entryText_prefix_of_longer {e e' : List Char × Nat} {u rest rest' : List Char} (longer : e'.1 = e.1 ++ u)
    (nonempty : u ≠ []) (same : entryText e ++ rest = entryText e' ++ rest') : entryText e <+: e'.1 := by
  have cut : '=' :: (decimal e.2 ++ [';'] ++ rest) = u ++ '=' :: (decimal e'.2 ++ [';'] ++ rest') := by
    have whole := same
    simp only [entryText, longer, List.append_assoc, List.cons_append, List.append_cancel_left_eq] at whole
    simpa using whole
  cases u with
  | nil => exact absurd rfl nonempty
  | cons c v =>
    obtain ⟨rfl, tails⟩ := List.cons.inj cut
    have plain : '=' ∉ decimal e.2 ++ [';'] := by
      simp [not_mem_decimal (c := '=') rfl e.2]
    have second : v ++ ['='] <+: decimal e.2 ++ [';'] ++ rest := ⟨_, (List.append_cons v '=' _).symm.trans tails.symm⟩
    rw [longer]
    exact (List.prefix_append_right_inj _).mpr
      (List.cons_prefix_cons.mpr ⟨rfl, prefix_of_before_mark plain (List.prefix_append _ _) second⟩)

theorem entryText_inj_of_label {e e' : List Char × Nat} {rest rest' : List Char} (label : e.1 = e'.1)
    (same : entryText e ++ rest = entryText e' ++ rest') : e = e' ∧ rest = rest' := by
  have digits : decimal e.2 ++ ([';'] ++ rest) = decimal e'.2 ++ ([';'] ++ rest') := by
    simpa [entryText, label] using same
  have plain (n : Nat) : ';' ∉ decimal n := not_mem_decimal rfl n
  have whole : decimal e.2 ++ [';'] <+: decimal e'.2 ++ ([';'] ++ rest') := ⟨rest, by rw [← digits, List.append_assoc]⟩
  have whole' : decimal e'.2 ++ [';'] <+: decimal e'.2 ++ ([';'] ++ rest') := ⟨rest', List.append_assoc _ _ _⟩
  have below := prefix_of_before_mark (plain e.2) ((List.prefix_append _ _).trans whole) whole'
  have above := prefix_of_before_mark (plain e'.2) ((List.prefix_append _ _).trans whole') whole
  have counts := below.eq_of_length (Nat.le_antisymm below.length_le above.length_le)
  rw [counts, List.append_cancel_left_eq, List.append_cancel_left_eq] at digits
  exact ⟨Prod.ext label (decimal_injective counts), digits⟩

/-- The first entries of two readings are the same, or one begins the label of the other. -/
theorem entryText_cases {e e' : List Char × Nat} {rest rest' : List Char}
    (same : entryText e ++ rest = entryText e' ++ rest') :
    (e = e' ∧ rest = rest') ∨ entryText e <+: e'.1 ∨ entryText e' <+: e.1 := by
  have labels := same
  simp only [entryText, List.append_assoc] at labels
  rcases List.append_eq_append_iff.mp labels with ⟨u, longer, _⟩ | ⟨u, longer, _⟩
  · by_cases empty : u = []
    · rw [empty, List.append_nil] at longer
      exact .inl (entryText_inj_of_label longer.symm same)
    · exact .inr (.inl (entryText_prefix_of_longer longer empty same))
  · by_cases empty : u = []
    · rw [empty, List.append_nil] at longer
      exact .inl (entryText_inj_of_label longer same)
    · exact .inr (.inr (entryText_prefix_of_longer longer empty same.symm))

/-- Two readings of a text are the same, or some label absorbs an entry, or the text behind one of them begins with
an entry of the other. -/
theorem entriesText_cases {es es' : List (List Char × Nat)} {rest rest' : List Char}
    (same : entriesText es ++ rest = entriesText es' ++ rest') :
    (es = es' ∧ rest = rest') ∨ Absorbs es es' ∨ (∃ e ∈ es, entryText e <+: rest') ∨ ∃ e ∈ es', entryText e <+: rest := by
  induction es generalizing es' with
  | nil =>
    cases es' with
    | nil => exact .inl ⟨rfl, same⟩
    | cons e' es' =>
      refine .inr (.inr (.inr ⟨e', List.mem_cons_self, entriesText es' ++ rest', ?_⟩))
      rw [← List.append_assoc]
      exact same.symm
  | cons e es ih =>
    cases es' with
    | nil =>
      refine .inr (.inr (.inl ⟨e, List.mem_cons_self, entriesText es ++ rest, ?_⟩))
      rw [← List.append_assoc]
      exact same
    | cons e' es' =>
      have heads : entryText e ++ (entriesText es ++ rest) = entryText e' ++ (entriesText es' ++ rest') := by
        rw [← List.append_assoc, ← List.append_assoc]
        exact same
      rcases entryText_cases heads with ⟨rfl, tails⟩ | absorbs
      · rcases ih tails with ⟨rfl, rfl⟩ | ⟨f, member, f', member', absorbs⟩ | ⟨f, member, begins⟩ | ⟨f, member, begins⟩
        · exact .inl ⟨rfl, rfl⟩
        · exact .inr (.inl ⟨f, List.mem_cons_of_mem _ member, f', List.mem_cons_of_mem _ member', absorbs⟩)
        · exact .inr (.inr (.inl ⟨f, List.mem_cons_of_mem _ member, begins⟩))
        · exact .inr (.inr (.inr ⟨f, List.mem_cons_of_mem _ member, begins⟩))
      · exact .inr (.inl ⟨e, List.mem_cons_self, e', List.mem_cons_self, absorbs⟩)

/-- An entry at the beginning of a delimiter has the delimiter in its label. -/
theorem delimiter_prefix_label {delim rest : List Char} {e : List Char × Nat} (plain : '=' ∉ delim)
    (begins : entryText e <+: delim ++ rest) : delim <+: e.1 := by
  refine prefix_of_before_mark plain (List.prefix_append _ _) (List.IsPrefix.trans ?_ begins)
  exact ⟨decimal e.2 ++ [';'], by simp [entryText]⟩

/-- Before a delimiter without the mark, a list has one reading unless a label absorbs an entry or the delimiter. -/
theorem entriesText_before_delimiter {es es' : List (List Char × Nat)} {delim rest rest' : List Char}
    (plain : '=' ∉ delim) (same : entriesText es ++ (delim ++ rest) = entriesText es' ++ (delim ++ rest')) :
    (es = es' ∧ rest = rest') ∨ Absorbs es es' ∨ ∃ e, (e ∈ es ∨ e ∈ es') ∧ delim <+: e.1 := by
  rcases entriesText_cases same with ⟨listed, tails⟩ | absorbs | ⟨e, member, begins⟩ | ⟨e, member, begins⟩
  · exact .inl ⟨listed, List.append_cancel_left tails⟩
  · exact .inr (.inl absorbs)
  · exact .inr (.inr ⟨e, .inl member, delimiter_prefix_label plain begins⟩)
  · exact .inr (.inr ⟨e, .inr member, delimiter_prefix_label plain begins⟩)

/-- At the end of the text, a list has one reading unless a label absorbs an entry. -/
theorem entriesText_at_end {es es' : List (List Char × Nat)} (same : entriesText es = entriesText es') :
    es = es' ∨ Absorbs es es' := by
  have nonempty (e : List Char × Nat) : ¬entryText e <+: [] := by
    intro begins
    rw [List.prefix_nil] at begins
    have member := mark_mem_entryText e
    rw [begins] at member
    cases member
  have ended : entriesText es ++ [] = entriesText es' ++ [] := by rw [same]
  rcases entriesText_cases ended with ⟨listed, _⟩ | absorbs | ⟨e, _, begins⟩ | ⟨e, _, begins⟩
  · exact .inl listed
  · exact .inr absorbs
  · exact absurd begins (nonempty e)
  · exact absurd begins (nonempty e)

/-- The entries of two labels are also the one entry of a label that holds the first. -/
theorem entryText_absorb (e e' : List Char × Nat) : entryText (entryText e ++ e'.1, e'.2) = entryText e ++ entryText e' :=
  List.append_assoc _ _ _

end ConvergioMesh.Library
