import Mathlib.Algebra.Order.BigOperators.Group.List
import Mathlib.Algebra.Order.Monoid.Unbundled.Basic
import Mathlib.Algebra.Order.Ring.Nat
import Mathlib.Data.List.DropRight
import Mathlib.Data.List.Nodup

/-!
# Texts as lists of characters

Trimming, lines and splitting as the standard library of Rust has them.
-/

namespace ConvergioMesh.Library

abbrev Text := List Char

/-- `char::is_whitespace`: White_Space of Unicode. -/
def isSpace (c : Char) : Bool :=
  (9 ≤ c.toNat && c.toNat ≤ 13) || c.toNat == 0x20 || c.toNat == 0x85 || c.toNat == 0xA0 || c.toNat == 0x1680 ||
    (0x2000 ≤ c.toNat && c.toNat ≤ 0x200A) || c.toNat == 0x2028 || c.toNat == 0x2029 || c.toNat == 0x202F ||
    c.toNat == 0x205F || c.toNat == 0x3000

def trim (s : Text) : Text := (s.dropWhile isSpace).rdropWhile isSpace

theorem trim_sublist (s : Text) : (trim s).Sublist s :=
  (List.rdropWhile_prefix isSpace _).sublist.trans (List.dropWhile_suffix isSpace).sublist

theorem mem_of_mem_trim {s : Text} {c : Char} (member : c ∈ trim s) : c ∈ s := (trim_sublist s).mem member

theorem trim_eq_self_of_length {s : Text} (h : s.length ≤ (trim s).length) : trim s = s :=
  (trim_sublist s).eq_of_length_le h

/-- Neither the first nor the last character is white space. -/
def Solid (s : Text) : Prop :=
  (∀ c, s.head? = some c → isSpace c = false) ∧ ∀ c, s.getLast? = some c → isSpace c = false

theorem trim_of_solid {s : Text} (h : Solid s) : trim s = s := by
  have kept : s.dropWhile isSpace = s := by
    cases s with
    | nil => rfl
    | cons c rest =>
      apply List.dropWhile_cons_of_neg
      simp [h.1 c rfl]
  rw [trim, kept, List.rdropWhile_eq_self_iff]
  intro nonempty
  simp [h.2 _ (List.getLast?_eq_some_getLast nonempty)]

theorem solid_trim (s : Text) : Solid (trim s) := by
  constructor
  · intro c first
    obtain ⟨rest, kept⟩ := List.head?_eq_some_iff.mp first
    have start : (s.dropWhile isSpace).head? = some c := by
      obtain ⟨dropped, whole⟩ := List.rdropWhile_prefix isSpace (s.dropWhile isSpace)
      rw [← trim, kept] at whole
      simp [← whole]
    have solid := List.head?_dropWhile_not isSpace s
    rw [start] at solid
    simpa using solid
  · intro c last
    have nonempty : trim s ≠ [] := by
      intro none
      rw [none] at last
      cases last
    have solid := List.rdropWhile_last_not isSpace (s.dropWhile isSpace) nonempty
    rw [List.getLast?_eq_some_getLast nonempty] at last
    rw [← Option.some.inj last]
    simpa [trim] using solid

theorem trim_eq_self_iff {s : Text} : trim s = s ↔ Solid s :=
  ⟨fun same => same ▸ solid_trim s, trim_of_solid⟩

theorem trim_append_blank (s : Text) {right : Text} (blank : ∀ c ∈ right, isSpace c = true) :
    trim (s ++ right) = trim s := by
  rw [trim, trim, List.dropWhile_append]
  split
  · rename_i empty
    rw [List.isEmpty_iff.mp empty, List.dropWhile_eq_nil_iff.mpr blank]
  · rw [List.rdropWhile, List.reverse_append,
      List.dropWhile_append_of_pos fun c member => blank c (List.mem_reverse.mp member)]
    rfl

/-- Surrounding white space makes no difference. -/
theorem trim_surround {left right : Text} (s : Text) (blank : ∀ c ∈ left ++ right, isSpace c = true) :
    trim (left ++ s ++ right) = trim s := by
  have before : ∀ c ∈ left, isSpace c = true := fun c member => blank c (List.mem_append_left _ member)
  have after : ∀ c ∈ right, isSpace c = true := fun c member => blank c (List.mem_append_right _ member)
  rw [trim_append_blank _ after, trim, List.dropWhile_append_of_pos before]
  rfl

theorem trim_append_solid (s : Text) {t : Text} (solid : Solid t) (nonempty : t ≠ []) :
    trim (s ++ t) = s.dropWhile isSpace ++ t := by
  have kept : (s ++ t).dropWhile isSpace = s.dropWhile isSpace ++ t := by
    rw [List.dropWhile_append]
    split
    · rename_i empty
      cases t with
      | nil => exact absurd rfl nonempty
      | cons c t =>
        rw [List.isEmpty_iff.mp empty]
        exact List.dropWhile_cons_of_neg (by simp [solid.1 c rfl])
    · rfl
  rw [trim, kept, List.rdropWhile_eq_self_iff]
  intro whole
  have last := solid.2 _ (List.getLast?_eq_some_getLast nonempty)
  rw [List.getLast_append_of_right_ne_nil _ _ nonempty, last]
  exact Bool.false_ne_true

theorem trim_cons_prefix {c : Char} (solid : isSpace c = false) (s : Text) : trim (c :: s) <+: c :: s := by
  rw [trim, List.dropWhile_cons_of_neg (by simp [solid])]
  exact List.rdropWhile_prefix isSpace _

theorem Solid.enclose {s u : Text} (left : Solid s) (start : s ≠ []) (right : Solid u) (finish : u ≠ []) (t : Text) :
    Solid (s ++ t ++ u) := by
  constructor
  · intro c first
    apply left.1 c
    rwa [List.append_assoc, List.head?_append_of_ne_nil _ start] at first
  · intro c last
    apply right.2 c
    rwa [List.getLast?_append_of_ne_nil _ finish] at last

/-- The line before a line feed, without the carriage return in front of it. -/
def dropCr (line : Text) : Text := if line.getLast? = some '\r' then line.dropLast else line

def linesFrom (line : Text) : Text → List Text
  | [] => if line = [] then [] else [line]
  | c :: rest => if c = '\n' then dropCr line :: linesFrom [] rest else linesFrom (line ++ [c]) rest

/-- `str::lines`. -/
def lines (s : Text) : List Text := linesFrom [] s

theorem linesFrom_skip {line : Text} (done rest : Text) (whole : '\n' ∉ line) :
    linesFrom done (line ++ rest) = linesFrom (done ++ line) rest := by
  induction line generalizing done with
  | nil => simp
  | cons c line ih =>
    rw [List.mem_cons, not_or] at whole
    rw [List.cons_append, linesFrom, if_neg (Ne.symm whole.1), ih _ whole.2]
    simp

theorem linesFrom_append {line : Text} (done rest : Text) (whole : '\n' ∉ line) :
    linesFrom done (line ++ '\n' :: rest) = dropCr (done ++ line) :: lines rest := by
  rw [linesFrom_skip _ _ whole]
  rfl

theorem lines_append {line : Text} (rest : Text) (whole : '\n' ∉ line) :
    lines (line ++ '\n' :: rest) = dropCr line :: lines rest := linesFrom_append [] rest whole

/-- The lines that begin within a text, when a line break is written after it. -/
def laterLines (s : Text) : List Text := (lines (s ++ ['\n'])).tail

theorem linesFrom_break (done s rest : Text) :
    linesFrom done (s ++ '\n' :: rest) = linesFrom done (s ++ ['\n']) ++ lines rest := by
  induction s generalizing done with
  | nil => rfl
  | cons c s ih =>
    simp only [List.cons_append, linesFrom]
    split
    · rw [ih, List.cons_append]
    · exact ih _

theorem linesFrom_first (done s : Text) :
    ∃ x, linesFrom done (s ++ ['\n']) = dropCr (done ++ x) :: laterLines s := by
  induction s generalizing done with
  | nil => exact ⟨[], by rw [List.append_nil]; rfl⟩
  | cons c s ih =>
    unfold laterLines lines
    simp only [List.cons_append, linesFrom]
    split
    · exact ⟨[], by rw [List.append_nil]; rfl⟩
    · obtain ⟨x, first⟩ := ih (done ++ [c])
      obtain ⟨_, later⟩ := ih [c]
      exact ⟨c :: x, by rw [first, List.nil_append, later, List.append_assoc]; rfl⟩

theorem dropCr_sublist (line : Text) : (dropCr line).Sublist line := by
  unfold dropCr
  split
  · exact List.dropLast_sublist line
  · exact .refl line

theorem dropCr_cons (c d : Char) (s : Text) : dropCr (c :: d :: s) = c :: dropCr (d :: s) := by
  unfold dropCr
  rw [List.getLast?_cons_cons]
  split <;> rfl

theorem dropCr_of_solid {line : Text} (h : Solid line) : dropCr line = line := by
  apply if_neg
  intro last
  exact absurd (h.2 _ last) (by decide)

theorem newline_not_mem_linesFrom {done s line : Text} (whole : '\n' ∉ done) (member : line ∈ linesFrom done s) :
    '\n' ∉ line := by
  induction s generalizing done with
  | nil =>
    unfold linesFrom at member
    split at member
    · cases member
    · rw [List.mem_singleton] at member
      rwa [member]
  | cons c rest ih =>
    unfold linesFrom at member
    split at member
    · rcases List.mem_cons.mp member with rfl | later
      · exact fun inside => whole ((dropCr_sublist done).mem inside)
      · exact ih List.not_mem_nil later
    · rename_i other
      apply ih _ member
      simp [whole, Ne.symm other]

theorem newline_not_mem_lines {s line : Text} (member : line ∈ lines s) : '\n' ∉ line :=
  newline_not_mem_linesFrom List.not_mem_nil member

/-- `split_once`, and the two sides of the first `find`. -/
def splitOnce (sep : Char) : Text → Option (Text × Text)
  | [] => none
  | c :: rest => if c = sep then some ([], rest) else (splitOnce sep rest).map fun p => (c :: p.1, p.2)

theorem splitOnce_append {sep : Char} {s : Text} (t : Text) (absent : sep ∉ s) :
    splitOnce sep (s ++ sep :: t) = some (s, t) := by
  induction s with
  | nil => simp [splitOnce]
  | cons c s ih =>
    rw [List.mem_cons, not_or] at absent
    rw [List.cons_append, splitOnce, if_neg (Ne.symm absent.1), ih absent.2]
    rfl

theorem eq_of_splitOnce {sep : Char} {s a b : Text} (h : splitOnce sep s = some (a, b)) : s = a ++ sep :: b := by
  induction s generalizing a with
  | nil => cases h
  | cons c s ih =>
    unfold splitOnce at h
    split at h
    · rename_i here
      cases h
      rw [here]
      rfl
    · obtain ⟨⟨a', b'⟩, found, same⟩ := Option.map_eq_some_iff.mp h
      cases same
      rw [ih found]
      rfl

theorem mem_of_mem_splitOn {sep : Char} {s f : Text} (field : f ∈ s.splitOn sep) {c : Char} (member : c ∈ f) :
    c ∈ s ∧ c ≠ sep := by
  induction s generalizing f with
  | nil =>
    obtain rfl : f = [] := by simpa using field
    cases member
  | cons x xs ih =>
    rw [List.splitOn_cons_eq_if_modifyHead] at field
    split at field
    · rcases List.mem_cons.mp field with rfl | later
      · cases member
      · exact (ih later member).imp_left (List.mem_cons_of_mem _)
    · rename_i other
      cases rest : xs.splitOn sep with
      | nil => exact absurd rest (List.splitOn_ne_nil sep xs)
      | cons g gs =>
        rw [rest, List.modifyHead_cons] at field
        rw [rest] at ih
        rcases List.mem_cons.mp field with rfl | later
        · rcases List.mem_cons.mp member with rfl | inside
          · exact ⟨List.mem_cons_self, by simpa using other⟩
          · exact (ih List.mem_cons_self inside).imp_left (List.mem_cons_of_mem _)
        · exact (ih (List.mem_cons_of_mem _ later) member).imp_left (List.mem_cons_of_mem _)

/-! ### ASCII letters -/

theorem toLower_cases (c : Char) :
    c.toLower = c ∨ 65 ≤ c.toNat ∧ c.toNat ≤ 90 ∧ c.toLower.toNat = c.toNat + 32 := by
  unfold Char.toLower
  split
  · rename_i upper
    right
    have low : 65 ≤ c.toNat := UInt32.le_iff_toNat_le.mp upper.1
    have high : c.toNat ≤ 90 := UInt32.le_iff_toNat_le.mp upper.2
    refine ⟨low, high, ?_⟩
    change (c.val + 32).toNat = c.val.toNat + 32
    rw [UInt32.toNat_add]
    simp
    omega
  · exact .inl rfl

theorem eq_of_toLower {c d : Char} (h : c.toLower = d) (other : d.toNat < 97 ∨ 122 < d.toNat) : c = d := by
  rcases toLower_cases c with same | ⟨low, high, moved⟩
  · exact same.symm.trans h
  · rw [h] at moved
    omega

theorem toLower_toLower (c : Char) : c.toLower.toLower = c.toLower := by
  rcases toLower_cases c.toLower with same | ⟨low, high, moved⟩
  · exact same
  · rcases toLower_cases c with same | ⟨low', high', moved'⟩
    · rw [same]
      exact same
    · omega

/-! ### Weights -/

variable {α : Type} {l : List α}

theorem map_eq_of_sum_le {g h : α → Nat} (le : ∀ a ∈ l, g a ≤ h a) (total : (l.map h).sum ≤ (l.map g).sum) :
    ∀ a ∈ l, g a = h a := by
  induction l with
  | nil => nofun
  | cons a l ih =>
    rw [List.forall_mem_cons] at le
    have rest := List.sum_le_sum le.2
    simp only [List.map_cons, List.sum_cons] at total
    have first : g a = h a := by omega
    exact List.forall_mem_cons.mpr ⟨first, ih le.2 (by omega)⟩

/-- A partial map of a list onto itself that raises no weight is total and keeps every weight. -/
theorem weight_kept (distinct : l.Nodup) {f : α → Option α} {w : α → Nat}
    (shrinks : ∀ a ∈ l, ∀ b, f a = some b → w b ≤ w a) (covers : ∀ a ∈ l, ∃ b ∈ l, f b = some a) :
    ∀ a ∈ l, ∃ b, f a = some b ∧ w b = w a := by
  have included : l ⊆ l.filterMap f := by
    intro a member
    obtain ⟨b, listed, image⟩ := covers a member
    exact List.mem_filterMap.mpr ⟨b, listed, image⟩
  have same : l.Perm (l.filterMap f) :=
    (List.subperm_of_subset distinct included).perm_of_length_le (List.length_filterMap_le f l)
  have image_sum (l' : List α) : ((l'.filterMap f).map fun b => w b + 1).sum =
      (l'.map fun a => (f a).elim 0 fun b => w b + 1).sum := by
    induction l' with
    | nil => rfl
    | cons a l' ih =>
      rw [List.filterMap_cons, List.map_cons, List.sum_cons, ← ih]
      cases f a with
      | none => simp
      | some b => rfl
  have total := (same.map fun b => w b + 1).sum_eq
  rw [image_sum] at total
  have below : ∀ a ∈ l, ((f a).elim 0 fun b => w b + 1) ≤ w a + 1 := by
    intro a member
    cases image : f a with
    | none => exact Nat.zero_le _
    | some b => exact Nat.succ_le_succ (shrinks a member b image)
  intro a member
  have kept := map_eq_of_sum_le below total.le a member
  cases image : f a with
  | none =>
    rw [image] at kept
    cases kept
  | some b =>
    rw [image] at kept
    exact ⟨b, rfl, Nat.succ.inj kept⟩

end ConvergioMesh.Library
