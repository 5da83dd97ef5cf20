import ConvergioMesh.Library.NormalForm
import ConvergioMesh.Peers.Sections

/-!
# Spellings of a name

Spellings that differ in letter case, surrounding white space or a trailing `.local`, and what the
canonical form makes of them. It takes off one suffix, and white space in front of it stays.
-/

namespace ConvergioMesh

open Library

variable {s t : Text}

/-- `.local` in any case. -/
def IsLocalSuffix (l : Text) : Prop := eqIgnoreAsciiCase l ".local".toList = true

def EndsLocal (s : Text) : Prop := ∃ name l, s = name ++ l ∧ IsLocalSuffix l

/-- In the trimmed text, the suffix stands behind white space or another suffix. -/
def LeavesRest (s : Text) : Prop :=
  ∃ name l, trim s = name ++ l ∧ IsLocalSuffix l ∧ ((∃ c, name.getLast? = some c ∧ isSpace c = true) ∨ EndsLocal name)

/-- One difference between two spellings. -/
inductive Respelling : Text → Text → Prop where
  | letterCase {s t : Text} (same : eqIgnoreAsciiCase s t = true) : Respelling s t
  | whiteSpace {left right : Text} (s : Text) (blank : ∀ c ∈ left ++ right, isSpace c = true) :
      Respelling s (left ++ s ++ right)
  | suffix {l : Text} (s : Text) (isLocal : IsLocalSuffix l) : Respelling s (s ++ l)

/-- The texts differ only in such ways. -/
def SameSpelling : Text → Text → Prop := Relation.EqvGen Respelling

/-- The text has a canonical name, which is its own canonical name. -/
def FixedName (s : Text) : Prop := ∃ name, canonicalPeerName s = some name ∧ canonicalPeerName name = some name

def SameName (s t : Text) : Prop := ∃ name, canonicalPeerName s = some name ∧ canonicalPeerName t = some name

/-! ### White space and letter case -/

theorem isSpace_toLower (c : Char) : isSpace c.toLower = isSpace c := by
  rcases toLower_cases c with same | ⟨low, high, moved⟩
  · rw [same]
  · have visible (d : Char) (above : 65 ≤ d.toNat) (below : d.toNat ≤ 122) : isSpace d = false := by
      simp [isSpace]
      omega
    rw [visible c low (by omega), visible c.toLower (by omega) (by omega)]

theorem trim_asciiLower (s : Text) : trim (asciiLower s) = asciiLower (trim s) := by
  have spaces : isSpace ∘ Char.toLower = isSpace := funext isSpace_toLower
  unfold trim asciiLower
  rw [List.dropWhile_map, spaces, List.rdropWhile, List.rdropWhile, ← List.map_reverse, List.dropWhile_map, spaces,
    List.map_reverse]

theorem asciiLower_append (s t : Text) : asciiLower (s ++ t) = asciiLower s ++ asciiLower t := List.map_append

/-! ### The suffix -/

theorem isLocalSuffix_iff {l : Text} : IsLocalSuffix l ↔ asciiLower l = ".local".toList := by
  have lower : asciiLower ".local".toList = ".local".toList := by decide
  rw [IsLocalSuffix, eqIgnoreAsciiCase, decide_eq_true_eq, lower]

theorem IsLocalSuffix.length {l : Text} (h : IsLocalSuffix l) : l.length = 6 := by
  rw [← length_asciiLower, isLocalSuffix_iff.mp h]
  rfl

theorem isLocalSuffix_asciiLower {l : Text} : IsLocalSuffix (asciiLower l) ↔ IsLocalSuffix l := by
  rw [isLocalSuffix_iff, isLocalSuffix_iff, asciiLower_asciiLower]

theorem IsLocalSuffix.solid {l : Text} (h : IsLocalSuffix l) : Solid l := by
  apply trim_eq_self_iff.mp
  apply trim_eq_self_of_length
  rw [← length_asciiLower (trim l), ← trim_asciiLower, isLocalSuffix_iff.mp h, h.length]
  decide

theorem stripLocal_append (name : Text) {l : Text} (isLocal : IsLocalSuffix l) : stripLocal (name ++ l) = name := by
  have cut : (name ++ l).length - 6 = name.length := by
    rw [List.length_append, isLocal.length]
    omega
  unfold stripLocal
  rw [cut, List.drop_left, List.take_left]
  apply if_pos
  refine ⟨?_, isLocal⟩
  rw [List.length_append, isLocal.length]
  omega

theorem stripLocal_of_not_endsLocal (h : ¬EndsLocal s) : stripLocal s = s := by
  apply if_neg
  rintro ⟨_, isLocal⟩
  exact h ⟨s.take (s.length - 6), s.drop (s.length - 6), (List.take_append_drop _ s).symm, isLocal⟩

theorem stripLocal_eq_self_iff : stripLocal s = s ↔ ¬EndsLocal s := by
  refine ⟨?_, stripLocal_of_not_endsLocal⟩
  rintro kept ⟨name, l, rfl, isLocal⟩
  rw [stripLocal_append name isLocal] at kept
  have shorter := congrArg List.length kept
  rw [List.length_append, isLocal.length] at shorter
  omega

theorem endsLocal_asciiLower : EndsLocal (asciiLower s) ↔ EndsLocal s := by
  constructor
  · rintro ⟨name, l, whole, isLocal⟩
    obtain ⟨name, l, rfl, rfl, rfl⟩ := List.map_eq_append_iff.mp whole
    exact ⟨name, l, rfl, isLocalSuffix_asciiLower.mp isLocal⟩
  · rintro ⟨name, l, rfl, isLocal⟩
    exact ⟨asciiLower name, asciiLower l, asciiLower_append name l, isLocalSuffix_asciiLower.mpr isLocal⟩

theorem asciiLower_stripLocal (s : Text) : asciiLower (stripLocal s) = stripLocal (asciiLower s) := by
  by_cases ends : EndsLocal s
  · obtain ⟨name, l, rfl, isLocal⟩ := ends
    rw [stripLocal_append name isLocal, asciiLower_append,
      stripLocal_append _ (isLocalSuffix_asciiLower.mpr isLocal)]
  · rw [stripLocal_of_not_endsLocal ends, stripLocal_of_not_endsLocal (mt endsLocal_asciiLower.mp ends)]

/-! ### Canonical forms -/

theorem canonical_congr (same : asciiLower (trim s) = asciiLower (trim t)) : canonical s = canonical t := by
  rw [canonical, canonical, asciiLower_stripLocal, asciiLower_stripLocal, same]

theorem canonical_asciiLower (s : Text) : canonical (asciiLower s) = canonical s := by
  apply canonical_congr
  rw [trim_asciiLower, asciiLower_asciiLower]

theorem canonical_append (s : Text) {l : Text} (isLocal : IsLocalSuffix l) :
    canonical (s ++ l) = asciiLower (s.dropWhile isSpace) := by
  have nonempty : l ≠ [] := List.ne_nil_of_length_pos (by rw [isLocal.length]; omega)
  rw [canonical, trim_append_solid s isLocal.solid nonempty, stripLocal_append _ isLocal]

/-- Once a suffix is off, the canonical form is that of the name. -/
theorem canonical_canonical_append (s : Text) {l : Text} (isLocal : IsLocalSuffix l) :
    canonical (canonical (s ++ l)) = canonical s := by
  rw [canonical_append s isLocal, canonical_asciiLower]
  apply canonical_congr
  rw [trim, trim, List.dropWhile_idempotent]

theorem canonical_eq_asciiLower_iff : canonical s = asciiLower s ↔ trim s = s ∧ ¬EndsLocal s := by
  constructor
  · intro kept
    have long : s.length ≤ (canonical s).length := by rw [kept, length_asciiLower]
    have trimmed := (canonical_of_length long).1
    refine ⟨trimmed, stripLocal_eq_self_iff.mp ((stripLocal_initial s).eq_of_length_le ?_)⟩
    rwa [canonical, length_asciiLower, trimmed] at long
  · rintro ⟨trimmed, ends⟩
    rw [canonical, trimmed, stripLocal_of_not_endsLocal ends]

theorem leavesRest_iff {name l : Text} (whole : trim s = name ++ l) (isLocal : IsLocalSuffix l) :
    LeavesRest s ↔ (∃ c, name.getLast? = some c ∧ isSpace c = true) ∨ EndsLocal name := by
  constructor
  · rintro ⟨name', l', whole', isLocal', leaves⟩
    have same : name' = name := by
      rw [← stripLocal_append name' isLocal', ← whole', whole, stripLocal_append name isLocal]
    rwa [same] at leaves
  · exact fun leaves => ⟨name, l, whole, isLocal, leaves⟩

/-- What stands before the suffix of a trimmed text begins visibly. -/
theorem trim_name_iff {name l : Text} (whole : trim s = name ++ l) :
    trim name = name ↔ ¬∃ c, name.getLast? = some c ∧ isSpace c = true := by
  rw [trim_eq_self_iff]
  constructor
  · rintro solid ⟨c, last, space⟩
    rw [solid.2 c last] at space
    cases space
  · intro noSpace
    constructor
    · intro c first
      apply (solid_trim s).1 c
      rw [whole, List.head?_append, first]
      rfl
    · intro c last
      rw [← Bool.not_eq_true]
      exact fun space => noSpace ⟨c, last, space⟩

/-- A canonical form is a fixed point exactly if the text leaves no suffix or white space behind. -/
theorem canonical_fixed_iff : canonical (canonical s) = canonical s ↔ ¬LeavesRest s := by
  have stripped : canonical (canonical s) = canonical s ↔
      trim (stripLocal (trim s)) = stripLocal (trim s) ∧ ¬EndsLocal (stripLocal (trim s)) := by
    rw [← canonical_eq_asciiLower_iff, ← canonical_asciiLower (stripLocal (trim s))]
    rfl
  rw [stripped]
  by_cases ends : EndsLocal (trim s)
  · obtain ⟨name, l, whole, isLocal⟩ := ends
    rw [leavesRest_iff whole isLocal, whole, stripLocal_append name isLocal, trim_name_iff whole, not_or]
  · rw [stripLocal_of_not_endsLocal ends]
    refine iff_of_true ⟨trim_of_solid (solid_trim s), ends⟩ ?_
    rintro ⟨name, l, whole, isLocal, _⟩
    exact ends ⟨name, l, whole, isLocal⟩

/-- Repeated canonicalisation brings two spellings together. -/
theorem Respelling.meets (h : Respelling s t) : Meets canonical s t := by
  cases h with
  | letterCase same =>
    apply meets_of_apply_eq
    rw [← canonical_asciiLower, of_decide_eq_true same, canonical_asciiLower]
  | whiteSpace s blank =>
    apply meets_of_apply_eq
    apply canonical_congr
    rw [trim_surround s blank]
  | suffix s isLocal =>
    have equivalence := meets_equivalence canonical
    have named : Meets canonical s (canonical (s ++ _)) := meets_of_apply_eq (canonical_canonical_append s isLocal).symm
    exact equivalence.trans named (equivalence.symm (meets_apply canonical _))

theorem canonical_eq_of_fixed (spelling : SameSpelling s t) (fixed : ¬LeavesRest s) (fixed' : ¬LeavesRest t) :
    canonical s = canonical t :=
  apply_eq_of_eqvGen (fun _ _ => Respelling.meets) spelling (canonical_fixed_iff.mpr fixed)
    (canonical_fixed_iff.mpr fixed')

/-- A text that ends in no suffix has the canonical name of another one only as a fixed point. -/
theorem fixed_of_canonical_eq (ends : ¬EndsLocal (trim s)) (same : canonical t = canonical s) :
    ¬LeavesRest s ∧ ¬LeavesRest t := by
  have fixed : ¬LeavesRest s := by
    rintro ⟨name, l, whole, isLocal, _⟩
    exact ends ⟨name, l, whole, isLocal⟩
  refine ⟨fixed, canonical_fixed_iff.mp ?_⟩
  rw [same, canonical_fixed_iff.mpr fixed]

/-- Two spellings with one canonical form leave nothing behind, or have the same suffixes. -/
theorem canonical_eq_cases (same : canonical s = canonical t) :
    (¬LeavesRest s ∧ ¬LeavesRest t) ∨ asciiLower (trim s) = asciiLower (trim t) := by
  by_cases ends : EndsLocal (trim s)
  · by_cases ends' : EndsLocal (trim t)
    · obtain ⟨name, l, whole, isLocal⟩ := ends
      obtain ⟨name', l', whole', isLocal'⟩ := ends'
      right
      rw [canonical, canonical, whole, whole', stripLocal_append name isLocal, stripLocal_append name' isLocal'] at same
      rw [whole, whole', asciiLower_append, asciiLower_append, same, isLocalSuffix_iff.mp isLocal,
        isLocalSuffix_iff.mp isLocal']
    · exact .inl (fixed_of_canonical_eq ends' same).symm
  · exact .inl (fixed_of_canonical_eq ends same.symm)

theorem fixedName_iff (ascii : IsAscii s) : FixedName s ↔ ¬LeavesRest s := by
  rw [← canonical_fixed_iff]
  unfold FixedName
  rw [ascii.canonicalPeerName]
  constructor
  · rintro ⟨_, ⟨⟩, again⟩
    exact Option.some.inj (ascii.canonical.canonicalPeerName.symm.trans again)
  · intro fixed
    exact ⟨canonical s, rfl, ascii.canonical.canonicalPeerName.trans (congrArg some fixed)⟩

theorem sameName_iff (ascii : IsAscii s) (ascii' : IsAscii t) : SameName s t ↔ canonical s = canonical t := by
  unfold SameName
  rw [ascii.canonicalPeerName, ascii'.canonicalPeerName]
  constructor
  · rintro ⟨_, ⟨⟩, same⟩
    exact (Option.some.inj same).symm
  · intro same
    exact ⟨canonical s, rfl, congrArg some same.symm⟩

/-- The keys of a parsed text are their own canonical names exactly if no section name leaves a rest. -/
theorem keys_fixed_iff {text secret : Text} {peers : Peers} (parsed : parseIni text = .ok (secret, peers))
    (ascii : ∀ s ∈ sections text, IsAscii s.name) :
    (∀ k ∈ peers, canonicalPeerName k = some k) ↔ ∀ s ∈ sections text, ¬s.IsMesh → ¬LeavesRest s.name := by
  constructor
  · intro fixed s listed other
    have named := (ascii s listed).canonicalPeerName
    have key := (parseIni_keys parsed).mpr ⟨s, listed, other, named⟩
    exact (fixedName_iff (ascii s listed)).mp ⟨_, named, fixed _ key⟩
  · intro settled k key
    obtain ⟨s, listed, other, named⟩ := (parseIni_keys parsed).mp key
    obtain ⟨name, named', fixed⟩ := (fixedName_iff (ascii s listed)).mpr (settled s listed other)
    obtain rfl := Option.some.inj (named.symm.trans named')
    exact fixed

/-- A canonical name is a fixed point exactly if the text leaves no suffix or white space behind. Spellings
of one name share their canonical name exactly if both are such, or no suffix tells them apart. -/
theorem canonicalPeerName_fixed_iff (ascii : IsAscii s) :
    (FixedName s ↔ ¬LeavesRest s) ∧
    ∀ t, IsAscii t → SameSpelling s t →
      (SameName s t ↔ (¬LeavesRest s ∧ ¬LeavesRest t) ∨ asciiLower (trim s) = asciiLower (trim t)) := by
  refine ⟨fixedName_iff ascii, fun t ascii' spelling => ?_⟩
  rw [sameName_iff ascii ascii']
  constructor
  · exact canonical_eq_cases
  · rintro (⟨fixed, fixed'⟩ | same)
    · exact canonical_eq_of_fixed spelling fixed fixed'
    · exact canonical_congr same

theorem m5max_spellings :
    FixedName "  M5Max.LOCAL ".toList ∧ FixedName "m5max".toList ∧
      SameName "  M5Max.LOCAL ".toList "m5max".toList := by
  have fixed : FixedName "  M5Max.LOCAL ".toList := ⟨"m5max".toList, by decide, by decide⟩
  have fixed' : FixedName "m5max".toList := ⟨"m5max".toList, by decide, by decide⟩
  have ascii : IsAscii "  M5Max.LOCAL ".toList := by decide
  have ascii' : IsAscii "m5max".toList := by decide
  have settled := (canonicalPeerName_fixed_iff ascii).1.mp fixed
  have settled' := (canonicalPeerName_fixed_iff ascii').1.mp fixed'
  have capitals : Respelling "  M5Max.LOCAL ".toList ("  ".toList ++ "m5max.local".toList ++ " ".toList) :=
    .letterCase (by decide)
  have spaces : Respelling "m5max.local".toList ("  ".toList ++ "m5max.local".toList ++ " ".toList) :=
    .whiteSpace _ (List.all_eq_true.mp (by decide))
  have suffix : Respelling "m5max".toList ("m5max".toList ++ ".local".toList) := .suffix _ rfl
  have spelling : SameSpelling "  M5Max.LOCAL ".toList "m5max".toList :=
    .trans _ _ _ (.rel _ _ capitals) (.trans _ _ _ (.symm _ _ (.rel _ _ spaces)) (.symm _ _ (.rel _ _ suffix)))
  exact ⟨fixed, fixed', ((canonicalPeerName_fixed_iff ascii).2 _ ascii' spelling).mpr (.inl ⟨settled, settled'⟩)⟩

/-- Of two suffixes one is taken off, and of a suffix behind white space the white space stays. -/
theorem second_suffix_stays :
    canonicalPeerName "m5.local.local".toList = some "m5.local".toList ∧
      canonicalPeerName "m5 .local".toList = some "m5 ".toList ∧
      ¬FixedName "m5.local.local".toList ∧ ¬FixedName "m5 .local".toList ∧
      SameSpelling "m5.local".toList "m5.local.local".toList ∧
      ¬SameName "m5.local".toList "m5.local.local".toList := by
  have twice : canonicalPeerName "m5.local.local".toList = some "m5.local".toList := by decide
  have blank : canonicalPeerName "m5 .local".toList = some "m5 ".toList := by decide
  refine ⟨twice, blank, ?_, ?_, .rel _ _ (.suffix "m5.local".toList (l := ".local".toList) rfl), ?_⟩
  · rintro ⟨name, first, again⟩
    obtain rfl := Option.some.inj (twice.symm.trans first)
    exact absurd again (by decide)
  · rintro ⟨name, first, again⟩
    obtain rfl := Option.some.inj (blank.symm.trans first)
    exact absurd again (by decide)
  · rintro ⟨name, first, second⟩
    obtain rfl := Option.some.inj (twice.symm.trans second)
    exact absurd first (by decide)

end ConvergioMesh
