import ConvergioMesh.Capability.Query
import ConvergioMesh.Library.Dotted

/-!
# The minimum version of a query

Versions are compared as texts. On `major.minor.patch` this is the order of the numbers as long as
the first numbers that differ are ordered alike as texts.
-/

namespace ConvergioMesh

open Library

structure Version where
  major : Nat
  minor : Nat
  patch : Nat

namespace Version

def parts (v : Version) : List Nat := [v.major, v.minor, v.patch]

/-- `major.minor.patch`, without leading zeros. -/
def text (v : Version) : String := String.ofList (dotted v.parts)

/-- The component-wise order of the numbers. -/
def AtLeast (v minVer : Version) : Prop :=
  minVer.major < v.major ∨ minVer.major = v.major ∧
    (minVer.minor < v.minor ∨ minVer.minor = v.minor ∧ minVer.patch ≤ v.patch)

instance (v minVer : Version) : Decidable (v.AtLeast minVer) := inferInstanceAs (Decidable (_ ∨ _ ∧ (_ ∨ _ ∧ _)))

theorem atLeast_iff {v minVer : Version} : v.AtLeast minVer ↔ ¬v.parts < minVer.parts := by
  simp only [AtLeast, parts, List.cons_lt_cons_iff, List.not_lt_nil, and_false, or_false]
  omega

/-- The first numbers of the two that differ are ordered alike as numbers and as texts. -/
abbrev Alike (v minVer : Version) : Prop := DottedAlike v.parts minVer.parts

theorem text_lt_iff {v minVer : Version} : v.text < minVer.text ↔ dotted v.parts < dotted minVer.parts := by
  rw [String.lt_iff_toList_lt, text, text, String.toList_ofList, String.toList_ofList]

theorem passes_iff {v minVer : Version} : (¬v.text < minVer.text ↔ v.AtLeast minVer) ↔ v.Alike minVer := by
  rw [text_lt_iff, atLeast_iff, not_iff_not]
  exact dotted_lt_iff rfl

end Version

variable {c : CapabilityCodec} {scan : List CapabilityRow → List CapabilityRow}
  {iterate : List CapabilityMatch → List CapabilityMatch} {t : CapabilityTable} {q : CapabilityQuery}

/-- The capability is among the matched ones of its peer. -/
def TakenIntoAccount (ms : List CapabilityMatch) (r : CapabilityRow) : Prop :=
  ∃ m ∈ ms, m.peerName = r.peerName ∧ r.capabilityName ∈ m.matchedCapabilities

instance (ms : List CapabilityMatch) (r : CapabilityRow) : Decidable (TakenIntoAccount ms r) :=
  inferInstanceAs (Decidable (∃ m ∈ ms, _))

theorem taken_iff (permutes : ∀ rows, (scan rows).Perm rows) (permutes' : ∀ ms, (iterate ms).Perm ms)
    {r : CapabilityRow} (listed : r ∈ t.rows) (matched : matchedTags c q r ≠ []) :
    TakenIntoAccount (queryCapablePeers c scan iterate t q) r ↔ passesVersion q r = true := by
  have nonempty : q.requiredTags ≠ [] := by
    intro empty
    exact matched (by rw [matchedTags, CapabilityQuery.required, empty]; rfl)
  have included : r ∈ counted c q (scan t.rows) r.peerName ↔ passesVersion q r = true := by
    simp [counted, counts, (permutes t.rows).mem_iff, listed, matched]
  rw [← included]
  constructor
  · rintro ⟨m, member, peer, name⟩
    obtain ⟨_, names, _⟩ := (mem_queryCapablePeers permutes' nonempty).mp member
    rw [names, peer] at name
    obtain ⟨s, isCounted, same⟩ := List.mem_map.mp name
    have held := List.mem_filter.mp isCounted
    have own : s.peerName = r.peerName := by
      have both := held.2
      simp only [Bool.and_eq_true, decide_eq_true_eq] at both
      exact both.2
    have key : s.key = r.key := Prod.ext own same
    rwa [t.eq_of_key ((permutes _).mem_iff.mp held.1) listed key] at isCounted
  · intro isCounted
    let m := tally c q r.peerName (counted c q (scan t.rows) r.peerName)
    exact ⟨{ m with score := m.score / q.requiredTags.length }, (mem_queryCapablePeers permutes' nonempty).mpr
      ⟨List.ne_nil_of_mem isCounted, rfl, rfl⟩, rfl, List.mem_map_of_mem isCounted⟩

/-- For versions of three numbers, the filter keeps the capabilities from the minimum version on exactly if each
capability with a required tag is ordered alike to it as numbers and as texts. -/
theorem min_version_iff (permutes : ∀ rows, (scan rows).Perm rows) (permutes' : ∀ ms, (iterate ms).Perm ms)
    {minVer : Version} (bound : q.minVersion = some minVer.text) (version : CapabilityRow → Version)
    (dotted : ∀ r ∈ t.rows, r.capabilityVersion = (version r).text) :
    (∀ r ∈ t.rows, matchedTags c q r ≠ [] →
        (TakenIntoAccount (queryCapablePeers c scan iterate t q) r ↔ (version r).AtLeast minVer)) ↔
      ∀ r ∈ t.rows, matchedTags c q r ≠ [] → (version r).Alike minVer := by
  refine forall₃_congr fun r listed matched => ?_
  have passes : passesVersion q r = true ↔ ¬(version r).text < minVer.text := by
    rw [passesVersion, bound, dotted r listed, Bool.not_eq_true', decide_eq_false_iff_not]
  rw [taken_iff permutes permutes' listed matched, passes, Version.passes_iff]

def llmRow : CapabilityRow := tagRow "m4" "llm" "1.10.0" "[\"gpu\"]"

def ttsRow : CapabilityRow := tagRow "m4" "tts" "1.12.3" "[\"gpu\"]"

def versionTable : CapabilityTable where
  rows := [llmRow, ttsRow]
  distinct := by decide

def atLeast (minVer : Version) : CapabilityQuery := ⟨[.gpu], some minVer.text⟩

/-- The versions of the two rows. -/
def rowVersion (r : CapabilityRow) : Version := if r = llmRow then ⟨1, 10, 0⟩ else ⟨1, 12, 3⟩

theorem versions_of_table : ∀ r ∈ versionTable.rows, r.capabilityVersion = (rowVersion r).text := by decide

theorem min_version_kept :
    TakenIntoAccount (queryCapablePeers tagCodec id id versionTable (atLeast ⟨1, 11, 7⟩)) llmRow ↔
      (rowVersion llmRow).AtLeast ⟨1, 11, 7⟩ :=
  (min_version_iff (fun rows => .refl rows) (fun ms => .refl ms) rfl rowVersion versions_of_table).mpr (by decide) llmRow
    (by decide) (by decide)

/-- As texts `1.10.0` comes before `1.9.0`. -/
theorem tenth_minor_dropped :
    (∀ r ∈ versionTable.rows, r.capabilityVersion = (rowVersion r).text) ∧
      llmRow ∈ versionTable.rows ∧ matchedTags tagCodec (atLeast ⟨1, 9, 0⟩) llmRow ≠ [] ∧
      (rowVersion llmRow).AtLeast ⟨1, 9, 0⟩ ∧
      ¬TakenIntoAccount (queryCapablePeers tagCodec id id versionTable (atLeast ⟨1, 9, 0⟩)) llmRow :=
  ⟨versions_of_table, by decide, by decide, by decide, by decide⟩

end ConvergioMesh
