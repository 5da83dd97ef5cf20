import Mathlib.Data.String.Basic
import ConvergioMesh.Library.Outbox

/-! The rule by which a round advances the cursor of a peer and table. -/

namespace ConvergioMesh

open Library

def cursorCandidate (exportedMax appliedMax : Option String) : Option String :=
  match exportedMax, appliedMax with
  | some a, some b => some (if b ≤ a then a else b)
  | some a, none | none, some a => some a
  | none, none => none

def capAt (roundStartAt c : String) : String := if c < roundStartAt then c else roundStartAt

def computeNewCursor (prevSince exportedMax appliedMax : Option String) (roundStartAt : String) : Option String :=
  let capped := (cursorCandidate exportedMax appliedMax).map (capAt roundStartAt)
  match capped.or prevSince, prevSince with
  | some a, some p => if a < p then some p else some a
  | a, _ => a

theorem not_lt_empty (s : String) : ¬s < "" := by
  rw [String.lt_iff_toList_lt]
  exact List.not_lt_nil _

theorem below_empty_iff {cursor : Option String} : Below cursor "" ↔ cursor = none := by
  refine ⟨fun below => ?_, ?_⟩
  · cases cursor with
    | none => rfl
    | some c => exact absurd (below c rfl) (not_lt_empty c)
  · rintro rfl
    exact below_none ""

theorem cursorCandidate_mem {exportedMax appliedMax : Option String} {c : String}
    (h : cursorCandidate exportedMax appliedMax = some c) : exportedMax = some c ∨ appliedMax = some c := by
  cases exportedMax with
  | none =>
    cases appliedMax with
    | none => cases h
    | some b => exact .inr h
  | some a =>
    cases appliedMax with
    | none => exact .inl h
    | some b =>
      obtain rfl := Option.some.inj h
      split
      · exact .inl rfl
      · exact .inr rfl

theorem cursorCandidate_below (exportedMax appliedMax : Option String) (u : String) :
    Below (cursorCandidate exportedMax appliedMax) u ↔ Below exportedMax u ∧ Below appliedMax u := by
  cases exportedMax with
  | none => cases appliedMax <;> simp [cursorCandidate]
  | some a =>
    cases appliedMax with
    | none => simp [cursorCandidate]
    | some b =>
      simp only [cursorCandidate, below_some]
      split
      · rename_i larger
        exact ⟨fun below => ⟨below, larger.trans_lt below⟩, And.left⟩
      · rename_i smaller
        exact ⟨fun below => ⟨(not_le.mp smaller).trans below, below⟩, And.right⟩

theorem capAt_lt {c start u : String} : capAt start c < u ↔ start < u ∨ c < u := by
  unfold capAt
  split
  · rename_i early
    exact ⟨.inr, fun below => below.elim (early.trans ·) id⟩
  · rename_i late
    exact ⟨.inl, fun below => below.elim id ((not_lt.mp late).trans_lt ·)⟩

theorem capAt_eq (start c : String) : capAt start c = c ∨ capAt start c = start := by
  unfold capAt
  split
  · exact .inl rfl
  · exact .inr rfl

/-- The three ways the rule ends: nothing exchanged, the capped candidate, or the old cursor kept. -/
theorem computeNewCursor_cases (prevSince exportedMax appliedMax : Option String) (roundStartAt : String) :
    (cursorCandidate exportedMax appliedMax = none ∧
        computeNewCursor prevSince exportedMax appliedMax roundStartAt = prevSince) ∨
      ∃ c, cursorCandidate exportedMax appliedMax = some c ∧
        ((Below prevSince (capAt roundStartAt c) ∨ prevSince = some (capAt roundStartAt c)) ∧
            computeNewCursor prevSince exportedMax appliedMax roundStartAt = some (capAt roundStartAt c) ∨
          ∃ p, prevSince = some p ∧ capAt roundStartAt c < p ∧
            computeNewCursor prevSince exportedMax appliedMax roundStartAt = some p) := by
  unfold computeNewCursor
  cases cursorCandidate exportedMax appliedMax with
  | none =>
    left
    refine ⟨rfl, ?_⟩
    cases prevSince with
    | none => rfl
    | some p =>
      simp only [Option.map_none, Option.none_or]
      split <;> rfl
  | some c =>
    right
    refine ⟨c, rfl, ?_⟩
    simp only [Option.map_some, Option.some_or]
    cases prevSince with
    | none => exact .inl ⟨.inl (below_none _), rfl⟩
    | some p =>
      rcases lt_trichotomy (capAt roundStartAt c) p with behind | same | ahead
      · exact .inr ⟨p, rfl, behind, if_pos behind⟩
      · exact .inl ⟨.inr (by rw [same]), if_neg same.not_lt⟩
      · exact .inl ⟨.inl (below_some.mpr ahead), if_neg ahead.not_gt⟩

theorem computeNewCursor_or (prevSince exportedMax appliedMax : Option String) (start : String) :
    (computeNewCursor prevSince exportedMax appliedMax start).or prevSince =
      computeNewCursor prevSince exportedMax appliedMax start := by
  rcases computeNewCursor_cases prevSince exportedMax appliedMax start with
    ⟨_, kept⟩ | ⟨_, _, ⟨_, taken⟩ | ⟨_, _, _, taken⟩⟩
  · rw [kept, Option.or_self]
  · rw [taken, Option.some_or]
  · rw [taken, Option.some_or]

theorem computeNewCursor_mem {prevSince exportedMax appliedMax : Option String} {roundStartAt c : String}
    (h : computeNewCursor prevSince exportedMax appliedMax roundStartAt = some c) :
    prevSince = some c ∨ exportedMax = some c ∨ appliedMax = some c ∨ c = roundStartAt := by
  rcases computeNewCursor_cases prevSince exportedMax appliedMax roundStartAt with
    ⟨_, kept⟩ | ⟨d, candidate, ⟨_, taken⟩ | ⟨p, prev, _, taken⟩⟩
  · exact .inl (kept.symm.trans h)
  · obtain rfl := Option.some.inj (taken.symm.trans h)
    rcases capAt_eq roundStartAt d with same | same <;> rw [same]
    · rcases cursorCandidate_mem candidate with exported | applied
      · exact .inr (.inl exported)
      · exact .inr (.inr (.inl applied))
    · exact .inr (.inr (.inr rfl))
  · exact .inl (prev.trans (taken.symm.trans h))

/-- The new cursor is below a timestamp exactly if the old one is and either the start of the round
or every exchanged row is. -/
theorem computeNewCursor_below (prevSince exportedMax appliedMax : Option String) (roundStartAt u : String) :
    Below (computeNewCursor prevSince exportedMax appliedMax roundStartAt) u ↔
      Below prevSince u ∧ (roundStartAt < u ∨ Below exportedMax u ∧ Below appliedMax u) := by
  rw [← cursorCandidate_below]
  rcases computeNewCursor_cases prevSince exportedMax appliedMax roundStartAt with
    ⟨nothing, kept⟩ | ⟨c, candidate, ⟨prev, taken⟩ | ⟨p, prev, behind, taken⟩⟩
  · rw [nothing, kept]
    exact ⟨fun below => ⟨below, .inr (below_none u)⟩, And.left⟩
  · rw [candidate, taken, below_some, below_some, capAt_lt]
    refine ⟨fun below => ⟨fun q held => ?_, below⟩, And.right⟩
    rcases prev with before | same
    · exact (before q held).trans (capAt_lt.mpr below)
    · rw [same] at held
      exact Option.some.inj held ▸ capAt_lt.mpr below
  · rw [candidate, taken, prev, below_some, below_some, ← capAt_lt]
    exact ⟨fun below => ⟨below, behind.trans below⟩, And.left⟩

theorem computeNewCursor_le {prevSince exportedMax appliedMax : Option String} {roundStartAt b c : String}
    (prev : ∀ p, prevSince = some p → p ≤ b) (start : roundStartAt ≤ b)
    (h : computeNewCursor prevSince exportedMax appliedMax roundStartAt = some c) : c ≤ b := by
  by_contra above
  rw [not_le] at above
  have below : Below (computeNewCursor prevSince exportedMax appliedMax roundStartAt) c :=
    (computeNewCursor_below ..).mpr ⟨fun p held => (prev p held).trans_lt above, .inl (start.trans_lt above)⟩
  exact lt_irrefl c (below c h)

end ConvergioMesh
