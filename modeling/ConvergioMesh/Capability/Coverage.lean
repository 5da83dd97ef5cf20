import Mathlib.Algebra.Order.Field.Basic
import ConvergioMesh.Capability.Query
import ConvergioMesh.Library.Incidence

/-!
# Ranking by coverage

A score is the number of required tags that the capabilities of a peer carry, where a tag counts once
for each capability with it.
-/

namespace ConvergioMesh

open Library

/-- The stored tags can be read, and the tag is among them. -/
def CapabilityRow.carries (c : CapabilityCodec) (r : CapabilityRow) (tag : CapabilityTag) : Bool :=
  (c.readTags r.tagsJson).any fun tags => tag.text ∈ tags

/-- A capability of the peer carries the tag. -/
def HasTag (c : CapabilityCodec) (t : CapabilityTable) (p : String) (tag : CapabilityTag) : Prop :=
  ∃ r ∈ t.rows, r.peerName = p ∧ r.carries c tag = true

/-- No two capabilities of one peer carry the tag. -/
def CarriedOnce (c : CapabilityCodec) (t : CapabilityTable) (tag : CapabilityTag) : Prop :=
  ∀ r ∈ t.rows, ∀ r' ∈ t.rows, r.peerName = r'.peerName → r.carries c tag = true → r'.carries c tag = true → r = r'

instance (c : CapabilityCodec) (t : CapabilityTable) (p : String) (tag : CapabilityTag) : Decidable (HasTag c t p tag) :=
  inferInstanceAs (Decidable (∃ r ∈ t.rows, _))

instance (c : CapabilityCodec) (t : CapabilityTable) (tag : CapabilityTag) : Decidable (CarriedOnce c t tag) :=
  inferInstanceAs (Decidable (∀ r ∈ t.rows, ∀ r' ∈ t.rows, _))

/-- Scores are between 0 and 1 and grow with the set of carried tags, and whoever is ranked above a peer with all
tags has all of them too. -/
structure RankedByCoverage (c : CapabilityCodec) (t : CapabilityTable) (tags : List CapabilityTag)
    (ms : List CapabilityMatch) : Prop where
  bounded : ∀ m ∈ ms, 0 ≤ m.score ∧ m.score ≤ 1
  monotone : ∀ m ∈ ms, ∀ m' ∈ ms,
    (∀ tag ∈ tags, HasTag c t m'.peerName tag → HasTag c t m.peerName tag) → m'.score ≤ m.score
  complete : ms.Pairwise fun m m' =>
    (∀ tag ∈ tags, HasTag c t m'.peerName tag) → ∀ tag ∈ tags, HasTag c t m.peerName tag

variable {c : CapabilityCodec}

/-- A capability of the peer that carries the tag. -/
def provides (c : CapabilityCodec) (p : String) (r : CapabilityRow) (tag : CapabilityTag) : Bool :=
  decide (r.peerName = p) && r.carries c tag

theorem carries_eq (r : CapabilityRow) (tag : CapabilityTag) : r.carries c tag = decide (tag.text ∈ r.tags c) := by
  unfold CapabilityRow.carries CapabilityRow.tags
  cases c.readTags r.tagsJson <;> simp

theorem matchedTags_length (q : CapabilityQuery) (r : CapabilityRow) :
    (matchedTags c q r).length = q.requiredTags.countP (r.carries c) := by
  rw [matchedTags, CapabilityQuery.required, ← List.countP_eq_length_filter, List.countP_map]
  refine List.countP_congr fun tag _ => ?_
  rw [carries_eq]
  rfl

/-- Without a version bound, the score before division counts the pairs of a capability and a required tag that it
carries. -/
theorem total_counted (tags : List CapabilityTag) (rows : List CapabilityRow) (p : String) :
    total c ⟨tags, none⟩ (counted c ⟨tags, none⟩ rows p) = (rows.map fun r => tags.countP (provides c p r)).sum := by
  induction rows with
  | nil => rfl
  | cons r rows ih =>
    have step : total c ⟨tags, none⟩ (counted c ⟨tags, none⟩ (r :: rows) p) =
        tags.countP (provides c p r) + total c ⟨tags, none⟩ (counted c ⟨tags, none⟩ rows p) := by
      by_cases here : r.peerName = p
      · have own : provides c p r = r.carries c := by
          funext tag
          rw [provides, decide_eq_true here, Bool.true_and]
        have length := matchedTags_length (c := c) ⟨tags, none⟩ r
        rw [own, ← length]
        by_cases none : matchedTags c ⟨tags, .none⟩ r = []
        · simp [counted, counts, none]
        · simp [counted, counts, passesVersion, none, here, total]
      · have foreign : provides c p r = fun _ => false := by
          funext tag
          rw [provides, decide_eq_false here, Bool.false_and]
        rw [foreign]
        simp [counted, here]
    rw [step, ih, List.map_cons, List.sum_cons]

section

variable {scan : List CapabilityRow → List CapabilityRow} (permutes : ∀ rows, (scan rows).Perm rows)
  {iterate : List CapabilityMatch → List CapabilityMatch} (permutes' : ∀ ms, (iterate ms).Perm ms)
  {t : CapabilityTable} {tags : List CapabilityTag}

include permutes permutes'

theorem score_eq_incidences (nonempty : tags ≠ []) {m : CapabilityMatch}
    (member : m ∈ queryCapablePeers c scan iterate t ⟨tags, none⟩) :
    m.score = (t.rows.map fun r => tags.countP (provides c m.peerName r)).sum / tags.length := by
  obtain ⟨_, _, score⟩ := (mem_queryCapablePeers permutes' (q := ⟨tags, none⟩) nonempty).mp member
  rw [score, total_counted, ((permutes t.rows).map _).sum_eq]

/-- If no required tag is carried twice, the score is the share of the required tags that the peer has. -/
theorem score_eq_share (nonempty : tags ≠ []) (once : ∀ tag ∈ tags, CarriedOnce c t tag) {m : CapabilityMatch}
    (member : m ∈ queryCapablePeers c scan iterate t ⟨tags, none⟩) :
    m.score = (tags.countP fun tag => t.rows.any (provides c m.peerName · tag) : Nat) / tags.length := by
  have distinct : t.rows.Nodup := t.distinct.of_map _
  have unique : ∀ tag ∈ tags, ∀ r ∈ t.rows, ∀ r' ∈ t.rows, provides c m.peerName r tag = true →
      provides c m.peerName r' tag = true → r = r' := by
    intro tag listed r hr r' hr' has has'
    simp only [provides, Bool.and_eq_true, decide_eq_true_eq] at has has'
    exact once tag listed r hr r' hr' (has.1.trans has'.1.symm) has.2 has'.2
  rw [score_eq_incidences permutes permutes' nonempty member, sum_countP_of_unique distinct unique]

theorem ranked_of_once (nonempty : tags ≠ []) (once : ∀ tag ∈ tags, CarriedOnce c t tag) :
    RankedByCoverage c t tags (queryCapablePeers c scan iterate t ⟨tags, none⟩) := by
  have positive : (0 : ℚ) < tags.length := by
    rw [Nat.cast_pos, List.length_pos_iff]
    exact nonempty
  have share {m : CapabilityMatch} := score_eq_share (m := m) permutes permutes' nonempty once
  have met {p : String} {tag : CapabilityTag} : t.rows.any (provides c p · tag) = true ↔ HasTag c t p tag := by
    simp only [List.any_eq_true, provides, Bool.and_eq_true, decide_eq_true_eq]
    rfl
  constructor
  · intro m member
    rw [share member, div_le_one positive, Nat.cast_le]
    exact ⟨div_nonneg (Nat.cast_nonneg _) positive.le, List.countP_le_length⟩
  · intro m member m' member' covers
    rw [share member, share member', div_le_div_iff_of_pos_right positive, Nat.cast_le]
    exact List.countP_mono_left fun tag listed has => met.mpr (covers tag listed (met.mp has))
  · refine (queryCapablePeers_sorted scan iterate t ⟨tags, none⟩).imp_of_mem ?_
    intro m m' member member' order all tag listed
    have full : tags.countP (fun tag => t.rows.any (provides c m'.peerName · tag)) = tags.length :=
      List.countP_eq_length.mpr fun tag listed => met.mpr (all tag listed)
    rw [scoreOrder, share member, share member', div_le_div_iff_of_pos_right positive, Nat.cast_le, full] at order
    have whole := List.countP_eq_length.mp (Nat.le_antisymm List.countP_le_length order)
    exact met.mp (whole tag listed)

omit permutes in
theorem exists_match (nonempty : tags ≠ []) {r : CapabilityRow} (listed : r ∈ scan t.rows)
    (carries : ∃ tag ∈ tags, r.carries c tag = true) :
    ∃ m ∈ queryCapablePeers c scan iterate t ⟨tags, none⟩, m.peerName = r.peerName := by
  have matched : matchedTags c ⟨tags, none⟩ r ≠ [] := by
    rw [← List.length_pos_iff, matchedTags_length, List.countP_pos_iff]
    exact carries
  have included : r ∈ counted c ⟨tags, none⟩ (scan t.rows) r.peerName := by
    refine List.mem_filter.mpr ⟨listed, ?_⟩
    simp [counts, passesVersion, matched]
  let m := tally c ⟨tags, none⟩ r.peerName (counted c ⟨tags, none⟩ (scan t.rows) r.peerName)
  exact ⟨{ m with score := m.score / tags.length }, (mem_queryCapablePeers permutes' (q := ⟨tags, none⟩) nonempty).mpr
    ⟨List.ne_nil_of_mem included, rfl, rfl⟩, rfl⟩

/-- Every query ranks by coverage exactly if no peer has a tag on two of its capabilities. For one query it is
enough that this holds of its required tags. -/
theorem ranked_by_coverage_iff :
    ((∀ tags : List CapabilityTag, tags ≠ [] → tags.Nodup →
        RankedByCoverage c t tags (queryCapablePeers c scan iterate t ⟨tags, none⟩)) ↔
      ∀ tag, CarriedOnce c t tag) ∧
    ∀ tags : List CapabilityTag, tags ≠ [] → (∀ tag ∈ tags, CarriedOnce c t tag) →
      RankedByCoverage c t tags (queryCapablePeers c scan iterate t ⟨tags, none⟩) := by
  refine ⟨⟨fun ranked tag r hr r' hr' same has has' => ?_, fun once tags nonempty _ => ?_⟩, fun tags nonempty once => ?_⟩
  · obtain ⟨m, member, peer⟩ := exists_match permutes' (List.cons_ne_nil tag []) ((permutes _).mem_iff.mpr hr)
      ⟨tag, List.mem_singleton_self tag, has⟩
    have bound := ((ranked [tag] (List.cons_ne_nil _ _) (List.nodup_singleton _)).bounded m member).2
    rw [score_eq_incidences permutes permutes' (List.cons_ne_nil _ _) member, sum_countP_comm, peer] at bound
    have once : t.rows.countP (provides c r.peerName · tag) ≤ 1 := by simpa using bound
    exact eq_of_countP_le_one once hr hr' (by simp [provides, has]) (by simp [provides, same, has'])
  · exact ranked_of_once permutes permutes' nonempty fun tag _ => once tag
  · exact ranked_of_once permutes permutes' nonempty once

end

def apartTable : CapabilityTable where
  rows := [tagRow "m4" "llm" "1.0.0" "[\"gpu\",\"inference\"]", tagRow "a100" "training" "1.0.0" "[\"gpu\"]"]
  distinct := by decide

theorem apartTable_ranked :
    RankedByCoverage tagCodec apartTable [.gpu, .inference]
      (queryCapablePeers tagCodec id id apartTable ⟨[.gpu, .inference], none⟩) :=
  (ranked_by_coverage_iff (fun rows => .refl rows) fun ms => .refl ms).2 _ (by decide) (by decide)

/-- Three capabilities of a peer with the same tag, and a capability with both tags of the query. -/
def overlapTable : CapabilityTable where
  rows := [tagRow "m4" "llm" "1.0.0" "[\"gpu\"]", tagRow "m4" "tts" "1.0.0" "[\"gpu\"]", tagRow "m4" "training" "1.0.0" "[\"gpu\"]",
    tagRow "a100" "serving" "1.0.0" "[\"gpu\",\"inference\"]"]
  distinct := by decide

theorem overlap_outranks_cover :
    (queryCapablePeers tagCodec id id overlapTable ⟨[.gpu, .inference], none⟩).map (fun m => (m.peerName, m.score)) =
      [("m4", 3 / 2), ("a100", 1)] ∧
    (∀ tag ∈ [CapabilityTag.gpu, .inference], HasTag tagCodec overlapTable "a100" tag) ∧
    ¬HasTag tagCodec overlapTable "m4" .inference ∧
    ¬RankedByCoverage tagCodec overlapTable [.gpu, .inference]
      (queryCapablePeers tagCodec id id overlapTable ⟨[.gpu, .inference], none⟩) := by
  have scores : (queryCapablePeers tagCodec id id overlapTable ⟨[.gpu, .inference], none⟩).map
      (fun m => (m.peerName, m.score)) = [("m4", 3 / 2), ("a100", 1)] := by decide +kernel
  refine ⟨scores, by decide, by decide, fun ranked => ?_⟩
  have listed : ("m4", (3 / 2 : ℚ)) ∈ [("m4", 3 / 2), ("a100", 1)] := List.mem_cons_self
  rw [← scores] at listed
  obtain ⟨m, member, same⟩ := List.mem_map.mp listed
  have bound := (ranked.bounded m member).2
  rw [(Prod.mk.inj same).2] at bound
  exact absurd bound (by decide +kernel)

end ConvergioMesh
