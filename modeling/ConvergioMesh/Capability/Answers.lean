import ConvergioMesh.Capability.Coverage

/-!
# What a query for capable peers answers

The answer is stated over the table alone: which peers it names, what it lists and scores for each of
them, and in which order.
-/

namespace ConvergioMesh

open Library

/-- The capability passes the version comparison and carries a required tag. -/
def Qualifies (c : CapabilityCodec) (q : CapabilityQuery) (r : CapabilityRow) : Prop :=
  passesVersion q r = true ∧ ∃ tag ∈ q.requiredTags, r.carries c tag = true

instance (c : CapabilityCodec) (q : CapabilityQuery) (r : CapabilityRow) : Decidable (Qualifies c q r) :=
  inferInstanceAs (Decidable (_ ∧ ∃ tag ∈ q.requiredTags, _))

def qualifying (c : CapabilityCodec) (q : CapabilityQuery) (t : CapabilityTable) (p : String) : List CapabilityRow :=
  t.rows.filter fun r => r.peerName = p ∧ Qualifies c q r

structure QueryAnswer (c : CapabilityCodec) (q : CapabilityQuery) (t : CapabilityTable)
    (ms : List CapabilityMatch) : Prop where
  named : ∀ p, (∃ m ∈ ms, m.peerName = p) ↔ ∃ r ∈ t.rows, r.peerName = p ∧ Qualifies c q r
  once : (ms.map (·.peerName)).Nodup
  capabilities : ∀ m ∈ ms, m.matchedCapabilities.Nodup ∧
    ∀ name, name ∈ m.matchedCapabilities ↔
      ∃ r ∈ t.rows, r.peerName = m.peerName ∧ r.capabilityName = name ∧ Qualifies c q r
  score : ∀ m ∈ ms, m.score * q.requiredTags.length =
    ((qualifying c q t m.peerName).map fun r => q.requiredTags.countP (r.carries c)).sum
  sorted : ms.Pairwise fun m m' => m'.score ≤ m.score

variable {c : CapabilityCodec} {q : CapabilityQuery}

theorem counts_iff {r : CapabilityRow} : counts c q r = true ↔ Qualifies c q r := by
  rw [counts, Bool.and_eq_true, decide_eq_true_eq, ← List.length_pos_iff, matchedTags_length, List.countP_pos_iff]
  rfl

theorem counted_eq_qualifying (t : CapabilityTable) (p : String) : counted c q t.rows p = qualifying c q t p := by
  refine List.filter_congr fun r _ => ?_
  rw [Bool.eq_iff_iff, Bool.and_eq_true, counts_iff, decide_eq_true_eq, decide_eq_true_eq, and_comm]

theorem mem_qualifying {t : CapabilityTable} {p : String} {r : CapabilityRow} :
    r ∈ qualifying c q t p ↔ r ∈ t.rows ∧ r.peerName = p ∧ Qualifies c q r := by
  rw [qualifying, List.mem_filter, decide_eq_true_eq]

theorem qualifying_names_nodup (t : CapabilityTable) (p : String) :
    ((qualifying c q t p).map (·.capabilityName)).Nodup :=
  names_nodup_of_peer List.filter_sublist fun _ selected => (mem_qualifying.mp selected).2.1

section

variable {scan : List CapabilityRow → List CapabilityRow} (permutes : ∀ rows, (scan rows).Perm rows)
  {iterate : List CapabilityMatch → List CapabilityMatch} (permutes' : ∀ ms, (iterate ms).Perm ms)
  (t : CapabilityTable)

include permutes in
theorem counted_scan (p : String) : (counted c q (scan t.rows) p).Perm (qualifying c q t p) := by
  rw [← counted_eq_qualifying]
  exact (permutes t.rows).filter _

include permutes'

theorem queryCapablePeers_names_nodup : ((queryCapablePeers c scan iterate t q).map (·.peerName)).Nodup := by
  unfold queryCapablePeers
  dsimp only
  split
  · exact .nil
  have sorted := List.perm_insertionSort scoreOrder ((iterate ((scan t.rows).foldl (matchRow c q) KeyedRows.empty).rows).map
    fun m => { m with score := m.score / (q.required.length : ℚ) })
  rw [(sorted.map _).nodup_iff, List.map_map]
  exact ((permutes' _).map _).nodup_iff.mpr (KeyedRows.distinct _)

include permutes

/-- A query names the peers with a qualifying capability, each once, with these capabilities and the required tags they
carry, by descending score. -/
theorem query_answers (nonempty : q.requiredTags ≠ []) : QueryAnswer c q t (queryCapablePeers c scan iterate t q) := by
  have entry {m : CapabilityMatch} : m ∈ queryCapablePeers c scan iterate t q ↔ _ := mem_queryCapablePeers permutes' nonempty
  have same (p : String) := counted_scan (c := c) (q := q) permutes t p
  constructor
  · intro p
    constructor
    · rintro ⟨m, member, rfl⟩
      obtain ⟨r, included⟩ := List.exists_mem_of_ne_nil _ (entry.mp member).1
      obtain ⟨stored, here⟩ := mem_qualifying.mp ((same _).mem_iff.mp included)
      exact ⟨r, stored, here⟩
    · rintro ⟨r, stored, here⟩
      have included := (same p).mem_iff.mpr (mem_qualifying.mpr ⟨stored, here⟩)
      let m := tally c q p (counted c q (scan t.rows) p)
      exact ⟨{ m with score := m.score / q.requiredTags.length }, entry.mpr ⟨List.ne_nil_of_mem included, rfl, rfl⟩, rfl⟩
  · exact queryCapablePeers_names_nodup permutes' t
  · intro m member
    have names : m.matchedCapabilities.Perm _ := (entry.mp member).2.1 ▸ (same m.peerName).map _
    refine ⟨names.nodup_iff.mpr (qualifying_names_nodup t m.peerName), fun name => ?_⟩
    rw [names.mem_iff, List.mem_map]
    constructor
    · rintro ⟨r, included, rfl⟩
      obtain ⟨stored, here, qualifies⟩ := mem_qualifying.mp included
      exact ⟨r, stored, here, rfl, qualifies⟩
    · rintro ⟨r, stored, here, named, qualifies⟩
      exact ⟨r, mem_qualifying.mpr ⟨stored, here, qualifies⟩, named⟩
  · intro m member
    have required : (q.requiredTags.length : ℚ) ≠ 0 := by simpa using nonempty
    rw [(entry.mp member).2.2, div_mul_cancel₀ _ required, total, ((same m.peerName).map _).sum_eq]
    simp only [matchedTags_length]
  · exact queryCapablePeers_sorted scan iterate t q

end

theorem overlapTable_answered :
    QueryAnswer tagCodec ⟨[.gpu, .inference], some "1.0.0"⟩ overlapTable
      (queryCapablePeers tagCodec List.reverse id overlapTable ⟨[.gpu, .inference], some "1.0.0"⟩) :=
  query_answers (fun rows => List.reverse_perm rows) (fun ms => .refl ms) overlapTable (by decide)

end ConvergioMesh
