import Mathlib.Algebra.Order.Field.Rat
import Mathlib.Data.List.Induction
import ConvergioMesh.Capability.Store

/-!
# Queries for capable peers

`query_capable_peers` adds up, for each peer, the required tags that its capabilities carry, and
returns the peers by descending score. The `f64` scores are taken as the numbers they stand for.
-/

namespace ConvergioMesh

open Library

inductive CapabilityTag where
  | gpu
  | voice
  | compute
  | storage
  | highMemory
  | lowLatency
  | inference
  | codeExecution
  deriving DecidableEq

/-- `Display`. -/
def CapabilityTag.text : CapabilityTag → String
  | gpu => "gpu"
  | voice => "voice"
  | compute => "compute"
  | storage => "storage"
  | highMemory => "high_memory"
  | lowLatency => "low_latency"
  | inference => "inference"
  | codeExecution => "code_execution"

structure CapabilityQuery where
  requiredTags : List CapabilityTag
  minVersion : Option String := none

def CapabilityQuery.required (q : CapabilityQuery) : List String := q.requiredTags.map CapabilityTag.text

structure CapabilityMatch where
  peerName : String
  score : ℚ
  matchedCapabilities : List String

/-- The map `peer_matches`, whose scores are not yet divided. -/
abbrev PeerMatches := KeyedRows CapabilityMatch.peerName

/-- The comparison of `capability_version` with `min_version`, as texts. -/
def passesVersion (q : CapabilityQuery) (r : CapabilityRow) : Bool :=
  match q.minVersion with
  | some minVer => !decide (r.capabilityVersion < minVer)
  | none => true

def CapabilityRow.tags (c : CapabilityCodec) (r : CapabilityRow) : List String := (c.readTags r.tagsJson).getD []

def matchedTags (c : CapabilityCodec) (q : CapabilityQuery) (r : CapabilityRow) : List String :=
  q.required.filter fun tag => tag ∈ r.tags c

/-- `entry.0 += …` and `entry.1.push(…)`. -/
def CapabilityMatch.add (matched : Nat) (capName : String) (m : CapabilityMatch) : CapabilityMatch :=
  { m with score := m.score + matched, matchedCapabilities := m.matchedCapabilities ++ [capName] }

@[simp] theorem CapabilityMatch.peerName_add (matched : Nat) (capName : String) (m : CapabilityMatch) :
    (m.add matched capName).peerName = m.peerName := rfl

/-- `entry(peer).or_insert(…)` followed by the two updates. -/
def addMatch (matched : Nat) (ms : PeerMatches) (r : CapabilityRow) : PeerMatches :=
  ms.upsert (CapabilityMatch.add matched r.capabilityName ⟨r.peerName, 0, []⟩)
    (CapabilityMatch.add matched r.capabilityName) fun m same => (m.peerName_add matched r.capabilityName).trans same

/-- One iteration of the loop over the rows. -/
def matchRow (c : CapabilityCodec) (q : CapabilityQuery) (ms : PeerMatches) (r : CapabilityRow) : PeerMatches :=
  if !passesVersion q r then ms
  else
    let matched := matchedTags c q r
    if matched = [] then ms else addMatch matched.length ms r

/-- The comparison of `results.sort_by`. -/
def scoreOrder (a b : CapabilityMatch) : Prop := b.score ≤ a.score

instance : DecidableRel scoreOrder := fun a b => inferInstanceAs (Decidable (b.score ≤ a.score))

instance : Std.Total scoreOrder := ⟨fun a b => le_total b.score a.score⟩

instance : IsTrans CapabilityMatch scoreOrder := ⟨fun _ _ _ first second => le_trans second first⟩

/-- `query_capable_peers`; `scan` is the order in which SQLite returns the rows and `iterate` the one in which
the map is iterated. The sort is stable. -/
def queryCapablePeers (c : CapabilityCodec) (scan : List CapabilityRow → List CapabilityRow)
    (iterate : List CapabilityMatch → List CapabilityMatch) (t : CapabilityTable) (q : CapabilityQuery) :
    List CapabilityMatch :=
  let totalRequired := q.required.length
  if totalRequired = 0 then []
  else
    ((iterate ((scan t.rows).foldl (matchRow c q) KeyedRows.empty).rows).map fun m =>
      { m with score := m.score / totalRequired }).insertionSort scoreOrder

/-! ### What is counted -/

/-- The capability passes the version comparison and carries a required tag. -/
def counts (c : CapabilityCodec) (q : CapabilityQuery) (r : CapabilityRow) : Bool :=
  passesVersion q r && decide (matchedTags c q r ≠ [])

/-- The counted rows of a peer. -/
def counted (c : CapabilityCodec) (q : CapabilityQuery) (rows : List CapabilityRow) (p : String) : List CapabilityRow :=
  rows.filter fun r => counts c q r && decide (r.peerName = p)

def total (c : CapabilityCodec) (q : CapabilityQuery) (rs : List CapabilityRow) : Nat :=
  (rs.map fun r => (matchedTags c q r).length).sum

variable {c : CapabilityCodec} {q : CapabilityQuery}

theorem matchRow_eq (ms : PeerMatches) (r : CapabilityRow) :
    matchRow c q ms r = if counts c q r then addMatch (matchedTags c q r).length ms r else ms := by
  unfold matchRow counts
  cases passesVersion q r with
  | false => rfl
  | true => by_cases none : matchedTags c q r = [] <;> simp [none]

theorem find_addMatch_same (matched : Nat) (ms : PeerMatches) (r : CapabilityRow) :
    (addMatch matched ms r).find r.peerName =
      some (((ms.find r.peerName).getD ⟨r.peerName, 0, []⟩).add matched r.capabilityName) := by
  have added := @KeyedRows.find_upsert_same _ _ _ _ ms (CapabilityMatch.add matched r.capabilityName ⟨r.peerName, 0, []⟩)
    (CapabilityMatch.add matched r.capabilityName) fun m same => (m.peerName_add matched r.capabilityName).trans same
  refine added.trans (congrArg some ?_)
  rw [CapabilityMatch.peerName_add]
  cases ms.find r.peerName <;> rfl

theorem find_addMatch_other (matched : Nat) (ms : PeerMatches) {r : CapabilityRow} {p : String} (other : r.peerName ≠ p) :
    (addMatch matched ms r).find p = ms.find p := KeyedRows.find_upsert_other (Ne.symm other)

/-- The entry of a peer after the loop. -/
def tally (c : CapabilityCodec) (q : CapabilityQuery) (p : String) (rs : List CapabilityRow) : CapabilityMatch :=
  ⟨p, total c q rs, rs.map (·.capabilityName)⟩

theorem tally_concat (p : String) (rs : List CapabilityRow) (r : CapabilityRow) :
    tally c q p (rs ++ [r]) = (tally c q p rs).add (matchedTags c q r).length r.capabilityName := by
  simp [tally, total, CapabilityMatch.add]

/-- The entry of a peer tallies its counted rows, and a peer without any has no entry. -/
theorem find_matches (rows : List CapabilityRow) (p : String) :
    (rows.foldl (matchRow c q) KeyedRows.empty).find p =
      if counted c q rows p = [] then none else some (tally c q p (counted c q rows p)) := by
  apply KeyedRows.find_foldl_inv (matchRow c q) (fun r => counts c q r && decide (r.peerName = p)) p
    fun rs entry => entry = if rs = [] then none else some (tally c q p rs)
  · rfl
  · intro ms r rs selected before
    obtain ⟨included, here⟩ := Bool.and_eq_true_iff.mp selected
    obtain rfl := of_decide_eq_true here
    have found : (ms.find r.peerName).getD ⟨r.peerName, 0, []⟩ = tally c q r.peerName rs := by
      rw [before]
      split
      · rename_i empty
        rw [empty]
        rfl
      · rfl
    rw [matchRow_eq, if_pos included, find_addMatch_same, found, if_neg (by simp), tally_concat]
  · intro ms r skipped
    rw [matchRow_eq]
    split
    · rename_i included
      refine find_addMatch_other _ _ fun here => ?_
      simp [included, here] at skipped
    · rfl

theorem mem_matches {rows : List CapabilityRow} {e : CapabilityMatch} :
    e ∈ (rows.foldl (matchRow c q) KeyedRows.empty).rows ↔
      counted c q rows e.peerName ≠ [] ∧ e = tally c q e.peerName (counted c q rows e.peerName) := by
  have entry := KeyedRows.find_eq_some (t := rows.foldl (matchRow c q) KeyedRows.empty) (k := e.peerName) (r := e)
  rw [find_matches] at entry
  rw [← and_iff_left (a := e ∈ _) (rfl : e.peerName = e.peerName), ← entry]
  by_cases empty : counted c q rows e.peerName = []
  · simp [empty]
  · rw [if_neg empty, Option.some.injEq, and_iff_right empty, eq_comm]

/-- The result holds one match for each peer with a counted capability. -/
theorem mem_queryCapablePeers {scan : List CapabilityRow → List CapabilityRow}
    {iterate : List CapabilityMatch → List CapabilityMatch} (permutes : ∀ ms, (iterate ms).Perm ms)
    {t : CapabilityTable} (nonempty : q.requiredTags ≠ []) {m : CapabilityMatch} :
    m ∈ queryCapablePeers c scan iterate t q ↔
      counted c q (scan t.rows) m.peerName ≠ [] ∧
        m.matchedCapabilities = (counted c q (scan t.rows) m.peerName).map (·.capabilityName) ∧
        m.score = total c q (counted c q (scan t.rows) m.peerName) / q.requiredTags.length := by
  have same : q.required.length = q.requiredTags.length := List.length_map _
  have required : q.requiredTags.length ≠ 0 := by simpa using nonempty
  unfold queryCapablePeers
  dsimp only
  rw [same, if_neg required, List.mem_insertionSort, List.mem_map]
  constructor
  · rintro ⟨e, member, rfl⟩
    obtain ⟨some_counted, tallied⟩ := mem_matches.mp ((permutes _).mem_iff.mp member)
    refine ⟨some_counted, ?_, ?_⟩
    · exact congrArg (·.matchedCapabilities) tallied
    · exact congrArg (·.score / (q.requiredTags.length : ℚ)) tallied
  · rintro ⟨some_counted, names, score⟩
    refine ⟨tally c q m.peerName (counted c q (scan t.rows) m.peerName), ?_, ?_⟩
    · exact (permutes _).mem_iff.mpr (mem_matches.mpr ⟨some_counted, rfl⟩)
    · obtain ⟨peer, _, _⟩ := m
      rw [CapabilityMatch.mk.injEq]
      exact ⟨rfl, score.symm, names.symm⟩

theorem queryCapablePeers_sorted (scan : List CapabilityRow → List CapabilityRow)
    (iterate : List CapabilityMatch → List CapabilityMatch) (t : CapabilityTable) (q : CapabilityQuery) :
    (queryCapablePeers c scan iterate t q).Pairwise scoreOrder := by
  unfold queryCapablePeers
  dsimp only
  split
  · exact .nil
  · exact List.pairwise_insertionSort _ _

deriving instance DecidableEq for CapabilityRow

/-- The JSON of two lists of tags. -/
def tagCodec : CapabilityCodec where
  showTags tags :=
    if tags = ["gpu"] then some "[\"gpu\"]"
    else if tags = ["gpu", "inference"] then some "[\"gpu\",\"inference\"]"
    else none
  readTags s :=
    if s = "[\"gpu\"]" then some ["gpu"]
    else if s = "[\"gpu\",\"inference\"]" then some ["gpu", "inference"]
    else none
  showMetadata _ := some "\x7b\x7d"
  readMetadata s := if s = "\x7b\x7d" then some (.object []) else none

def tagRow (peer name version tagsJson : String) : CapabilityRow :=
  ⟨peer, name, version, tagsJson, "\x7b\x7d", "2026-01-01 00:00:00"⟩

end ConvergioMesh
