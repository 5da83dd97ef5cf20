import Mathlib.Data.Rat.Floor
import ConvergioMesh.Library.Upsert
import ConvergioMesh.Sync.Checksum

/-!
# Drift

What `check_convergence` warns about. It compares the rows of `mesh_peer_state`, which is not a synced
table, and writes only the row of the hostname it runs under: the peers it can warn about are the
hostnames under which the node itself has run before.
-/

namespace ConvergioMesh

open Library

/-- A row of `mesh_peer_state`. -/
structure PeerState where
  peerId : String
  stateVersion : Nat
  stateChecksum : String
  lastSeen : String

/-- The table, with its PRIMARY KEY. -/
abbrev PeerStates := KeyedRows PeerState.peerId

example : "mesh_peer_state" ∉ syncTables := by decide

/-- A call of `check_convergence`, and what it meets. -/
structure DriftCheck where
  /-- `hostname::get`. -/
  hostname : Option String
  db : Database
  /-- `datetime('now')`. -/
  now : String
  /-- `(julianday('now') - julianday(last_seen)) * 86400`, NULL unless `last_seen` is a date. -/
  elapsed : String → Option Rat
  upsertFault : Bool := false
  prepareFault : Bool := false
  queryFault : Bool := false

def DriftCheck.host (k : DriftCheck) : String := k.hostname.getD "unknown"

def DriftCheck.checksum (c : Crypto) (k : DriftCheck) : String := computeLocalChecksum c k.db

structure DriftWarning where
  peer : String
  secs : Int
  theirs : String
  ours : String
  deriving DecidableEq

def driftThresholdSecs : Rat := 300

/-- The upsert of `check_convergence`. -/
def recordState (c : Crypto) (t : PeerStates) (k : DriftCheck) : PeerStates :=
  t.upsert ⟨k.host, 1, k.checksum c, k.now⟩
    (fun r => { r with stateVersion := r.stateVersion + 1, stateChecksum := k.checksum c, lastSeen := k.now })
    fun _ same => same

/-- What a row of the query is logged as. The age is positive there, so that the cast rounds it down. -/
def driftWarning (c : Crypto) (k : DriftCheck) (r : PeerState) : Option DriftWarning :=
  match k.elapsed r.lastSeen with
  | none => none
  | some secs =>
    if r.peerId ≠ k.host ∧ r.stateChecksum ≠ k.checksum c ∧ driftThresholdSecs < secs then
      some ⟨r.peerId, ⌊secs⌋, r.stateChecksum, k.checksum c⟩
    else none

/-- `check_convergence`: the table and the warnings. It returns early if the upsert fails. -/
def checkConvergence (c : Crypto) (t : PeerStates) (k : DriftCheck) : PeerStates × List DriftWarning :=
  if k.upsertFault then (t, [])
  else (recordState c t k,
    if k.prepareFault || k.queryFault then [] else (recordState c t k).rows.filterMap (driftWarning c k))

def runChecks (c : Crypto) (t : PeerStates) (ks : List DriftCheck) : PeerStates :=
  ks.foldl (fun t k => (checkConvergence c t k).1) t

/-- The checks under a hostname that are recorded. -/
def recordedChecks (host : String) (ks : List DriftCheck) : List DriftCheck :=
  ks.filter fun k => decide (k.host = host) && !k.upsertFault

/-- The row of a hostname after these checks under it. -/
def expectedState (c : Crypto) (host : String) (held : Option PeerState) (ks : List DriftCheck) : Option PeerState :=
  match ks.getLast? with
  | none => held
  | some last => some ⟨host, held.elim 0 (·.stateVersion) + ks.length, last.checksum c, last.now⟩

variable {c : Crypto} {t : PeerStates} {k : DriftCheck} {ks : List DriftCheck} {host : String} {w : DriftWarning}

theorem expectedState_snoc {held : Option PeerState} (named : ∀ r ∈ held, r.peerId = k.host) :
    expectedState c k.host held (ks ++ [k]) =
      some ((expectedState c k.host held ks).elim ⟨k.host, 1, k.checksum c, k.now⟩ fun r =>
        { r with stateVersion := r.stateVersion + 1, stateChecksum := k.checksum c, lastSeen := k.now }) := by
  unfold expectedState
  rw [List.getLast?_concat]
  cases last : ks.getLast? with
  | none =>
    obtain rfl := List.getLast?_eq_none_iff.mp last
    cases held with
    | none => rfl
    | some r => simp [← named r rfl]
  | some _ => simp [Nat.add_assoc]

theorem runChecks_find (ks : List DriftCheck) (host : String) :
    (runChecks c t ks).find host = expectedState c host (t.find host) (recordedChecks host ks) := by
  refine KeyedRows.find_foldl_inv (fun t k => (checkConvergence c t k).1) _ host
    (fun ks row => row = expectedState c host (t.find host) ks) rfl ?_ ?_ ks
  · intro u k ks selected held
    obtain ⟨rfl, works⟩ : k.host = host ∧ k.upsertFault = false := by simpa using selected
    rw [expectedState_snoc fun r found => (KeyedRows.find_eq_some.mp found).2, ← held]
    simp only [checkConvergence, works, Bool.false_eq_true, if_false]
    exact KeyedRows.find_upsert_same
  · intro u k skipped
    unfold checkConvergence
    split
    · rfl
    · rename_i works
      have elsewhere : k.host ≠ host := by simpa [works] using skipped
      dsimp only [recordState]
      exact KeyedRows.find_upsert_other (Ne.symm elsewhere)

/-- The check gets as far as its warnings. -/
def DriftCheck.Reports (k : DriftCheck) : Prop :=
  k.upsertFault = false ∧ k.prepareFault = false ∧ k.queryFault = false

theorem driftWarning_eq_some {r : PeerState} :
    driftWarning c k r = some w ↔ r.peerId ≠ k.host ∧ r.stateChecksum ≠ k.checksum c ∧
      ∃ secs, k.elapsed r.lastSeen = some secs ∧ driftThresholdSecs < secs ∧
        w = ⟨r.peerId, ⌊secs⌋, r.stateChecksum, k.checksum c⟩ := by
  unfold driftWarning
  cases k.elapsed r.lastSeen with
  | none => simp
  | some secs => simp only [Option.some.injEq, exists_eq_left', Option.ite_none_right_eq_some, and_assoc, @eq_comm _ w]

theorem mem_warnings :
    w ∈ (checkConvergence c t k).2 ↔ k.Reports ∧ ∃ r, t.find w.peer = some r ∧ driftWarning c k r = some w := by
  -- The upsert changes the row of the own hostname only, and that one is never warned about.
  have stays {r : PeerState} (warned : driftWarning c k r = some w) :
      r ∈ (recordState c t k).rows ↔ t.find w.peer = some r := by
    obtain ⟨other, _, _, _, _, rfl⟩ := driftWarning_eq_some.mp warned
    have kept : (recordState c t k).find r.peerId = t.find r.peerId := KeyedRows.find_upsert_other other
    rw [← kept, KeyedRows.find_eq_some]
    exact (and_iff_left rfl).symm
  unfold checkConvergence DriftCheck.Reports
  cases k.upsertFault <;> cases k.prepareFault <;> cases k.queryFault <;> simp
  exact exists_congr fun r => and_congr_left stays

/-- A node that starts without rows warns, whatever its databases hold and whatever checks fail, of the
hostnames other than its current one under which it has recorded a check: of those whose last one found
another checksum, more than 300 seconds ago. -/
theorem drift_warned_iff (c : Crypto) (ks : List DriftCheck) (k : DriftCheck) (w : DriftWarning) :
    w ∈ (checkConvergence c (runChecks c .empty ks) k).2 ↔ k.Reports ∧ w.peer ≠ k.host ∧
      ∃ last secs, (recordedChecks w.peer ks).getLast? = some last ∧ last.checksum c ≠ k.checksum c ∧
        k.elapsed last.now = some secs ∧ driftThresholdSecs < secs ∧
        w = ⟨last.host, ⌊secs⌋, last.checksum c, k.checksum c⟩ := by
  rw [mem_warnings, runChecks_find]
  refine and_congr_right fun _ => ?_
  constructor
  · rintro ⟨r, found, warned⟩
    unfold expectedState at found
    cases last : (recordedChecks w.peer ks).getLast? with
    | none => simp [last, KeyedRows.find, KeyedRows.empty] at found
    | some k' =>
      rw [last] at found
      obtain rfl := Option.some.inj found
      obtain ⟨other, differs, secs, elapsed, old, same⟩ := driftWarning_eq_some.mp warned
      have host : k'.host = w.peer := by
        have listed := (List.mem_filter.mp (List.mem_of_getLast? last)).2
        simp only [Bool.and_eq_true, decide_eq_true_eq] at listed
        exact listed.1
      refine ⟨other, k', secs, rfl, differs, elapsed, old, ?_⟩
      rw [host]
      exact same
  · rintro ⟨other, last, secs, recorded, differs, elapsed, old, same⟩
    have host : last.host = w.peer := by rw [same]
    refine ⟨⟨w.peer, (recordedChecks w.peer ks).length, last.checksum c, last.now⟩, ?_, ?_⟩
    · simp [expectedState, recorded, KeyedRows.find, KeyedRows.empty]
    · rw [host] at same
      exact driftWarning_eq_some.mpr ⟨other, differs, secs, elapsed, old, same⟩

end ConvergioMesh
