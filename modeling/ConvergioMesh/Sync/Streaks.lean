import ConvergioMesh.Sync.Loop
import ConvergioMesh.Sync.Plans

/-!
# Failure streaks

The readiness route reads `consecutive_failures`, which no statement of the loop writes.
-/

namespace ConvergioMesh

open Library

/-! ### Readiness -/

structure ReadinessIo where
  pool : Except String Unit := .ok ()
  /-- The count of recent heartbeats. -/
  peersOnline : Option Nat := some 0
  dbOk : Bool := true
  statsFault : Bool := false

structure Readiness where
  ready : Bool
  database : String
  meshPeers : Nat
  syncHealthy : Bool
  deriving DecidableEq

/-- `COALESCE(MAX(consecutive_failures), 0)`. -/
def maxFailures (stats : StatsTable) : Nat := (stats.rows.map (·.consecutiveFailures)).max?.getD 0

def handleNodeReadiness (io : ReadinessIo) (stats : StatsTable) : Except String Readiness :=
  match io.pool with
  | .error e => .error e
  | .ok () =>
    let syncHealthy := io.statsFault || maxFailures stats < 5
    .ok {
      ready := io.dbOk && syncHealthy
      database := if io.dbOk then "ok" else "down"
      meshPeers := io.peersOnline.getD 0
      syncHealthy }

/-! ### Failed visits -/

/-- The export, the send, the fetch or the apply of the call fails. -/
def TableCall.fails (e : Engine) (c : TableCall) : Bool :=
  match c.exported e with
  | .error _ => true
  | .ok localChanges =>
    match if localChanges.isEmpty then .ok () else c.io.send localChanges with
    | .error _ => true
    | .ok () =>
      match c.io.fetch c.since with
      | .error _ => true
      | .ok remoteChanges =>
        match (applyChangesDetailed e c.io.applyFaults c.before remoteChanges).2 with
        | .error _ => true
        | .ok _ => false

def Visit.fails (e : Engine) (v : Visit) : Bool := (v.calls e).any (·.fails e)

/-- The length of a peer's current run of failed visits. -/
def streak (e : Engine) (vs : List Visit) (peer : Text) : Nat :=
  ((vs.filter (·.peer = peer)).reverse.takeWhile (·.fails e)).length

def lastVisit (vs : List Visit) (peer : Text) : Option Visit := (vs.filter (·.peer = peer)).getLast?

variable {e : Engine}

theorem TableCall.fails_iff {c : TableCall} :
    c.fails e = false ↔ ∃ l r report, Completes e c.io c.before c.addr c.table l r report := by
  constructor
  · intro works
    unfold TableCall.fails at works
    split at works
    · cases works
    rename_i l exported
    split at works
    · cases works
    rename_i sent
    split at works
    · cases works
    rename_i r fetched
    split at works
    · cases works
    rename_i report applied
    unfold TableCall.exported at exported
    split at exported
    · cases exported
    rename_i readable
    refine ⟨l, r, report, ⟨by simpa using readable, exported, fun some_change => ?_, fetched⟩, applied⟩
    have nonempty : l.isEmpty = false := by simpa using some_change
    simpa [nonempty] using sent
  · rintro ⟨l, r, report, done⟩
    have exported : c.exported e = .ok l := by simp [TableCall.exported, since, done.readable, done.exported]
    simp only [TableCall.fails, exported, done.sends, since, done.fetched, done.applied]

theorem streak_eq_zero {vs : List Visit} {peer : Text} :
    streak e vs peer = 0 ↔ ∀ v, lastVisit vs peer = some v → v.fails e = false := by
  unfold streak lastVisit
  rw [← List.head?_reverse, List.length_eq_zero_iff]
  cases (vs.filter (·.peer = peer)).reverse with
  | nil => simp
  | cons v rest => simp [List.takeWhile_cons]

/-! ### The table of a run -/

/-- The upsert at the end of a visit. -/
def Visit.record (e : Engine) (stats : StatsTable) (v : Visit) : StatsTable :=
  let done := syncTablesWithPeer e v.io v.addr syncTables v.before
  updateMeshSyncStats v.io.statsFault stats v.addr done.2.1 done.2.2.1 done.2.2.2 v.io.latencyMs v.io.now

theorem visitPeers_stats {env : RoundEnv} {peers : List (Text × PeerConfig)} {s : LoopState} :
    (visitPeers e env peers s).stats = (visits e env peers s).foldl (Visit.record e) s.stats := by
  induction peers generalizing s with
  | nil => rfl
  | cons p rest ih =>
    unfold visitPeers visits
    cases env.visitedAt p.1 p.2 with
    | none => exact ih
    | some addr => exact ih

theorem runRounds_stats {envs : List RoundEnv} {s : LoopState} :
    (runRounds e envs s).stats = (runVisits e envs s).foldl (Visit.record e) s.stats := by
  induction envs generalizing s with
  | nil => rfl
  | cons env rest ih =>
    rw [runVisits, List.foldl_append, ← visitPeers_stats]
    exact ih

def Uncounted (stats : StatsTable) : Prop := ∀ row ∈ stats.rows, row.consecutiveFailures = 0

section

variable {fault : Bool} {stats : StatsTable} {addr : String} {sent received applied : Nat} {latencyMs : Int64}
  {now : String}

theorem uncounted_update (before : Uncounted stats) :
    Uncounted (updateMeshSyncStats fault stats addr sent received applied latencyMs now) := by
  unfold updateMeshSyncStats
  split
  · exact before
  · exact KeyedRows.forall_upsert before rfl fun _ kept => kept

theorem find_update :
    ∃ row, (updateMeshSyncStats false stats addr sent received applied latencyMs now).find addr = some row := by
  unfold updateMeshSyncStats
  rw [if_neg Bool.false_ne_true]
  exact ⟨_, KeyedRows.find_upsert_same⟩

theorem find_update_of_find {other : String} (held : ∃ row, stats.find other = some row) :
    ∃ row, (updateMeshSyncStats fault stats addr sent received applied latencyMs now).find other = some row := by
  cases fault with
  | true => exact held
  | false =>
    by_cases same : other = addr
    · rw [same]
      exact find_update
    · obtain ⟨row, found⟩ := held
      unfold updateMeshSyncStats
      rw [if_neg Bool.false_ne_true]
      exact ⟨row, (KeyedRows.find_upsert_other same).trans found⟩

end

theorem recorded {vs : List Visit} (works : ∀ v ∈ vs, v.io.statsFault = false) :
    Uncounted (vs.foldl (Visit.record e) .empty) ∧
      ∀ v ∈ vs, ∃ row, (vs.foldl (Visit.record e) .empty).find v.addr = some row := by
  induction vs using List.reverseRecOn with
  | nil => simp [Uncounted, KeyedRows.empty]
  | append_singleton before last ih =>
    obtain ⟨uncounted, held⟩ := ih fun v member => works v (List.mem_append_left _ member)
    rw [List.foldl_append]
    refine ⟨uncounted_update uncounted, fun v member => ?_⟩
    rcases List.mem_append.mp member with earlier | now
    · exact find_update_of_find (held v earlier)
    · obtain rfl := List.mem_singleton.mp now
      rw [List.foldl_cons, List.foldl_nil, Visit.record, works v (List.mem_append_right _ List.mem_cons_self)]
      exact find_update

theorem maxFailures_eq_zero {stats : StatsTable} (h : Uncounted stats) : maxFailures stats = 0 := by
  unfold maxFailures
  cases largest : (stats.rows.map (·.consecutiveFailures)).max? with
  | none => rfl
  | some m =>
    obtain ⟨row, member, rfl⟩ := List.mem_map.mp (List.max?_eq_some_iff.mp largest).1
    exact h row member

/-- After the run, each visited peer's row counts its current run of failed visits, and the readiness
route reports an unhealthy sync exactly if such a run has length 5. -/
structure StreaksStored (e : Engine) (stats : StatsTable) (vs : List Visit) : Prop where
  counted : ∀ peer v, lastVisit vs peer = some v →
    ∃ row, stats.find v.addr = some row ∧ row.consecutiveFailures = streak e vs peer
  reported : ∀ io r, io.statsFault = false → handleNodeReadiness io stats = .ok r →
    (r.syncHealthy = false ↔ ∃ peer, 5 ≤ streak e vs peer)

theorem mem_of_lastVisit {vs : List Visit} {peer : Text} {v : Visit} (last : lastVisit vs peer = some v) : v ∈ vs :=
  List.mem_of_mem_filter (List.mem_of_getLast? last)

theorem syncHealthy_of_uncounted {stats : StatsTable} (h : Uncounted stats) {io : ReadinessIo} {r : Readiness}
    (answered : handleNodeReadiness io stats = .ok r) : r.syncHealthy = true := by
  unfold handleNodeReadiness at answered
  rw [maxFailures_eq_zero h] at answered
  split at answered
  · cases answered
  · obtain rfl := Except.ok.inj answered
    simp

/-- From an empty table, the streaks are stored exactly if no visited peer's last visit fails. -/
theorem streaks_stored_iff (e : Engine) (envs : List RoundEnv) (db : Database)
    (works : ∀ v ∈ runVisits e envs ⟨db, .empty⟩, v.io.statsFault = false) :
    StreaksStored e (runRounds e envs ⟨db, .empty⟩).stats (runVisits e envs ⟨db, .empty⟩) ↔
      ∀ peer v, lastVisit (runVisits e envs ⟨db, .empty⟩) peer = some v → v.fails e = false := by
  have stats : (runRounds e envs ⟨db, .empty⟩).stats = _ := runRounds_stats
  obtain ⟨uncounted, held⟩ := recorded (e := e) works
  rw [← stats] at uncounted held
  constructor
  · intro stored peer v last
    obtain ⟨row, found, same⟩ := stored.counted peer v last
    have zero := uncounted row (KeyedRows.find_eq_some.mp found).1
    exact streak_eq_zero.mp (same.symm.trans zero) v last
  · intro completes
    have none : ∀ peer, streak e (runVisits e envs ⟨db, .empty⟩) peer = 0 := fun peer =>
      streak_eq_zero.mpr (completes peer)
    refine ⟨fun peer v last => ?_, fun io r _ answered => ?_⟩
    · obtain ⟨row, found⟩ := held v (mem_of_lastVisit last)
      exact ⟨row, found, (uncounted row (KeyedRows.find_eq_some.mp found).1).trans (none peer).symm⟩
    · refine iff_of_false (by simp [syncHealthy_of_uncounted uncounted answered]) ?_
      rintro ⟨peer, long⟩
      have zero := none peer
      omega

def answeringPeer (answer : Except String (List SyncChange)) : PeerIo where
  connects _ := true
  tables _ := { roundStartAt := "2026-04-21 10:00:00", send := fun _ => .ok (), fetch := fun _ => answer }
  health := ⟨false, .ok (), .error "no health endpoint"⟩

/-- A round with one peer, whose export route gives this answer. -/
def m5Round (answer : Except String (List SyncChange)) : RoundEnv where
  conf := some (peerText "m5")
  peers _ := answeringPeer answer

def newNode : LoopState := ⟨⟨fun _ => none, fun _ _ => none⟩, .empty⟩

set_option maxRecDepth 4000 in
theorem idle_m5_streaks :
    StreaksStored sampleEngine (runRounds sampleEngine [m5Round (.ok [])] newNode).stats
      (runVisits sampleEngine [m5Round (.ok [])] newNode) := by
  have quiet : ∀ v ∈ runVisits sampleEngine [m5Round (.ok [])] newNode,
      v.io.statsFault = false ∧ v.fails sampleEngine = false := by decide
  refine (streaks_stored_iff sampleEngine _ _ fun v member => (quiet v member).1).mpr fun peer v last => ?_
  exact (quiet v (mem_of_lastVisit last)).2

/-- Five rounds in which the peer answers no fetch. -/
def fiveFailures : List RoundEnv := List.replicate 5 (m5Round (.error "HTTP GET failed"))

set_option maxRecDepth 8000 in
/-- After five failed visits the stored count is 0, and the readiness route reports a healthy sync. -/
theorem failures_not_counted :
    (∀ v ∈ runVisits sampleEngine fiveFailures newNode, v.io.statsFault = false) ∧
      streak sampleEngine (runVisits sampleEngine fiveFailures newNode) "m5".toList = 5 ∧
      (runRounds sampleEngine fiveFailures newNode).stats.rows.map (·.consecutiveFailures) = [0] ∧
      handleNodeReadiness {} (runRounds sampleEngine fiveFailures newNode).stats = .ok ⟨true, "ok", 0, true⟩ ∧
      ¬StreaksStored sampleEngine (runRounds sampleEngine fiveFailures newNode).stats
        (runVisits sampleEngine fiveFailures newNode) := by
  have long : streak sampleEngine (runVisits sampleEngine fiveFailures newNode) "m5".toList = 5 := by decide
  have healthy : handleNodeReadiness {} (runRounds sampleEngine fiveFailures newNode).stats =
      .ok ⟨true, "ok", 0, true⟩ := by decide
  refine ⟨by decide, long, by decide, healthy, fun stored => ?_⟩
  exact absurd ((stored.reported {} _ rfl healthy).mpr ⟨_, long.ge⟩) (by decide)

end ConvergioMesh
