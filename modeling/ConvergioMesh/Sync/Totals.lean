import Mathlib.Data.List.Sort
import ConvergioMesh.Sync.Guard
import ConvergioMesh.Sync.Streaks

/-!
# The totals of a run

What `mesh_sync_stats` adds up to, as the sync status and the mesh status show it, against what the
calls of the run really stored.
-/

namespace ConvergioMesh

open Library

variable {e : Engine}

/-! ### The counts of a visit -/

def Visit.sent (e : Engine) (v : Visit) : Nat := ((v.calls e).map fun c => (c.run e).2.1).sum

def Visit.received (e : Engine) (v : Visit) : Nat := ((v.calls e).map fun c => (c.run e).2.2.1).sum

def Visit.applied (e : Engine) (v : Visit) : Nat := ((v.calls e).map fun c => (c.run e).2.2.2).sum

/-- The changes that the calls of a visit store, counted or not. -/
def Visit.stored (e : Engine) (v : Visit) : Nat := ((v.calls e).map fun c => (c.applied e).length).sum

theorem syncTablesWithPeer_counts (io : PeerIo) (addr : String) (tables : List String) (db : Database) :
    (syncTablesWithPeer e io addr tables db).2 =
      (((tableCalls e io addr tables db).map fun c => (c.run e).2.1).sum,
        ((tableCalls e io addr tables db).map fun c => (c.run e).2.2.1).sum,
        ((tableCalls e io addr tables db).map fun c => (c.run e).2.2.2).sum) := by
  induction tables generalizing db with
  | nil => rfl
  | cons table rest ih =>
    have later := ih (syncTableWithPeer e (io.tables table) db addr table).1
    simp only [syncTablesWithPeer, tableCalls, List.map_cons, List.sum_cons, later]
    rfl

theorem Visit.counts (v : Visit) :
    (syncTablesWithPeer e v.io v.addr syncTables v.before).2 = (v.sent e, v.received e, v.applied e) :=
  syncTablesWithPeer_counts ..

/-! ### The row of an address -/

/-- The visits at an address whose upsert into the statistics succeeds. -/
def recordedAt (addr : String) (vs : List Visit) : List Visit :=
  vs.filter fun v => decide (v.addr = addr) && !v.io.statsFault

/-- The row of an address after these visits. -/
def expectedStats (e : Engine) (addr : String) (held : Option SyncStats) (vs : List Visit) : Option SyncStats :=
  match vs.getLast? with
  | none => held
  | some last =>
    let row := held.getD { peerName := addr }
    some { row with
      totalSent := row.totalSent + (vs.map (·.sent e)).sum
      totalReceived := row.totalReceived + (vs.map (·.received e)).sum
      totalApplied := row.totalApplied + (vs.map (·.applied e)).sum
      lastSyncAt := some last.io.now
      lastLatencyMs := some last.io.latencyMs
      lastError := none }

theorem expectedStats_snoc (addr : String) (held : Option SyncStats) (vs : List Visit) (v : Visit) :
    expectedStats e addr held (vs ++ [v]) =
      some ((expectedStats e addr held vs).elim
        { peerName := addr, totalSent := v.sent e, totalReceived := v.received e, totalApplied := v.applied e
          lastSyncAt := some v.io.now, lastLatencyMs := some v.io.latencyMs, lastError := none }
        fun r => { r with
          totalSent := r.totalSent + v.sent e
          totalReceived := r.totalReceived + v.received e
          totalApplied := r.totalApplied + v.applied e
          lastSyncAt := some v.io.now
          lastLatencyMs := some v.io.latencyMs
          lastError := none }) := by
  unfold expectedStats
  rw [List.getLast?_concat]
  cases last : vs.getLast? with
  | none =>
    obtain rfl := List.getLast?_eq_none_iff.mp last
    cases held <;> simp
  | some w => simp [Nat.add_assoc]

theorem record_find (stats : StatsTable) (vs : List Visit) (addr : String) :
    (vs.foldl (Visit.record e) stats).find addr = expectedStats e addr (stats.find addr) (recordedAt addr vs) := by
  refine KeyedRows.find_foldl_inv (Visit.record e) (fun v => decide (v.addr = addr) && !v.io.statsFault) addr
    (fun vs row => row = expectedStats e addr (stats.find addr) vs) rfl ?_ ?_ vs
  · intro t v vs selected held
    obtain ⟨rfl, works⟩ : v.addr = addr ∧ v.io.statsFault = false := by simpa using selected
    rw [expectedStats_snoc, ← held, Visit.record, v.counts, works, updateMeshSyncStats, if_neg Bool.false_ne_true]
    exact KeyedRows.find_upsert_same
  · intro t v skipped
    rw [Visit.record, updateMeshSyncStats]
    split
    · rfl
    · rename_i works
      have elsewhere : v.addr ≠ addr := by simpa [works] using skipped
      exact KeyedRows.find_upsert_other (Ne.symm elsewhere)

/-! ### The status routes -/

structure SyncStatusEntry where
  peer : String
  totalApplied : Nat
  lastSyncAt : Option String
  latencyMs : Option Int64
  failures : Nat
  deriving DecidableEq

def syncStatusEntry (row : SyncStats) : SyncStatusEntry where
  peer := row.peerName
  totalApplied := row.totalApplied
  lastSyncAt := row.lastSyncAt
  latencyMs := row.lastLatencyMs
  failures := row.consecutiveFailures

/-- The failures of the connection pool and of `prepare` are answered, one of the query lists nothing. -/
structure QueryIo where
  pool : Except String Unit := .ok ()
  prepare : Except String Unit := .ok ()
  queryFault : Bool := false

def QueryIo.ready (io : QueryIo) : Except String Unit :=
  match io.pool with
  | .error why => .error why
  | .ok () => io.prepare

/-- `handle_sync_status`: the rows ordered by name. -/
def handleSyncStatus (io : QueryIo) (stats : StatsTable) : Except String (List SyncStatusEntry) :=
  io.ready.map fun _ =>
    if io.queryFault then [] else (stats.rows.insertionSort fun r s => r.peerName ≤ s.peerName).map syncStatusEntry

/-- `SELECT COALESCE(SUM(total_applied), 0) FROM mesh_sync_stats`. -/
def totalSynced (stats : StatsTable) : Nat := (stats.rows.map (·.totalApplied)).sum

theorem totalSynced_record (stats : StatsTable) (v : Visit) :
    totalSynced (Visit.record e stats v) = totalSynced stats + if v.io.statsFault then 0 else v.applied e := by
  rw [Visit.record, v.counts, updateMeshSyncStats]
  split
  · rfl
  · exact KeyedRows.sum_upsert (fun r : SyncStats => r.totalApplied) fun _ _ => rfl

theorem totalSynced_foldl (stats : StatsTable) (vs : List Visit) :
    totalSynced (vs.foldl (Visit.record e) stats) =
      totalSynced stats + (vs.map fun v => if v.io.statsFault then 0 else v.applied e).sum := by
  induction vs generalizing stats with
  | nil => rfl
  | cons v rest ih =>
    rw [List.foldl_cons, ih, totalSynced_record, List.map_cons, List.sum_cons, Nat.add_assoc]

/-- One entry for each address with a recorded visit, with what its recorded visits add up to. -/
structure SyncAccounts (e : Engine) (vs : List Visit) (entries : List SyncStatusEntry) : Prop where
  sorted : entries.Pairwise (·.peer < ·.peer)
  listed : ∀ entry, entry ∈ entries ↔
    (expectedStats e entry.peer none (recordedAt entry.peer vs)).map syncStatusEntry = some entry
  total : (entries.map (·.totalApplied)).sum = (vs.map fun v => if v.io.statsFault then 0 else v.applied e).sum

theorem perm_entries (stats : StatsTable) :
    ((stats.rows.insertionSort fun r s => r.peerName ≤ s.peerName).map syncStatusEntry).Perm
      (stats.rows.map syncStatusEntry) :=
  (List.perm_insertionSort (fun r s : SyncStats => r.peerName ≤ s.peerName) stats.rows).map syncStatusEntry

theorem mem_entries {stats : StatsTable} {entry : SyncStatusEntry} :
    entry ∈ stats.rows.map syncStatusEntry ↔ (stats.find entry.peer).map syncStatusEntry = some entry := by
  rw [List.mem_map, Option.map_eq_some_iff]
  constructor
  · rintro ⟨row, member, rfl⟩
    exact ⟨row, KeyedRows.find_eq_some.mpr ⟨member, rfl⟩, rfl⟩
  · rintro ⟨row, found, same⟩
    exact ⟨row, (KeyedRows.find_eq_some.mp found).1, same⟩

theorem sum_entries (stats : StatsTable) :
    ((stats.rows.map syncStatusEntry).map fun entry => entry.totalApplied).sum = totalSynced stats := by
  rw [List.map_map]
  rfl

/-- After any rounds the sync status lists each address with a recorded visit once, in the order of the
names, with the sums and the last visit of its recorded visits; the mesh status reports their total. -/
theorem syncStatus_accounts (e : Engine) (envs : List RoundEnv) (db : Database) :
    ∃ entries, handleSyncStatus {} (runRounds e envs ⟨db, .empty⟩).stats = .ok entries ∧
      SyncAccounts e (runVisits e envs ⟨db, .empty⟩) entries ∧
      totalSynced (runRounds e envs ⟨db, .empty⟩).stats = (entries.map (·.totalApplied)).sum := by
  rw [runRounds_stats]
  generalize runVisits e envs ⟨db, .empty⟩ = vs
  have perm := perm_entries (vs.foldl (Visit.record e) .empty)
  have sum := (perm.map fun entry => entry.totalApplied).sum_eq.trans (sum_entries _)
  refine ⟨_, rfl, ⟨?_, fun entry => ?_, ?_⟩, sum.symm⟩
  · rw [if_neg Bool.false_ne_true]
    exact List.pairwise_map.mpr (KeyedRows.sorted_rows _)
  · rw [if_neg Bool.false_ne_true, perm.mem_iff, mem_entries, record_find]
    rfl
  · rw [if_neg Bool.false_ne_true, sum, totalSynced_foldl]
    exact Nat.zero_add _

/-! ### What the totals leave out -/

theorem TableCall.run_of_fails {c : TableCall} (failed : c.fails e = true) : (c.run e).2 = (0, 0, 0) := by
  have since : getSyncMeta c.io.metaFault c.before c.addr c.table = c.since := rfl
  have exported : (if c.io.exportFault then .error .fault else exportChangesSince e c.before c.table c.since) =
      c.exported e := rfl
  unfold TableCall.fails at failed
  unfold run syncTableWithPeer
  dsimp only
  rw [since, exported]
  revert failed
  cases c.exported e with
  | error => exact fun _ => rfl
  | ok localChanges =>
    dsimp only
    cases if localChanges.isEmpty then .ok () else c.io.send localChanges with
    | error => exact fun _ => rfl
    | ok =>
      dsimp only
      cases c.io.fetch c.since with
      | error => exact fun _ => rfl
      | ok remoteChanges =>
        dsimp only
        cases (applyChangesDetailed e c.io.applyFaults c.before remoteChanges).2 with
        | error => exact fun _ => rfl
        | ok report => exact fun failed => nomatch failed

/-- A call that fails counts nothing, also if it has stored changes. -/
theorem TableCall.run_applied (c : TableCall) :
    (c.run e).2.2.2 = if c.fails e then 0 else (c.applied e).length := by
  cases failed : c.fails e with
  | true => rw [run_of_fails failed, if_pos rfl]
  | false =>
    obtain ⟨l, r, report, done⟩ := TableCall.fails_iff.mp failed
    have exported : c.exported e = .ok l := by simp [TableCall.exported, since, done.readable, done.exported]
    have fetched : c.fetched e = r := by
      unfold TableCall.fetched
      rw [exported]
      dsimp only
      rw [done.sends]
      simp only [since, done.fetched, Except.toOption, Option.getD_some]
    rw [run, syncTableWithPeer_completes done, if_neg Bool.false_ne_true,
      length_applied e c (fetched ▸ done.applied)]

/-- A total of at most these numbers, and when it is all of them. -/
theorem sum_le_and_eq_iff {A : Type} {f g : A → Nat} {l : List A} (le : ∀ a ∈ l, f a ≤ g a) :
    (l.map f).sum ≤ (l.map g).sum ∧ ((l.map f).sum = (l.map g).sum ↔ ∀ a ∈ l, f a = g a) := by
  induction l with
  | nil => simp
  | cons a rest ih =>
    obtain ⟨head, tail⟩ := List.forall_mem_cons.mp le
    obtain ⟨below, equal⟩ := ih tail
    simp only [List.map_cons, List.sum_cons, List.forall_mem_cons, ← equal]
    omega

theorem Visit.applied_le (v : Visit) :
    v.applied e ≤ v.stored e ∧
      (v.applied e = v.stored e ↔ ∀ c ∈ v.calls e, c.applied e ≠ [] → c.fails e = false) := by
  have le : ∀ c ∈ v.calls e, (c.run e).2.2.2 ≤ (c.applied e).length := by
    intro c _
    rw [c.run_applied]
    split <;> omega
  obtain ⟨below, equal⟩ := sum_le_and_eq_iff le
  refine ⟨below, equal.trans (forall₂_congr fun c _ => ?_)⟩
  rw [c.run_applied]
  cases c.fails e with
  | false => simp
  | true =>
    rw [if_pos rfl, eq_comm, List.length_eq_zero_iff]
    simp

/-- The total of the mesh status never exceeds the changes that the rounds have stored. It is their
number exactly if each call that stored one succeeds, and the statistics of its visit are written. -/
theorem totalSynced_le_stored (e : Engine) (envs : List RoundEnv) (db : Database) :
    totalSynced (runRounds e envs ⟨db, .empty⟩).stats ≤ ((runVisits e envs ⟨db, .empty⟩).map (·.stored e)).sum ∧
      (totalSynced (runRounds e envs ⟨db, .empty⟩).stats =
          ((runVisits e envs ⟨db, .empty⟩).map (·.stored e)).sum ↔
        ∀ v ∈ runVisits e envs ⟨db, .empty⟩, ∀ c ∈ v.calls e, c.applied e ≠ [] →
          v.io.statsFault = false ∧ c.fails e = false) := by
  rw [runRounds_stats, totalSynced_foldl, show totalSynced .empty = 0 from rfl, Nat.zero_add]
  generalize runVisits e envs ⟨db, .empty⟩ = vs
  have le : ∀ v ∈ vs, (if v.io.statsFault then 0 else v.applied e) ≤ v.stored e := by
    intro v _
    have below := v.applied_le (e := e).1
    split <;> omega
  obtain ⟨below, equal⟩ := sum_le_and_eq_iff le
  refine ⟨below, equal.trans (forall₂_congr fun v _ => ?_)⟩
  cases v.io.statsFault with
  | false =>
    rw [if_neg Bool.false_ne_true, (v.applied_le).2]
    simp
  | true =>
    rw [if_pos rfl, eq_comm, Visit.stored, List.sum_eq_zero_iff]
    simp

end ConvergioMesh
