import ConvergioMesh.Sync.Overwrite
import ConvergioMesh.Sync.Round

/-!
# Rows that could not be stored

Where the cursor of a round ends up with respect to the fetched rows whose INSERT failed.
-/

namespace ConvergioMesh

open Library

def LeavesRoom (db : Database) (peer table u : String) : Prop := Below (db.syncMeta peer table) u

def ExchangedBelow (e : Engine) (localChanges : List SyncChange) (applied : List Iteration) (u : String) : Prop :=
  (∀ c ∈ localChanges, Below c.date u) ∧ ∀ i ∈ applied, ∀ v, i.outcome e = .stored (some v) → v < u

def ExchangedSome (e : Engine) (localChanges : List SyncChange) (applied : List Iteration) : Prop :=
  (∃ c ∈ localChanges, c.date ≠ none) ∨ ∃ i ∈ applied, ∃ v, i.outcome e = .stored (some v)

/-- If the round writes its cursor, the cursor it read is below `u`, and so is either its start or
every row it exchanged; if it writes none, the cursor that stays is below `u`. -/
def RoomFor (e : Engine) (io : RoundIo) (db : Database) (peer table u : String) : Prop :=
  (∀ l r report, Completes e io db peer table l r report → io.upsertFault = false →
      Below (getSyncMeta io.metaFault db peer table) u ∧
        (io.roundStartAt < u ∨ ExchangedBelow e l (callIterations e io.applyFaults db r) u)) ∧
    ((∃ l r report, Completes e io db peer table l r report ∧ io.upsertFault = false ∧
        (getSyncMeta io.metaFault db peer table ≠ none ∨
          ExchangedSome e l (callIterations e io.applyFaults db r))) ∨
      Below (db.syncMeta peer table) u)

theorem exchangedBelow_iff {e : Engine} {io : RoundIo} {db : Database} {peer table : String}
    {l r : List SyncChange} {report : ApplyReport} (h : Completes e io db peer table l r report) {u : String} :
    ExchangedBelow e l (callIterations e io.applyFaults db r) u ↔
      Below (maxUpdatedAt l) u ∧ Below report.appliedMaxUpdatedAt u := by
  rw [applyChangesDetailed_ok h.applied, report_below, maxUpdatedAt_below]
  refine and_congr_right fun _ => ?_
  simp only [below_none, true_and, List.mem_map]
  constructor
  · rintro all v ⟨i, member, same⟩
    exact all i member v same
  · intro all i member v same
    exact all v ⟨i, member, same⟩

theorem exchangedBelow_empty_iff {e : Engine} {l : List SyncChange} {applied : List Iteration} :
    ExchangedBelow e l applied "" ↔ ¬ExchangedSome e l applied := by
  constructor
  · rintro ⟨exported, stored⟩ (⟨c, member, dated⟩ | ⟨i, member, v, out⟩)
    · exact dated (below_empty_iff.mp (exported c member))
    · exact not_lt_empty v (stored i member v out)
  · intro nothing
    refine ⟨fun c member => below_empty_iff.mpr ?_, fun i member v out => ?_⟩
    · by_contra dated
      exact nothing (.inl ⟨c, member, dated⟩)
    · exact absurd (.inr ⟨i, member, v, out⟩) nothing

/-- A completed round has a cursor to write if it read one or exchanged a dated row. -/
theorem computeNewCursor_none_iff {e : Engine} {io : RoundIo} {db : Database} {peer table : String}
    {l r : List SyncChange} {report : ApplyReport} (h : Completes e io db peer table l r report) :
    computeNewCursor (getSyncMeta io.metaFault db peer table) (maxUpdatedAt l) report.appliedMaxUpdatedAt
        io.roundStartAt = none ↔
      ¬(getSyncMeta io.metaFault db peer table ≠ none ∨ ExchangedSome e l (callIterations e io.applyFaults db r)) := by
  rw [← below_empty_iff, computeNewCursor_below, ← exchangedBelow_iff h, below_empty_iff, exchangedBelow_empty_iff]
  have late : ¬io.roundStartAt < "" := not_lt_empty _
  tauto

theorem Completes.roomFor_iff {e : Engine} {io : RoundIo} {db : Database} {peer table : String}
    {l r : List SyncChange} {report : ApplyReport} (done : Completes e io db peer table l r report)
    (written : io.upsertFault = false) (u : String) :
    RoomFor e io db peer table u ↔
      (Below (getSyncMeta io.metaFault db peer table) u ∧
        (io.roundStartAt < u ∨ ExchangedBelow e l (callIterations e io.applyFaults db r) u)) ∧
      ((getSyncMeta io.metaFault db peer table ≠ none ∨ ExchangedSome e l (callIterations e io.applyFaults db r)) ∨
        Below (db.syncMeta peer table) u) := by
  have only : ∀ l' r' report', Completes e io db peer table l' r' report' → l' = l ∧ r' = r := by
    intro l' r' report' other
    obtain ⟨rfl, rfl⟩ := done.toFetches.unique other.toFetches
    exact ⟨rfl, rfl⟩
  refine and_congr ⟨fun all => all l r report done written, fun here l' r' report' other _ => ?_⟩ (or_congr_left ?_)
  · obtain ⟨rfl, rfl⟩ := only l' r' report' other
    exact here
  · refine ⟨fun ⟨l', r', report', other, _, exchanged⟩ => ?_, fun exchanged => ⟨l, r, report, done, written, exchanged⟩⟩
    obtain ⟨rfl, rfl⟩ := only l' r' report' other
    exact exchanged

theorem syncTableWithPeer_leavesRoom_iff (e : Engine) (io : RoundIo) (db : Database) (peer table u : String) :
    LeavesRoom (syncTableWithPeer e io db peer table).1 peer table u ↔ RoomFor e io db peer table u := by
  unfold LeavesRoom
  by_cases completes : ∃ l r report, Completes e io db peer table l r report
  · obtain ⟨l, r, report, done⟩ := completes
    rw [syncTableWithPeer_syncMeta done]
    cases fault : io.upsertFault with
    | true => simp [RoomFor, fault]
    | false =>
      rw [done.roomFor_iff fault, exchangedBelow_iff done, ← computeNewCursor_below]
      have none_iff := computeNewCursor_none_iff done
      cases cursor : computeNewCursor (getSyncMeta io.metaFault db peer table) (maxUpdatedAt l)
          report.appliedMaxUpdatedAt io.roundStartAt with
      | none => simp [none_iff.mp cursor]
      | some c =>
        have exchanged : getSyncMeta io.metaFault db peer table ≠ none ∨
            ExchangedSome e l (callIterations e io.applyFaults db r) := by
          by_contra nothing
          rw [none_iff.mpr nothing] at cursor
          cases cursor
        simp [exchanged]
  · rw [syncTableWithPeer_incomplete_syncMeta completes]
    have vacuous : ∀ l r report, ¬Completes e io db peer table l r report := fun l r report done =>
      completes ⟨l, r, report, done⟩
    simp [RoomFor, vacuous]

/-! ### What the next fetch asks for -/

theorem LeavesRoom.selects {e : Engine} {db : Database} {peer table u : String} (h : LeavesRoom db peer table u)
    {t : Table} {r : Row} (column : "updated_at" ∈ t.schema.names) (dated : r.stamp = some u) :
    selects e t (db.syncMeta peer table) r = true := by
  obtain ⟨raw, _, _, rfl⟩ := Row.stamp_some dated
  exact (selects_stamp column dated).mpr fun c stored => replaceT_lt (h c stored)

/-! ### Failed inserts -/

/-- A change the round fetched, dated `u`, whose INSERT failed. -/
def FailedInsert (e : Engine) (io : RoundIo) (db : Database) (peer table u : String) : Prop :=
  ∃ l r, Fetches e io db peer table l r ∧ ∃ i ∈ callIterations e io.applyFaults db r,
    i.outcome e = .rejected .insertFailed ∧ i.change.date = some u

/-- Exactly when a round leaves room for every fetched row whose INSERT failed; the next fetch then
asks for it again. -/
theorem failedInserts_leaveRoom_iff (e : Engine) (io : RoundIo) (db : Database) (peer table : String) :
    ((∀ u, FailedInsert e io db peer table u → LeavesRoom (syncTableWithPeer e io db peer table).1 peer table u) ↔
      ∀ u, FailedInsert e io db peer table u → RoomFor e io db peer table u) ∧
    ∀ u, LeavesRoom (syncTableWithPeer e io db peer table).1 peer table u →
      ∀ (t : Table) (r : Row), "updated_at" ∈ t.schema.names → r.stamp = some u →
        selects e t ((syncTableWithPeer e io db peer table).1.syncMeta peer table) r = true :=
  ⟨forall₂_congr fun u _ => syncTableWithPeer_leavesRoom_iff e io db peer table u,
    fun _ room _ _ column dated => room.selects column dated⟩

/-- A plan with a text id cannot be stored; a newer plan of the same batch moves the cursor past it. -/
def rejectingIo : RoundIo where
  roundStartAt := "2026-04-21 13:00:00"
  send _ := .ok ()
  fetch _ := .ok [⟨"plans", .string "x", .object [("id", .string "x"), ("name", .string "lost"),
    ("updated_at", .string "2026-04-21 11:00:00")]⟩, planChange 2 2 "b" "2026-04-21 12:00:00"]

theorem failedInsert_skipped :
    FailedInsert sampleEngine rejectingIo (plansDb noPlans) "peer-b" "plans" "2026-04-21 11:00:00" ∧
      ¬LeavesRoom (syncTableWithPeer sampleEngine rejectingIo (plansDb noPlans) "peer-b" "plans").1
        "peer-b" "plans" "2026-04-21 11:00:00" := by
  refine ⟨⟨[], _, ⟨rfl, rfl, fun some_change => absurd rfl some_change, rfl⟩, _, List.mem_cons_self, by decide, rfl⟩, ?_⟩
  intro room
  exact absurd (room "2026-04-21 12:00:00" (by decide)) (by decide)

end ConvergioMesh
