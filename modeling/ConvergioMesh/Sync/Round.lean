import ConvergioMesh.Sync.Apply
import ConvergioMesh.Sync.Cursor

/-!
# A round

`syncTableWithPeer` as one function of the database, of the clock and of what its requests and
fallible statements return.
-/

namespace ConvergioMesh

open Library

/-- The clock, the peer and the failures a round meets. -/
structure RoundIo where
  roundStartAt : String
  metaFault : Bool := false
  exportFault : Bool := false
  send : List SyncChange → Except String Unit
  /-- `fetch_changes_from_peer`, by cursor. -/
  fetch : Option String → Except String (List SyncChange)
  applyFaults : ApplyFaults := {}
  upsertFault : Bool := false

def getSyncMeta (fault : Bool) (db : Database) (peer table : String) : Option String :=
  if fault then none else db.syncMeta peer table

/-- `upsert_sync_meta` of a computed cursor; a failure is only logged. -/
def upsertSyncMeta (fault : Bool) (db : Database) (peer table : String) (cursor : Option String) : Database :=
  match cursor with
  | some c => if fault then db else db.setMeta peer table c
  | none => db

@[simp] theorem upsertSyncMeta_tables (fault : Bool) (db : Database) (peer table : String) (cursor : Option String) :
    (upsertSyncMeta fault db peer table cursor).tables = db.tables := by
  unfold upsertSyncMeta
  split
  · split <;> rfl
  · rfl

theorem upsertSyncMeta_same (db : Database) (peer table : String) (cursor : Option String) :
    (upsertSyncMeta false db peer table cursor).syncMeta peer table = cursor.or (db.syncMeta peer table) := by
  cases cursor with
  | none => rfl
  | some c => exact Database.setMeta_syncMeta_same ..

theorem upsertSyncMeta_other (db : Database) {peer other : String} (table : String) (cursor : Option String)
    (different : other ≠ peer) :
    (upsertSyncMeta false db peer table cursor).syncMeta other table = db.syncMeta other table := by
  cases cursor with
  | none => rfl
  | some c => exact if_neg fun same => different same.1

theorem upsertSyncMeta_elsewhere (fault : Bool) (db : Database) {peer table p n : String} (cursor : Option String)
    (other : ¬(p = peer ∧ n = table)) : (upsertSyncMeta fault db peer table cursor).syncMeta p n = db.syncMeta p n := by
  unfold upsertSyncMeta
  split
  · split
    · rfl
    · exact if_neg other
  · rfl

/-- `sync_table_with_peer`: the database afterwards, and (sent, received, applied). -/
def syncTableWithPeer (e : Engine) (io : RoundIo) (db : Database) (peer table : String) :
    Database × Nat × Nat × Nat :=
  let since := getSyncMeta io.metaFault db peer table
  match if io.exportFault then .error .fault else exportChangesSince e db table since with
  | .error _ => (db, 0, 0, 0)
  | .ok localChanges =>
    match if localChanges.isEmpty then .ok () else io.send localChanges with
    | .error _ => (db, 0, 0, 0)
    | .ok () =>
      match io.fetch since with
      | .error _ => (db, 0, 0, 0)
      | .ok remoteChanges =>
        let applied := applyChangesDetailed e io.applyFaults db remoteChanges
        match applied.2 with
        | .error _ => (applied.1, 0, 0, 0)
        | .ok report =>
          let cursor := computeNewCursor since (maxUpdatedAt localChanges) report.appliedMaxUpdatedAt io.roundStartAt
          (upsertSyncMeta io.upsertFault applied.1 peer table cursor,
            localChanges.length, remoteChanges.length, report.applied)

/-- A round whose export and send succeed, and what it then fetches. -/
structure Fetches (e : Engine) (io : RoundIo) (db : Database) (peer table : String)
    (localChanges remoteChanges : List SyncChange) : Prop where
  readable : io.exportFault = false
  exported : exportChangesSince e db table (getSyncMeta io.metaFault db peer table) = .ok localChanges
  sent : localChanges ≠ [] → io.send localChanges = .ok ()
  fetched : io.fetch (getSyncMeta io.metaFault db peer table) = .ok remoteChanges

structure Completes (e : Engine) (io : RoundIo) (db : Database) (peer table : String)
    (localChanges remoteChanges : List SyncChange) (report : ApplyReport) : Prop
    extends Fetches e io db peer table localChanges remoteChanges where
  applied : (applyChangesDetailed e io.applyFaults db remoteChanges).2 = .ok report

theorem Fetches.unique {e : Engine} {io : RoundIo} {db : Database} {peer table : String}
    {l l' r r' : List SyncChange} (h : Fetches e io db peer table l r) (h' : Fetches e io db peer table l' r') :
    l = l' ∧ r = r' :=
  ⟨Except.ok.inj (h.exported.symm.trans h'.exported), Except.ok.inj (h.fetched.symm.trans h'.fetched)⟩

theorem Fetches.sends {e : Engine} {io : RoundIo} {db : Database} {peer table : String} {l r : List SyncChange}
    (h : Fetches e io db peer table l r) : (if l.isEmpty then .ok () else io.send l) = .ok () := by
  split
  · rfl
  · rename_i some_change
    exact h.sent (by simpa using some_change)

theorem syncTableWithPeer_completes {e : Engine} {io : RoundIo} {db : Database} {peer table : String}
    {l r : List SyncChange} {report : ApplyReport} (h : Completes e io db peer table l r report) :
    syncTableWithPeer e io db peer table =
      (upsertSyncMeta io.upsertFault (applyChangesDetailed e io.applyFaults db r).1 peer table
        (computeNewCursor (getSyncMeta io.metaFault db peer table) (maxUpdatedAt l) report.appliedMaxUpdatedAt
          io.roundStartAt), l.length, r.length, report.applied) := by
  simp only [syncTableWithPeer, h.readable, Bool.false_eq_true, if_false, h.exported, h.sends, h.fetched, h.applied]

/-- The cursor after a completed round: the computed one, or the stored one if there is none or the
upsert fails. -/
theorem syncTableWithPeer_syncMeta {e : Engine} {io : RoundIo} {db : Database} {peer table : String}
    {l r : List SyncChange} {report : ApplyReport} (h : Completes e io db peer table l r report) :
    (syncTableWithPeer e io db peer table).1.syncMeta peer table =
      if io.upsertFault = true then db.syncMeta peer table
      else (computeNewCursor (getSyncMeta io.metaFault db peer table) (maxUpdatedAt l) report.appliedMaxUpdatedAt
        io.roundStartAt).or (db.syncMeta peer table) := by
  have kept := congrFun (congrFun (applyChangesDetailed_syncMeta e io.applyFaults db r) peer) table
  rw [syncTableWithPeer_completes h]
  cases io.upsertFault with
  | true =>
    unfold upsertSyncMeta
    split <;> exact kept
  | false => rw [upsertSyncMeta_same, kept, if_neg Bool.false_ne_true]

/-- A round that does not get to its cursor has at most applied what it fetched. -/
theorem syncTableWithPeer_incomplete {e : Engine} {io : RoundIo} {db : Database} {peer table : String}
    (h : ¬∃ l r report, Completes e io db peer table l r report) :
    (syncTableWithPeer e io db peer table).1 = db ∨
      ∃ l r, Fetches e io db peer table l r ∧
        (syncTableWithPeer e io db peer table).1 = (applyChangesDetailed e io.applyFaults db r).1 := by
  unfold syncTableWithPeer
  dsimp only
  split
  · exact .inl rfl
  rename_i localChanges exported
  split
  · exact .inl rfl
  rename_i sent
  split
  · exact .inl rfl
  rename_i remoteChanges fetched
  have readable : io.exportFault = false := by
    cases fault : io.exportFault with
    | true => simp [fault] at exported
    | false => rfl
  have fetches : Fetches e io db peer table localChanges remoteChanges := by
    refine ⟨readable, by simpa [readable] using exported, fun some_change => ?_, fetched⟩
    have nonempty : localChanges.isEmpty = false := by simpa using some_change
    simpa [nonempty] using sent
  split
  · exact .inr ⟨localChanges, remoteChanges, fetches, rfl⟩
  · rename_i report applied
    exact absurd ⟨localChanges, remoteChanges, report, ⟨fetches, applied⟩⟩ h

theorem syncTableWithPeer_incomplete_syncMeta {e : Engine} {io : RoundIo} {db : Database} {peer table : String}
    (h : ¬∃ l r report, Completes e io db peer table l r report) :
    (syncTableWithPeer e io db peer table).1.syncMeta = db.syncMeta := by
  rcases syncTableWithPeer_incomplete h with same | ⟨l, r, _, same⟩
  · rw [same]
  · rw [same, applyChangesDetailed_syncMeta]

theorem syncTableWithPeer_elsewhere {e : Engine} {io : RoundIo} {db : Database} {peer table p n : String}
    (other : ¬(p = peer ∧ n = table)) : (syncTableWithPeer e io db peer table).1.syncMeta p n = db.syncMeta p n := by
  by_cases completes : ∃ l r report, Completes e io db peer table l r report
  · obtain ⟨l, r, report, done⟩ := completes
    rw [syncTableWithPeer_completes done, upsertSyncMeta_elsewhere _ _ _ other, applyChangesDetailed_syncMeta]
  · rw [syncTableWithPeer_incomplete_syncMeta completes]

/-! ### The timestamps of a round -/

def SyncChange.date (c : SyncChange) : Option String := c.data.asObject.bind remoteUpdatedAt

theorem max?_below {l : List String} {u : String} : Below l.max? u ↔ ∀ x ∈ l, x < u := by
  cases largest : l.max? with
  | none => simp [List.max?_eq_none_iff.mp largest]
  | some m =>
    obtain ⟨member, bound⟩ := List.max?_eq_some_iff.mp largest
    rw [below_some]
    exact ⟨fun below x held => (bound x held).trans_lt below, fun all => all m member⟩

theorem maxUpdatedAt_eq (changes : List SyncChange) : maxUpdatedAt changes = (changes.filterMap (·.date)).max? := by
  unfold maxUpdatedAt
  rw [List.filterMap_filterMap]
  rfl

theorem maxUpdatedAt_below {changes : List SyncChange} {u : String} :
    Below (maxUpdatedAt changes) u ↔ ∀ c ∈ changes, Below c.date u := by
  rw [maxUpdatedAt_eq, max?_below]
  constructor
  · intro all c member d dated
    exact all d (List.mem_filterMap.mpr ⟨c, member, dated⟩)
  · intro all d found
    obtain ⟨c, member, dated⟩ := List.mem_filterMap.mp found
    exact all c member d dated

theorem raiseMax_below {cur ts : Option String} {u : String} :
    Below (raiseMax cur ts) u ↔ Below cur u ∧ Below ts u := by
  cases ts with
  | none => simp [raiseMax]
  | some t =>
    cases cur with
    | none => simp [raiseMax]
    | some c =>
      simp only [raiseMax]
      split
      · rename_i larger
        rw [below_some, below_some]
        exact ⟨fun below => ⟨below, larger.trans_lt below⟩, And.left⟩
      · rename_i smaller
        rw [below_some, below_some]
        exact ⟨fun below => ⟨(not_le.mp smaller).trans below, below⟩, And.right⟩

theorem report_below {outcomes : List Outcome} {report : ApplyReport} {u : String} :
    Below (outcomes.foldl ApplyReport.record report).appliedMaxUpdatedAt u ↔
      Below report.appliedMaxUpdatedAt u ∧ ∀ v, .stored (some v) ∈ outcomes → v < u := by
  induction outcomes generalizing report with
  | nil => simp
  | cons o rest ih =>
    rw [List.foldl_cons, ih]
    cases o with
    | rejected why => simp [ApplyReport.record]
    | stored ts =>
      simp only [ApplyReport.record, raiseMax_below, List.mem_cons, Outcome.stored.injEq, and_assoc]
      refine and_congr_right fun _ => ?_
      constructor
      · rintro ⟨first, rest⟩ v (rfl | later)
        · exact first v rfl
        · exact rest v later
      · exact fun all => ⟨fun v same => all v (.inl same.symm), fun v later => all v (.inr later)⟩

/-! ### Stored cursors are normalised -/

theorem date_normalised {c : SyncChange} {u : String} (h : c.date = some u) : 'T' ∉ u.toList := by
  obtain ⟨entries, _, remote⟩ := Option.bind_eq_some_iff.mp h
  obtain ⟨s, _, rfl⟩ := Option.map_eq_some_iff.mp remote
  exact T_not_mem_replaceT s

theorem maxUpdatedAt_normalised {changes : List SyncChange} {u : String} (h : maxUpdatedAt changes = some u) :
    'T' ∉ u.toList := by
  rw [maxUpdatedAt_eq] at h
  obtain ⟨c, _, dated⟩ := List.mem_filterMap.mp (List.max?_eq_some_iff.mp h).1
  exact date_normalised dated

theorem raiseMax_mem {cur ts : Option String} {u : String} (h : raiseMax cur ts = some u) :
    cur = some u ∨ ts = some u := by
  cases ts with
  | none => exact .inl h
  | some t =>
    cases cur with
    | none => exact .inr h
    | some c =>
      simp only [raiseMax] at h
      split at h
      · exact .inl h
      · exact .inr h

theorem report_mem {outcomes : List Outcome} {report : ApplyReport} {u : String}
    (h : (outcomes.foldl ApplyReport.record report).appliedMaxUpdatedAt = some u) :
    report.appliedMaxUpdatedAt = some u ∨ .stored (some u) ∈ outcomes := by
  induction outcomes generalizing report with
  | nil => exact .inl h
  | cons o rest ih =>
    rcases ih h with first | later
    · cases o with
      | rejected why => exact .inl first
      | stored ts =>
        rcases raiseMax_mem first with old | rfl
        · exact .inl old
        · exact .inr List.mem_cons_self
    · exact .inr (List.mem_cons_of_mem _ later)

theorem Iteration.outcome_date {e : Engine} {i : Iteration} {ts : Option String} (h : i.outcome e = .stored ts) :
    i.change.date = ts := by
  unfold outcome at h
  rcases applyChange_cases e i.faults i.db i.change with ⟨t, entries, stores⟩ | ⟨_, why, done⟩
  · rw [applyChange_stores stores] at h
    rw [SyncChange.date, stores.admitted.data]
    exact Outcome.stored.inj h
  · rw [done] at h
    cases h

/-- Every stored cursor has blanks for its `T`s, as `fetch_changes_from_peer` sends it. -/
def Database.CursorsNormalised (db : Database) : Prop :=
  ∀ peer table c, db.syncMeta peer table = some c → 'T' ∉ c.toList

theorem Completes.applied_normalised {e : Engine} {io : RoundIo} {db : Database} {peer table : String}
    {l r : List SyncChange} {report : ApplyReport} (h : Completes e io db peer table l r report) {u : String}
    (applied : report.appliedMaxUpdatedAt = some u) : 'T' ∉ u.toList := by
  rw [applyChangesDetailed_ok h.applied] at applied
  rcases report_mem applied with none_yet | stored
  · cases none_yet
  · obtain ⟨i, _, out⟩ := List.mem_map.mp stored
    exact date_normalised (i.outcome_date out)

theorem Completes.cursor_normalised {e : Engine} {io : RoundIo} {db : Database} {peer table : String}
    {l r : List SyncChange} {report : ApplyReport} (h : Completes e io db peer table l r report)
    (normalised : db.CursorsNormalised) (start : 'T' ∉ io.roundStartAt.toList) {c : String}
    (cursor : computeNewCursor (getSyncMeta io.metaFault db peer table) (maxUpdatedAt l)
      report.appliedMaxUpdatedAt io.roundStartAt = some c) : 'T' ∉ c.toList := by
  rcases computeNewCursor_mem cursor with read | exported | applied | rfl
  · unfold getSyncMeta at read
    split at read
    · cases read
    · exact normalised peer table c read
  · exact maxUpdatedAt_normalised exported
  · exact h.applied_normalised applied
  · exact start

/-- Rounds that start at a normalised time keep all stored cursors normalised. -/
theorem syncTableWithPeer_normalised (e : Engine) {io : RoundIo} {db : Database} (peer table : String)
    (normalised : db.CursorsNormalised) (start : 'T' ∉ io.roundStartAt.toList) :
    (syncTableWithPeer e io db peer table).1.CursorsNormalised := by
  by_cases completes : ∃ l r report, Completes e io db peer table l r report
  · obtain ⟨l, r, report, done⟩ := completes
    rw [syncTableWithPeer_completes done]
    intro p n c stored
    have before : (applyChangesDetailed e io.applyFaults db r).1.syncMeta p n = some c → 'T' ∉ c.toList := by
      rw [applyChangesDetailed_syncMeta]
      exact normalised p n c
    unfold upsertSyncMeta at stored
    split at stored
    · rename_i cursor computed
      split at stored
      · exact before stored
      · unfold Database.setMeta at stored
        dsimp only at stored
        split at stored
        · obtain rfl := Option.some.inj stored
          exact done.cursor_normalised normalised start computed
        · exact before stored
    · exact before stored
  · intro p n c stored
    rw [syncTableWithPeer_incomplete_syncMeta completes] at stored
    exact normalised p n c stored

end ConvergioMesh
