import ConvergioMesh.Sync.Discipline
import ConvergioMesh.Sync.Rejects

/-!
# Progress of the export

The export filters by the column `detectTimestampColumn` picks, while the cursor of a round is made
of the `updated_at` entries of the change records it exported or stored.
-/

namespace ConvergioMesh

open Library

/-- The export with the cursor stored for the peer returns the row. -/
def Selected (e : Engine) (db : Database) (peer table : String) (r : Row) : Prop :=
  ∃ t, db.tables table = some t ∧ r ∈ t.rows ∧ selects e t (db.syncMeta peer table) r = true

theorem mem_export_iff {e : Engine} {db : Database} {peer table : String} {changes : List SyncChange} {c : SyncChange}
    (h : exportChangesSince e db table (db.syncMeta peer table) = .ok changes) :
    c ∈ changes ↔ ∃ r, Selected e db peer table r ∧ toChange table r = c := by
  cases present : db.tables table with
  | none =>
    unfold exportChangesSince at h
    rw [present] at h
    dsimp only at h
    split at h
    · cases h
    · obtain rfl := Except.ok.inj h
      simp [Selected, present]
  | some t =>
    rw [mem_export present h]
    simp [Selected, present, and_assoc]

/-- The column the export filters by holds text in every row, none of it after the start. -/
def DatedUpTo (t : Table) (col start : String) : Prop :=
  detectTimestampColumn t = some col ∧ ∀ r ∈ t.rows, ∃ s, r.cell col = .text s ∧ replaceT s ≤ start

theorem selects_text {e : Engine} {t : Table} {col s : String} {since : Option String} {r : Row}
    (column : detectTimestampColumn t = some col) (cell : r.cell col = .text s) :
    selects e t since r = true ↔ ∀ p ∈ since, replaceT p < replaceT s := by
  cases since with
  | none => simp [selects]
  | some p => simp [selects, column, cell, SqlValue.asText]

/-! ### Rows the apply writes again -/

/-- The iteration stores a row in the place of this one. -/
def Iteration.Rewrites (e : Engine) (name : String) (r : Row) (i : Iteration) : Prop :=
  i.change.tableName = name ∧ ∃ t entries, Stores e i.faults i.db i.change t entries ∧
    t.schema.conflict (incomingRow e i.faults.defaults t entries) r = true

theorem applyChange_keeps {e : Engine} {f : Faults} {db : Database} {c : SyncChange} {name : String} {t : Table}
    {r : Row} (present : db.tables name = some t) (member : r ∈ t.rows)
    (left : ¬Iteration.Rewrites e name r ⟨db, f, c⟩) :
    ∃ t', (applyChange e f db c).1.tables name = some t' ∧ t'.schema = t.schema ∧ r ∈ t'.rows := by
  by_cases here : name = c.tableName
  · subst name
    rcases applyChange_cases e f db c with ⟨u, entries, stores⟩ | ⟨_, why, rejected⟩
    · obtain rfl : t = u := Option.some.inj (present.symm.trans stores.admitted.table)
      rw [applyChange_stores stores]
      refine ⟨stores.result, by simp, rfl, stores.mem_result.mpr (.inl ⟨member, ?_⟩)⟩
      by_contra clash
      rw [Bool.not_eq_false] at clash
      exact left ⟨rfl, t, entries, stores, clash⟩
    · rw [rejected]
      exact ⟨t, present, rfl, member⟩
  · exact ⟨t, (applyChange_tables_other e f db here).trans present, rfl, member⟩

theorem applyChangesInner_left {e : Engine} {name : String} {r : Row} {changes : List SyncChange} {fs : List Faults}
    {db : Database} {t : Table} {report : ApplyReport} (present : db.tables name = some t) (member : r ∈ t.rows)
    (left : ∀ i ∈ iterations e fs db changes, ¬i.Rewrites e name r) :
    ∃ t', (applyChangesInner e fs db changes report).1.tables name = some t' ∧ t'.schema = t.schema ∧
      r ∈ t'.rows := by
  induction changes generalizing fs db t report with
  | nil => exact ⟨t, present, rfl, member⟩
  | cons c rest ih =>
    obtain ⟨t₁, present₁, schema₁, member₁⟩ := applyChange_keeps present member (left _ List.mem_cons_self)
    obtain ⟨t', final, schema, kept⟩ := ih present₁ member₁ fun i later => left i (List.mem_cons_of_mem _ later)
    exact ⟨t', final, schema.trans schema₁, kept⟩

theorem applyChangesDetailed_left {e : Engine} {f : ApplyFaults} {db : Database} {changes : List SyncChange}
    {name : String} {t : Table} {r : Row} (present : db.tables name = some t) (member : r ∈ t.rows)
    (left : ∀ i ∈ callIterations e f db changes, ¬i.Rewrites e name r) :
    ∃ t', (applyChangesDetailed e f db changes).1.tables name = some t' ∧ t'.schema = t.schema ∧ r ∈ t'.rows := by
  unfold applyChangesDetailed
  split
  · exact ⟨t, present, rfl, member⟩
  split
  · exact ⟨t, present, rfl, member⟩
  · rename_i ran
    rw [callIterations, if_neg ran] at left
    exact applyChangesInner_left present member left

/-! ### Where the cursor ends up -/

theorem replaceT_of_normalised_lt {c x : String} (normalised : 'T' ∉ c.toList) : replaceT c < x ↔ c < x := by
  rw [replaceT_of_free normalised]

/-- When the new cursor, as the filter reads it, stays below a timestamp that the old one is below. -/
theorem computeNewCursor_misses {prevSince exportedMax appliedMax : Option String} {start x : String}
    (normalised : ∀ c, cursorCandidate exportedMax appliedMax = some c → 'T' ∉ c.toList)
    (start_normalised : 'T' ∉ start.toList) (before : ∀ p ∈ prevSince, replaceT p < x) (early : x ≤ start) :
    (∀ c ∈ computeNewCursor prevSince exportedMax appliedMax start, replaceT c < x) ↔
      ¬∃ c, cursorCandidate exportedMax appliedMax = some c ∧ x ≤ c ∧ ∀ p ∈ prevSince, p ≤ c ∧ p ≤ start := by
  rcases computeNewCursor_cases prevSince exportedMax appliedMax start with
    ⟨nothing, kept⟩ | ⟨c, candidate, ⟨prev, taken⟩ | ⟨p, prev, behind, taken⟩⟩
  · rw [kept, nothing]
    exact ⟨fun _ ⟨c, some_candidate, _⟩ => (nomatch some_candidate), fun _ => before⟩
  · have capped : 'T' ∉ (capAt start c).toList := by
      rcases capAt_eq start c with same | same <;> rw [same]
      · exact normalised c candidate
      · exact start_normalised
    have reaches : ∀ p ∈ prevSince, p ≤ capAt start c := by
      intro p held
      rcases prev with below | same
      · exact (below p held).le
      · exact (Option.some.inj (held.symm.trans same)).le
    have bounds : ∀ p ∈ prevSince, p ≤ c ∧ p ≤ start := by
      intro p held
      have not_behind : ¬capAt start c < p := not_lt.mpr (reaches p held)
      rw [capAt_lt, not_or, not_lt, not_lt] at not_behind
      exact not_behind.symm
    simp only [taken, Option.mem_some_iff, forall_eq', replaceT_of_normalised_lt capped, candidate,
      Option.some.injEq, exists_eq_left', not_and, capAt_lt, not_lt.mpr early, false_or]
    exact ⟨fun below reached _ => absurd below (not_lt.mpr reached),
      fun misses => not_le.mp fun reached => misses reached bounds⟩
  · simp only [taken, Option.mem_some_iff, forall_eq', candidate, Option.some.injEq, exists_eq_left', not_and]
    refine ⟨fun _ _ all => ?_, fun _ => before p prev⟩
    obtain ⟨low, early_p⟩ := all p prev
    rcases capAt_lt.mp behind with late | above
    · exact absurd late (not_lt.mpr early_p)
    · exact absurd above (not_lt.mpr low)

/-- A row the round exported or stored carries an `updated_at` of at least `x`, and neither it nor the
start of the round comes before the previous cursor. -/
def Reaches (e : Engine) (io : RoundIo) (db : Database) (peer table : String) (l r : List SyncChange)
    (x : String) : Prop :=
  ∃ u, DateExchanged e io db l r u ∧ x ≤ u ∧ ∀ p ∈ db.syncMeta peer table, p ≤ u ∧ p ≤ io.roundStartAt

section Rounds

variable {e : Engine} {io : RoundIo} {db : Database} {peer table : String} {l r : List SyncChange} {report : ApplyReport}

theorem Completes.candidate_exchanged (done : Completes e io db peer table l r report) {c : String}
    (h : cursorCandidate (maxUpdatedAt l) report.appliedMaxUpdatedAt = some c) : DateExchanged e io db l r c := by
  rcases cursorCandidate_mem h with exported | applied
  · rw [maxUpdatedAt_eq] at exported
    exact .inl (List.mem_filterMap.mp (List.max?_eq_some_iff.mp exported).1)
  · rw [applyChangesDetailed_ok done.applied] at applied
    rcases report_mem applied with none_yet | stored
    · cases none_yet
    · exact .inr (List.mem_map.mp stored)

theorem Completes.exchanged_le_candidate (done : Completes e io db peer table l r report) {u : String}
    (h : DateExchanged e io db l r u) :
    ∃ c, cursorCandidate (maxUpdatedAt l) report.appliedMaxUpdatedAt = some c ∧ u ≤ c := by
  by_contra none_above
  have below : Below (cursorCandidate (maxUpdatedAt l) report.appliedMaxUpdatedAt) u := by
    intro c candidate
    by_contra reached
    exact none_above ⟨c, candidate, not_lt.mp reached⟩
  obtain ⟨exported, stored⟩ := (exchangedBelow_iff done).mpr ((cursorCandidate_below ..).mp below)
  rcases h with ⟨c, member, dated⟩ | ⟨i, member, out⟩
  · exact lt_irrefl u (exported c member u dated)
  · exact lt_irrefl u (stored i member u out)

theorem Completes.reaches_iff (done : Completes e io db peer table l r report) (x : String) :
    Reaches e io db peer table l r x ↔
      ∃ c, cursorCandidate (maxUpdatedAt l) report.appliedMaxUpdatedAt = some c ∧ x ≤ c ∧
        ∀ p ∈ db.syncMeta peer table, p ≤ c ∧ p ≤ io.roundStartAt := by
  constructor
  · rintro ⟨u, exchanged, reached, bounds⟩
    obtain ⟨c, candidate, above⟩ := done.exchanged_le_candidate exchanged
    exact ⟨c, candidate, reached.trans above, fun p held => ⟨(bounds p held).1.trans above, (bounds p held).2⟩⟩
  · rintro ⟨c, candidate, reached, bounds⟩
    exact ⟨c, done.candidate_exchanged candidate, reached, bounds⟩

/-- The apply of the round stores nothing in the place of the row. -/
def LeftAlone (e : Engine) (io : RoundIo) (db : Database) (table : String) (remoteChanges : List SyncChange)
    (row : Row) : Prop :=
  ∀ i ∈ callIterations e io.applyFaults db remoteChanges, ¬i.Rewrites e table row

theorem Completes.candidate_normalised (done : Completes e io db peer table l r report) {c : String}
    (h : cursorCandidate (maxUpdatedAt l) report.appliedMaxUpdatedAt = some c) : 'T' ∉ c.toList := by
  rcases cursorCandidate_mem h with exported | applied
  · exact maxUpdatedAt_normalised exported
  · exact done.applied_normalised applied

theorem Completes.syncMeta_stored (done : Completes e io db peer table l r report) (reads : io.metaFault = false)
    (stores : io.upsertFault = false) :
    (syncTableWithPeer e io db peer table).1.syncMeta peer table =
      computeNewCursor (db.syncMeta peer table) (maxUpdatedAt l) report.appliedMaxUpdatedAt io.roundStartAt := by
  rw [syncTableWithPeer_syncMeta done, stores, if_neg Bool.false_ne_true, getSyncMeta, reads,
    if_neg Bool.false_ne_true, computeNewCursor_or]

theorem Completes.left_alone (done : Completes e io db peer table l r report) {t : Table} {row : Row}
    (present : db.tables table = some t) (member : row ∈ t.rows) (left : LeftAlone e io db table r row) :
    ∃ t', (syncTableWithPeer e io db peer table).1.tables table = some t' ∧ t'.schema = t.schema ∧ row ∈ t'.rows := by
  rw [syncTableWithPeer_completes done, upsertSyncMeta_tables]
  exact applyChangesDetailed_left present member left

theorem Completes.not_selected_iff {t : Table} {col s : String} {row : Row}
    (done : Completes e io db peer table l r report) (reads : io.metaFault = false) (stores : io.upsertFault = false)
    (start : 'T' ∉ io.roundStartAt.toList) (present : db.tables table = some t)
    (column : detectTimestampColumn t = some col) (selected : Selected e db peer table row)
    (left : LeftAlone e io db table r row) (cell : row.cell col = .text s) (early : replaceT s ≤ io.roundStartAt) :
    ¬Selected e (syncTableWithPeer e io db peer table).1 peer table row ↔
      Reaches e io db peer table l r (replaceT s) := by
  obtain ⟨u, there, member, chosen⟩ := selected
  obtain rfl : t = u := Option.some.inj (present.symm.trans there)
  obtain ⟨t', present', schema, member'⟩ := done.left_alone present member left
  have column' : detectTimestampColumn t' = some col := by
    rw [← column]
    unfold detectTimestampColumn
    rw [schema]
  have misses := computeNewCursor_misses (fun c => done.candidate_normalised) start
    ((selects_text column cell).mp chosen) early
  rw [← done.reaches_iff, ← done.syncMeta_stored reads stores, ← selects_text column' cell] at misses
  have again : Selected e (syncTableWithPeer e io db peer table).1 peer table row ↔
      selects e t' ((syncTableWithPeer e io db peer table).1.syncMeta peer table) row = true := by
    refine ⟨fun ⟨u, there, _, chosen⟩ => ?_, fun chosen => ⟨t', present', member', chosen⟩⟩
    rwa [Option.some.inj (present'.symm.trans there)]
  rw [again, misses, not_not]

/-- Exactly when the cursor a round stores excludes the rows it exported, as far as they are left
alone. -/
theorem exported_not_repeated_iff {t : Table} {col : String} (done : Completes e io db peer table l r report)
    (reads : io.metaFault = false) (stores : io.upsertFault = false) (start : 'T' ∉ io.roundStartAt.toList)
    (present : db.tables table = some t) (dated : DatedUpTo t col io.roundStartAt) :
    (∀ row, Selected e db peer table row → LeftAlone e io db table r row →
        ¬Selected e (syncTableWithPeer e io db peer table).1 peer table row) ↔
      ∀ row s, Selected e db peer table row → LeftAlone e io db table r row → row.cell col = .text s →
        Reaches e io db peer table l r (replaceT s) := by
  constructor
  · intro once row s selected left cell
    obtain ⟨u, there, member, _⟩ := id selected
    obtain rfl : t = u := Option.some.inj (present.symm.trans there)
    obtain ⟨s', cell', early⟩ := dated.2 row member
    obtain rfl : s = s' := SqlValue.text.inj (cell.symm.trans cell')
    exact (done.not_selected_iff reads stores start present dated.1 selected left cell early).mp
      (once row selected left)
  · intro reaches row selected left
    obtain ⟨u, there, member, _⟩ := id selected
    obtain rfl : t = u := Option.some.inj (present.symm.trans there)
    obtain ⟨s, cell, early⟩ := dated.2 row member
    exact (done.not_selected_iff reads stores start present dated.1 selected left cell early).mpr
      (reaches row s selected left cell)

/-- A table with `updated_at` passes: each exported row carries its own timestamp. -/
theorem updatedAt_exported_once {t : Table} (done : Completes e io db peer table l r report)
    (reads : io.metaFault = false) (stores : io.upsertFault = false) (start : 'T' ∉ io.roundStartAt.toList)
    (normalised : db.CursorsNormalised) (present : db.tables table = some t)
    (dated : DatedUpTo t "updated_at" io.roundStartAt) {row : Row} (selected : Selected e db peer table row)
    (left : LeftAlone e io db table r row) :
    ¬Selected e (syncTableWithPeer e io db peer table).1 peer table row := by
  obtain ⟨u, there, member, chosen⟩ := id selected
  obtain rfl : t = u := Option.some.inj (present.symm.trans there)
  obtain ⟨s, cell, early⟩ := dated.2 row member
  refine (done.not_selected_iff reads stores start present dated.1 selected left cell early).mpr ?_
  have exported := done.exported
  rw [getSyncMeta, reads, if_neg Bool.false_ne_true] at exported
  have date : (toChange table row).date = some (replaceT s) := by
    rw [SyncChange.date, toChange_data]
    exact (remoteUpdatedAt_entriesOf (by simp [cell])).trans (Row.stamp_of_cell cell)
  refine ⟨replaceT s, .inl ⟨_, (mem_export_iff exported).mpr ⟨row, selected, rfl⟩, date⟩, le_rfl, fun p held => ?_⟩
  have behind := (selects_text dated.1 cell).mp chosen p held
  rw [replaceT_of_free (normalised peer table p held)] at behind
  exact ⟨behind.le, behind.le.trans early⟩

end Rounds

/-! ### A table with `created_at` only -/

def notesSchema : Schema where
  columns := [{ name := "id", affinity := .integer }, { name := "created_at", affinity := .text, notNull := true }]
  rowid := true
  distinct := by decide
  id_spelled := by decide
  rowid_integer := by decide

def note : Row := [("id", .integer 1), ("created_at", .text "2026-04-21 08:00:00")]

def notesTable : Table where
  schema := notesSchema
  rows := [note]
  shaped := by decide
  accepted := by decide
  distinct := List.pairwise_singleton _ _

def notesDb : Database where
  tables name := if name = "knowledge_base" then some notesTable else none
  syncMeta _ _ := none

def quietIo : RoundIo where
  roundStartAt := "2026-04-21 10:00:00"
  send _ := .ok ()
  fetch _ := .ok []

theorem notes_completes :
    Completes sampleEngine quietIo notesDb "peer-b" "knowledge_base" [toChange "knowledge_base" note] [] {} where
  readable := rfl
  exported := rfl
  sent _ := rfl
  fetched := rfl
  applied := rfl

theorem notes_datedUpTo : DatedUpTo notesTable "created_at" quietIo.roundStartAt := by
  refine ⟨by decide, fun r member => ?_⟩
  obtain rfl := List.mem_singleton.mp member
  exact ⟨_, rfl, by decide⟩

theorem exported_not_repeated_iff_notes :
    (∀ row, Selected sampleEngine notesDb "peer-b" "knowledge_base" row →
        LeftAlone sampleEngine quietIo notesDb "knowledge_base" [] row →
        ¬Selected sampleEngine (syncTableWithPeer sampleEngine quietIo notesDb "peer-b" "knowledge_base").1 "peer-b"
          "knowledge_base" row) ↔
      ∀ row s, Selected sampleEngine notesDb "peer-b" "knowledge_base" row →
        LeftAlone sampleEngine quietIo notesDb "knowledge_base" [] row → row.cell "created_at" = .text s →
        Reaches sampleEngine quietIo notesDb "peer-b" "knowledge_base" [toChange "knowledge_base" note] []
          (replaceT s) :=
  exported_not_repeated_iff notes_completes rfl rfl (by decide) rfl notes_datedUpTo

/-- The note is exported, the round completes, and the next export returns the note again. -/
theorem created_row_repeated :
    Completes sampleEngine quietIo notesDb "peer-b" "knowledge_base" [toChange "knowledge_base" note] [] {} ∧
      Selected sampleEngine notesDb "peer-b" "knowledge_base" note ∧
      LeftAlone sampleEngine quietIo notesDb "knowledge_base" [] note ∧
      Selected sampleEngine (syncTableWithPeer sampleEngine quietIo notesDb "peer-b" "knowledge_base").1 "peer-b"
        "knowledge_base" note :=
  ⟨notes_completes, ⟨_, rfl, List.mem_cons_self, rfl⟩, (fun _ none_run => nomatch none_run),
    ⟨_, rfl, List.mem_cons_self, rfl⟩⟩

end ConvergioMesh
