import ConvergioMesh.Sqlite.Table

/-! The change records peers exchange, and the database of a node. -/

namespace ConvergioMesh

structure SyncChange where
  tableName : String
  pk : Json
  data : Json

def SyncChange.wired (wireReal : F64 → F64) (c : SyncChange) : SyncChange :=
  ⟨c.tableName, c.pk.wired wireReal, c.data.wired wireReal⟩

/-- A list of changes as its receiver reads it from the JSON text. -/
def overWire (e : Engine) (changes : List SyncChange) : List SyncChange := changes.map (·.wired e.wireReal)

def syncTables : List String :=
  ["plans", "tasks", "waves", "knowledge_base", "notifications", "task_evidence", "delegations",
    "solve_sessions", "agent_catalog", "ipc_messages", "ipc_agents"]

/-- A node's database: its tables, by the names as the code spells them, and `last_synced` of `_sync_meta` by peer
and table. -/
structure Database where
  tables : String → Option Table
  syncMeta : String → String → Option String

namespace Database

def setTable (db : Database) (name : String) (t : Table) : Database :=
  { db with tables := fun n => if n = name then some t else db.tables n }

@[simp] theorem setTable_tables_same (db : Database) (name : String) (t : Table) :
    (db.setTable name t).tables name = some t := by
  simp [setTable]

@[simp] theorem setTable_tables_other (db : Database) {name other : String} (t : Table)
    (different : other ≠ name) : (db.setTable name t).tables other = db.tables other := by
  simp [setTable, different]

@[simp] theorem setTable_syncMeta (db : Database) (name : String) (t : Table) :
    (db.setTable name t).syncMeta = db.syncMeta := rfl

def setMeta (db : Database) (peer table cursor : String) : Database :=
  { db with syncMeta := fun p n => if p = peer ∧ n = table then some cursor else db.syncMeta p n }

@[simp] theorem setMeta_syncMeta_same (db : Database) (peer table cursor : String) :
    (db.setMeta peer table cursor).syncMeta peer table = some cursor := by
  simp [setMeta]

end Database

inductive SqlError where
  | invalidParameterName
  | noSuchColumn
  /-- A parameter is bound to a statement that has no place for it. -/
  | invalidParameterCount
  /-- A failure outside the statement itself: a locked database, a full disk. -/
  | fault
  deriving DecidableEq

/-- `row.get::<_, Option<String>>` of a column: only a TEXT is read. -/
def Row.textAt (r : Row) (name : String) : Option String :=
  match r.cell name with
  | .text s => some s
  | _ => none

def Row.updatedAt (r : Row) : Option String := r.textAt "updated_at"

/-- `updated_at` as every comparison of timestamps sees it. -/
def Row.stamp (r : Row) : Option String := r.updatedAt.map replaceT

theorem Row.stamp_of_cell {r : Row} {s : String} (h : r.cell "updated_at" = .text s) :
    r.stamp = some (replaceT s) := by
  simp [stamp, updatedAt, textAt, h]

theorem Row.stamp_some {r : Row} {l : String} (h : r.stamp = some l) :
    ∃ raw, r.cell "updated_at" = .text raw ∧ r.updatedAt = some raw ∧ l = replaceT raw := by
  unfold Row.stamp Row.updatedAt Row.textAt at h
  split at h
  · rename_i raw cell
    exact ⟨raw, cell, by simp [Row.updatedAt, Row.textAt, cell], (Option.some.inj h).symm⟩
  · cases h

theorem Row.stamp_column {t : Table} {r : Row} (member : r ∈ t.rows) {l : String} (h : r.stamp = some l) :
    "updated_at" ∈ t.schema.names := by
  obtain ⟨raw, cell, _⟩ := Row.stamp_some h
  rw [← t.shaped r member]
  exact Row.mem_names_of_cell (by rw [cell]; simp)

/-- The stamp of a row, the empty text when it has none. -/
def Row.date (r : Row) : String := r.stamp.getD ""

theorem Row.date_of_stamp {r : Row} {l : String} (h : r.stamp = some l) : r.date = l := by
  rw [Row.date, h]
  rfl

def Row.key (r : Row) : Key := (r.cell "id").key

theorem Row.key_eq_iff {r s : Row} (id : r.cell "id" ≠ .null) :
    r.key = s.key ↔ (r.cell "id").same (s.cell "id") = true := by
  rw [SqlValue.same_iff]
  exact ⟨fun same => ⟨id, same⟩, fun same => same.2⟩

theorem Row.same_id_iff {r s : Row} (id : r.cell "id" ≠ .null) :
    (s.cell "id").same (r.cell "id") = true ↔ s.key = r.key :=
  ⟨fun same => ((key_eq_iff id).mpr (SqlValue.same_symm same)).symm,
    fun key => SqlValue.same_symm ((key_eq_iff id).mp key.symm)⟩

theorem Table.conflict_iff_key {sch : Schema} (only_id : sch.uniques = []) (binary : sch.collation "id" = .binary)
    {r s : Row} (id : r.cell "id" ≠ .null) : sch.conflict r s = true ↔ r.key = s.key := by
  rw [conflict_of_no_uniques only_id, Schema.same_of_binary binary, Row.key_eq_iff id]

theorem Table.key_of_conflict {sch : Schema} (only_id : sch.uniques = []) (binary : sch.collation "id" = .binary)
    {r s : Row} (clash : sch.conflict r s = true) : s.key = r.key := by
  rw [conflict_of_no_uniques only_id, Schema.same_of_binary binary] at clash
  exact (SqlValue.same_iff.mp clash).2.symm

end ConvergioMesh
