import ConvergioMesh.Sync.Statements

/-!
# What an apply sees of a database

Only the synced tables: on databases that agree in these, a batch has the same outcome. And a change sees only
its own table, so that each table is what its own changes make of it.
-/

namespace ConvergioMesh

/-- The databases have the same synced tables. -/
def SyncEqual (db db' : Database) : Prop := ∀ name ∈ syncTables, db.tables name = db'.tables name

variable {e : Engine} {db db' : Database}

theorem SyncEqual.setTable (same : SyncEqual db db') (name : String) (t : Table) :
    SyncEqual (db.setTable name t) (db'.setTable name t) := by
  intro other synced
  by_cases here : other = name
  · subst other
    rw [Database.setTable_tables_same, Database.setTable_tables_same]
  · rw [Database.setTable_tables_other _ _ here, Database.setTable_tables_other _ _ here, same other synced]

/-- The checks of a change read its own table only. -/
theorem checkChange_local {c : SyncChange} (same : db.tables c.tableName = db'.tables c.tableName) (f : Faults) :
    checkChange e f db c = checkChange e f db' c := by
  have columns : localTableColumns f.tableInfo db c.tableName = localTableColumns f.tableInfo db' c.tableName := by
    rw [localTableColumns, localTableColumns, same]
  have read : readLocal e f db c = readLocal e f db' c := by
    rw [readLocal, readLocal, localUpdatedAt, localUpdatedAt, same]
  rw [checkChange, checkChange, screenChange, screenChange, columns, read]

theorem SyncEqual.checkChange (same : SyncEqual db db') (f : Faults) (c : SyncChange) :
    checkChange e f db c = checkChange e f db' c := by
  by_cases listed : c.tableName ∈ syncTables
  · exact checkChange_local (same c.tableName listed) f
  · rw [ConvergioMesh.checkChange, ConvergioMesh.checkChange, screenChange, screenChange, if_pos listed, if_pos listed]

theorem checkChange_tableName {f : Faults} {c : SyncChange} {p : Pending} (passes : checkChange e f db c = .ok p) :
    p.tableName = c.tableName ∧ c.tableName ∈ syncTables := by
  obtain ⟨_, t, entries, admitted, _, rfl⟩ := checkChange_ok.mp passes
  exact ⟨rfl, admitted.synced⟩

theorem execInsert_local {p : Pending} (same : db.tables p.tableName = db'.tables p.tableName) (f : Faults) :
    (execInsert e f db p = (db, .rejected .insertFailed) ∧ execInsert e f db' p = (db', .rejected .insertFailed)) ∨
      ∃ t, execInsert e f db p = (db.setTable p.tableName t, .stored p.updatedAt) ∧
        execInsert e f db' p = (db'.setTable p.tableName t, .stored p.updatedAt) := by
  unfold execInsert
  dsimp only
  rw [same]
  cases if f.insert then none
      else (db'.tables p.tableName).bind (·.insertOrReplace e f.defaults (p.columns.zip p.values)) with
  | none => exact .inl ⟨rfl, rfl⟩
  | some t => exact .inr ⟨t, rfl, rfl⟩

theorem SyncEqual.applyChange (same : SyncEqual db db') (f : Faults) (c : SyncChange) :
    (applyChange e f db c).2 = (applyChange e f db' c).2 ∧
      SyncEqual (applyChange e f db c).1 (applyChange e f db' c).1 := by
  unfold ConvergioMesh.applyChange
  rw [← same.checkChange]
  cases check : ConvergioMesh.checkChange e f db c with
  | error why => exact ⟨rfl, same⟩
  | ok p =>
    obtain ⟨aims, synced⟩ := checkChange_tableName check
    dsimp only
    rcases execInsert_local (e := e) (same p.tableName (aims ▸ synced)) f with ⟨left, right⟩ | ⟨t, left, right⟩ <;>
      rw [left, right]
    · exact ⟨rfl, same⟩
    · exact ⟨rfl, same.setTable p.tableName t⟩

theorem SyncEqual.applyChangesInner (same : SyncEqual db db') (fs : List Faults) (changes : List SyncChange)
    (report : ApplyReport) :
    (applyChangesInner e fs db changes report).2 = (applyChangesInner e fs db' changes report).2 ∧
      SyncEqual (applyChangesInner e fs db changes report).1 (applyChangesInner e fs db' changes report).1 := by
  induction changes generalizing fs db db' report with
  | nil => exact ⟨rfl, same⟩
  | cons c rest ih =>
    obtain ⟨outcome, next⟩ := same.applyChange (e := e) (fs.headD {}) c
    simp only [ConvergioMesh.applyChangesInner]
    rw [outcome]
    exact ih next _ _

theorem SyncEqual.applyChanges (same : SyncEqual db db') (f : ApplyFaults) (changes : List SyncChange) :
    (applyChanges e f db changes).2 = (applyChanges e f db' changes).2 ∧
      SyncEqual (applyChanges e f db changes).1 (applyChanges e f db' changes).1 := by
  obtain ⟨report, tables⟩ := same.applyChangesInner (e := e) f.changes changes {}
  unfold ConvergioMesh.applyChanges applyChangesDetailed
  dsimp only
  split
  · exact ⟨rfl, same⟩
  split
  · exact ⟨rfl, same⟩
  · rw [report]
    exact ⟨rfl, tables⟩

/-! ### One table at a time -/

/-- What a change does to its table depends on nothing else in the database. -/
theorem applyChange_local {c : SyncChange} (same : db.tables c.tableName = db'.tables c.tableName) (f : Faults) :
    (applyChange e f db c).1.tables c.tableName = (applyChange e f db' c).1.tables c.tableName := by
  unfold applyChange
  rw [← checkChange_local same]
  cases check : checkChange e f db c with
  | error why => exact same
  | ok p =>
    obtain ⟨aims, _⟩ := checkChange_tableName check
    dsimp only
    rcases execInsert_local (e := e) (aims ▸ same) f with ⟨left, right⟩ | ⟨t, left, right⟩ <;> rw [left, right]
    · exact same
    · rw [← aims, Database.setTable_tables_same, Database.setTable_tables_same]

/-- The changes of a batch, each with what its iteration meets. -/
def attempts : List Faults → List SyncChange → List (Faults × SyncChange)
  | _, [] => []
  | fs, c :: rest => (fs.headD {}, c) :: attempts fs.tail rest

def applyAttempts (e : Engine) (db : Database) (as : List (Faults × SyncChange)) : Database :=
  as.foldl (fun db a => (applyChange e a.1 db a.2).1) db

theorem applyChangesInner_eq_attempts (fs : List Faults) (db : Database) (changes : List SyncChange)
    (report : ApplyReport) : (applyChangesInner e fs db changes report).1 = applyAttempts e db (attempts fs changes) := by
  induction changes generalizing fs db report with
  | nil => rfl
  | cons c rest ih => exact ih ..

/-- The database with this table alone. -/
def Database.only (db : Database) (name : String) : Database where
  tables other := if other = name then db.tables name else none
  syncMeta _ _ := none

/-- Of all changes only those for a table matter to it. -/
theorem applyAttempts_tables {name : String} (same : db.tables name = db'.tables name) (as : List (Faults × SyncChange)) :
    (applyAttempts e db as).tables name =
      (applyAttempts e db' (as.filter fun a => a.2.tableName = name)).tables name := by
  induction as generalizing db db' with
  | nil => exact same
  | cons a rest ih =>
    by_cases own : a.2.tableName = name
    · rw [List.filter_cons_of_pos (by simpa using own)]
      subst name
      exact ih (applyChange_local same a.1)
    · rw [List.filter_cons_of_neg (by simpa using own)]
      exact ih ((applyChange_tables_other e a.1 db (Ne.symm own)).trans same)

theorem applyAttempts_unsynced {name : String} (unsynced : name ∉ syncTables) (db : Database)
    (as : List (Faults × SyncChange)) : (applyAttempts e db as).tables name = db.tables name := by
  induction as generalizing db with
  | nil => rfl
  | cons a rest ih => exact (ih _).trans (applyChange_tables_unsynced unsynced)

theorem applyAttempts_syncMeta (e : Engine) (db : Database) (as : List (Faults × SyncChange)) :
    (applyAttempts e db as).syncMeta = db.syncMeta := by
  induction as generalizing db with
  | nil => rfl
  | cons a rest ih => exact (ih _).trans (applyChange_syncMeta e a.1 db a.2)

theorem applyAttempts_append (e : Engine) (db : Database) (as later : List (Faults × SyncChange)) :
    applyAttempts e db (as ++ later) = applyAttempts e (applyAttempts e db as) later := List.foldl_append

end ConvergioMesh
