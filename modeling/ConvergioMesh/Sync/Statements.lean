import ConvergioMesh.Library.SqlText
import ConvergioMesh.Sync.Incoming
import ConvergioMesh.Sync.Plans

/-!
# The statements of apply

The texts that an iteration of `apply_changes_inner` prepares and the values it binds. Whatever a
peer sends, a text consists of fixed words, the name of a synced table and the names of local
columns.
-/

namespace ConvergioMesh

open Library

structure SqlStatement where
  sql : String
  bound : List SqlValue
  deriving DecidableEq

def quoteName (name : String) : String := "\"" ++ name ++ "\""

/-- The PRAGMA of `local_table_columns`. -/
def tableInfoStatement (table : String) : SqlStatement := ⟨"PRAGMA table_info(" ++ quoteName table ++ ")", []⟩

/-- The query of `local_updated_at`. -/
def localUpdatedAtStatement (table : String) (pk : SqlValue) : SqlStatement :=
  ⟨"SELECT updated_at FROM " ++ quoteName table ++ " WHERE id = ?1", [pk]⟩

def insertStatement (p : Pending) : SqlStatement where
  sql := "INSERT OR REPLACE INTO " ++ quoteName p.tableName ++ " (" ++
    String.intercalate ", " (p.columns.map quoteName) ++ ") VALUES (" ++
    String.intercalate ", " ((List.range' 1 p.columns.length).map fun i => "?" ++ toString i) ++ ")"
  bound := p.values.map .text

/-- The query is made for a change with a timestamp and a key that can be bound. -/
def lwwStatements (c : SyncChange) (entries : List (String × Json)) : List SqlStatement :=
  if (remoteUpdatedAt entries).isSome then ((pkParam c.pk).map (localUpdatedAtStatement c.tableName)).toList else []

/-- What one iteration prepares, in order. -/
def changeStatements (e : Engine) (f : Faults) (db : Database) (c : SyncChange) : List SqlStatement :=
  if c.tableName ∈ syncTables ∧ c.data.asObject.isSome then
    tableInfoStatement c.tableName ::
      match screenChange f db c with
      | .error _ => []
      | .ok (entries, _) =>
        lwwStatements c entries ++
          match checkChange e f db c with
          | .error _ => []
          | .ok p => [insertStatement p]
  else []

/-! ### What a text names -/

def sqlKeywords : List String :=
  ["PRAGMA", "table_info", "SELECT", "FROM", "WHERE", "INSERT", "OR", "REPLACE", "INTO", "VALUES"]

def tokenName : SqlToken → Option String
  | .quoted name => some (String.ofList name)
  | .word w => if String.ofList w ∈ sqlKeywords then none else some (String.ofList w)
  | .parameter _ | .mark _ => none

def tokenParameter : SqlToken → Option String
  | .parameter digits => some (String.ofList digits)
  | .quoted _ | .word _ | .mark _ => none

/-- The tables and columns in the text. -/
def SqlStatement.names (s : SqlStatement) : List String := (sqlTokens s.sql.toList).filterMap tokenName

def SqlStatement.parameters (s : SqlStatement) : List String := (sqlTokens s.sql.toList).filterMap tokenParameter

theorem quoteName_toList (name : String) : (quoteName name).toList = '"' :: (name.toList ++ ['"']) := by
  simp [quoteName]

theorem tableInfo_tokens {table : String} (plain : '"' ∉ table.toList) :
    sqlTokens (tableInfoStatement table).sql.toList =
      [.word "PRAGMA".toList, .word "table_info".toList, .mark '(', .quoted table.toList, .mark ')'] := by
  have text : (tableInfoStatement table).sql.toList =
      "PRAGMA table_info(".toList ++ ('"' :: (table.toList ++ ['"']) ++ [')']) := by
    have mark : ")".toList = [')'] := rfl
    unfold tableInfoStatement
    rw [String.toList_append, String.toList_append, quoteName_toList, mark, List.append_assoc]
  have opened : SqlScan.idle.run "PRAGMA table_info(".toList =
      ([.word "PRAGMA".toList, .word "table_info".toList, .mark '('], .idle) := rfl
  rw [text, sqlTokens_of_run (SqlScan.run_pieces opened (standsFor_quoted plain ')' (.inr rfl)))]
  rfl

theorem localUpdatedAt_tokens {table : String} (plain : '"' ∉ table.toList) (pk : SqlValue) :
    sqlTokens (localUpdatedAtStatement table pk).sql.toList =
      [.word "SELECT".toList, .word "updated_at".toList, .word "FROM".toList, .quoted table.toList, .word "WHERE".toList,
        .word "id".toList, .mark '=', .parameter ['1']] := by
  have text : (localUpdatedAtStatement table pk).sql.toList =
      "SELECT updated_at FROM ".toList ++ ('"' :: (table.toList ++ ['"']) ++ " WHERE id = ?1".toList) := by
    unfold localUpdatedAtStatement
    rw [String.toList_append, String.toList_append, quoteName_toList, List.append_assoc]
  have opened : SqlScan.idle.run "SELECT updated_at FROM ".toList =
      ([.word "SELECT".toList, .word "updated_at".toList, .word "FROM".toList], .idle) := rfl
  have closed : (SqlScan.closing table.toList).run " WHERE id = ?1".toList =
      ([.quoted table.toList, .word "WHERE".toList, .word "id".toList, .mark '='], .parameter ['1']) := rfl
  rw [text, sqlTokens_of_run (SqlScan.run_pieces opened (SqlScan.run_pieces (SqlScan.run_quoted plain) closed))]
  rfl

theorem insertStatement_toList (p : Pending) :
    (insertStatement p).sql.toList = "INSERT OR REPLACE INTO ".toList ++
      ('"' :: (p.tableName.toList ++ ['"']) ++ (" (".toList ++
        ([',', ' '].intercalate (p.columns.map fun col => '"' :: (col.toList ++ ['"'])) ++ [')'] ++ (" VALUES (".toList ++
          ([',', ' '].intercalate ((List.range' 1 p.columns.length).map fun i => '?' :: (toString i).toList) ++
            [')']))))) := by
  have open_mark : " (".toList = [' ', '('] := rfl
  have comma : ", ".toList = [',', ' '] := rfl
  have values : ") VALUES (".toList = [')'] ++ " VALUES (".toList := rfl
  have close_mark : ")".toList = [')'] := rfl
  have names : (p.columns.map quoteName).map String.toList = p.columns.map fun col => '"' :: (col.toList ++ ['"']) := by
    rw [List.map_map]
    exact List.map_congr_left fun col _ => quoteName_toList col
  have numbers : ((List.range' 1 p.columns.length).map fun i => "?" ++ toString i).map String.toList =
      (List.range' 1 p.columns.length).map fun i => '?' :: (toString i).toList := by
    rw [List.map_map]
    exact List.map_congr_left fun i _ => String.toList_append
  unfold insertStatement
  simp only [String.toList_append, String.toList_intercalate, quoteName_toList, names, numbers, comma, values, close_mark,
    open_mark, List.append_assoc]

theorem insert_tokens {p : Pending} (plain : '"' ∉ p.tableName.toList) (plainColumns : ∀ col ∈ p.columns, '"' ∉ col.toList)
    (nonempty : p.columns ≠ []) :
    sqlTokens (insertStatement p).sql.toList =
      [.word "INSERT".toList, .word "OR".toList, .word "REPLACE".toList, .word "INTO".toList, .quoted p.tableName.toList,
        .mark '('] ++
      ((p.columns.map fun col => SqlToken.quoted col.toList).intersperse (.mark ',') ++ [.mark ')']) ++
      [.word "VALUES".toList, .mark '('] ++
      (((List.range' 1 p.columns.length).map fun i => SqlToken.parameter (toString i).toList).intersperse (.mark ',') ++
        [.mark ')']) := by
  have opened : SqlScan.idle.run "INSERT OR REPLACE INTO ".toList =
      ([.word "INSERT".toList, .word "OR".toList, .word "REPLACE".toList, .word "INTO".toList], .idle) := rfl
  have list : (SqlScan.closing p.tableName.toList).run " (".toList =
      ([.quoted p.tableName.toList, .mark '('], .idle) := rfl
  have columns := run_list (fun col member => standsFor_quoted (plainColumns col member)) nonempty
  have between : SqlScan.idle.run " VALUES (".toList = ([.word "VALUES".toList, .mark '('], .idle) := rfl
  have numbered : List.range' 1 p.columns.length ≠ [] := by simpa using nonempty
  have numbers := run_list (fun i _ => standsFor_parameter (isDigit_of_mem_toString i)) numbered
  rw [insertStatement_toList, sqlTokens_of_run (SqlScan.run_pieces opened (SqlScan.run_pieces (SqlScan.run_quoted plain)
    (SqlScan.run_pieces list (SqlScan.run_pieces columns (SqlScan.run_pieces between numbers)))))]
  simp [SqlScan.finish]

theorem tokenName_keyword {w : String} (keyword : w ∈ sqlKeywords) : tokenName (.word w.toList) = none := by
  rw [tokenName, String.ofList_toList, if_pos keyword]

theorem tokenName_quoted (name : String) : tokenName (.quoted name.toList) = some name :=
  congrArg some String.ofList_toList

theorem tableInfo_names {table : String} (plain : '"' ∉ table.toList) :
    (tableInfoStatement table).names = [table] ∧ (tableInfoStatement table).parameters = [] := by
  unfold SqlStatement.names SqlStatement.parameters
  rw [tableInfo_tokens plain, List.filterMap_cons_none (tokenName_keyword (by decide)),
    List.filterMap_cons_none (tokenName_keyword (by decide)), List.filterMap_cons_none rfl,
    List.filterMap_cons_some (tokenName_quoted table)]
  exact ⟨rfl, rfl⟩

theorem localUpdatedAt_names (table : String) (plain : '"' ∉ table.toList) (pk : SqlValue) :
    (localUpdatedAtStatement table pk).names = ["updated_at", table, "id"] ∧
      (localUpdatedAtStatement table pk).parameters = ["1"] := by
  have updated : tokenName (.word "updated_at".toList) = some "updated_at" := by decide
  have id : tokenName (.word "id".toList) = some "id" := by decide
  unfold SqlStatement.names SqlStatement.parameters
  rw [localUpdatedAt_tokens plain pk, List.filterMap_cons_none (tokenName_keyword (by decide)),
    List.filterMap_cons_some updated, List.filterMap_cons_none (tokenName_keyword (by decide)),
    List.filterMap_cons_some (tokenName_quoted table), List.filterMap_cons_none (tokenName_keyword (by decide)),
    List.filterMap_cons_some id]
  exact ⟨rfl, rfl⟩

theorem insert_names {p : Pending} (plain : '"' ∉ p.tableName.toList) (plainColumns : ∀ col ∈ p.columns, '"' ∉ col.toList)
    (nonempty : p.columns ≠ []) :
    (insertStatement p).names = p.tableName :: p.columns ∧
      (insertStatement p).parameters = (List.range' 1 p.columns.length).map toString := by
  have quoted : (tokenName ∘ fun col : String => SqlToken.quoted col.toList) = some := funext tokenName_quoted
  have numbered : (tokenParameter ∘ fun i : Nat => SqlToken.parameter (toString i).toList) = some ∘ toString :=
    funext fun i => congrArg some String.ofList_toList
  have columns : (p.columns.map fun col => SqlToken.quoted col.toList).filterMap tokenName = p.columns := by
    rw [List.filterMap_map, quoted, List.filterMap_some]
  have noParameter : (p.columns.map fun col => SqlToken.quoted col.toList).filterMap tokenParameter = [] := by
    simp [tokenParameter]
  have numbers : ((List.range' 1 p.columns.length).map fun i => SqlToken.parameter (toString i).toList).filterMap
      tokenParameter = (List.range' 1 p.columns.length).map toString := by
    rw [List.filterMap_map, numbered, List.filterMap_eq_map]
  have noName : ((List.range' 1 p.columns.length).map fun i => SqlToken.parameter (toString i).toList).filterMap
      tokenName = [] := by
    simp [tokenName]
  have marks {f : SqlToken → Option String} (none : f (.mark ',') = none) := filterMap_intersperse f (.mark ',') none
  unfold SqlStatement.names SqlStatement.parameters
  rw [insert_tokens plain plainColumns nonempty]
  constructor
  · simp only [List.filterMap_append, marks (f := tokenName) rfl, columns, noName]
    simp [List.filterMap_cons, tokenName, sqlKeywords]
  · simp only [List.filterMap_append, marks (f := tokenParameter) rfl, numbers, noParameter]
    simp [List.filterMap_cons, tokenParameter]

/-! ### The statements of a run -/

/-- A column with a safe name that the local table has. -/
def LocalColumn (db : Database) (c : SyncChange) (name : String) : Prop :=
  isSafeIdentifier name = true ∧ ∃ t, db.tables c.tableName = some t ∧ name ∈ t.schema.names

/-- Every name is the table of the change or a local column of it. -/
def NamesLocal (db : Database) (c : SyncChange) (s : SqlStatement) : Prop :=
  ∀ name ∈ s.names, name = c.tableName ∨ LocalColumn db c name

/-- What a statement names and binds. The query names two columns of its own, the others none that is not local. -/
inductive StatementFor (e : Engine) (db : Database) (c : SyncChange) (s : SqlStatement) : Prop where
  | tableInfo (names : s.names = [c.tableName]) (bound : s.bound = [])
  | localUpdatedAt (names : s.names = ["updated_at", c.tableName, "id"])
      (bound : ∃ pk, pkParam c.pk = some pk ∧ s.bound = [pk])
  | insert (entries : List (String × Json)) (cols : List String) (data : c.data = .object entries)
      (names : s.names = c.tableName :: cols) (columns : ∀ col ∈ cols, LocalColumn db c col)
      (bound : List.Forall₂ (fun col v => ∃ json, entries.lookup col = some json ∧ v = .text (jsonToSqlString e json))
        cols s.bound)

/-- The statement is about a synced table, and its parameters are numbered like the values it binds. -/
structure GuardedStatement (e : Engine) (db : Database) (c : SyncChange) (s : SqlStatement) : Prop where
  synced : c.tableName ∈ syncTables
  numbered : s.parameters = (List.range' 1 s.bound.length).map toString
  shape : StatementFor e db c s

variable {e : Engine} {f : Faults} {db : Database} {c : SyncChange}

theorem quote_not_mem_of_safe {name : String} (safe : isSafeIdentifier name = true) : '"' ∉ name.toList := by
  intro member
  rw [isSafeIdentifier, Bool.and_eq_true, List.all_eq_true] at safe
  exact absurd (safe.2 _ member) (by decide)

theorem safe_of_synced {table : String} (synced : table ∈ syncTables) : isSafeIdentifier table = true := by
  have all : ∀ name ∈ syncTables, isSafeIdentifier name = true := by decide
  exact all table synced

theorem bound_forall {entries : List (String × Json)} {cols : List String} (known : ∀ col ∈ cols, col ∈ entries.map (·.1)) :
    List.Forall₂ (fun col v => ∃ json, entries.lookup col = some json ∧ v = .text (jsonToSqlString e json))
      cols ((boundValues e entries cols).map SqlValue.text) := by
  induction cols with
  | nil => exact .nil
  | cons col cols ih =>
    obtain ⟨json, found⟩ := lookup_isSome (known col List.mem_cons_self)
    have head : boundValues e entries (col :: cols) = jsonToSqlString e json :: boundValues e entries cols :=
      List.filterMap_cons_some (by rw [found]; rfl)
    rw [head, List.map_cons]
    exact .cons ⟨json, found, rfl⟩ (ih fun col' later => known col' (List.mem_cons_of_mem _ later))

theorem tableInfo_guarded (synced : c.tableName ∈ syncTables) : GuardedStatement e db c (tableInfoStatement c.tableName) := by
  obtain ⟨names, parameters⟩ := tableInfo_names (quote_not_mem_of_safe (safe_of_synced synced))
  exact ⟨synced, parameters, .tableInfo names rfl⟩

theorem localUpdatedAt_guarded (synced : c.tableName ∈ syncTables) {pk : SqlValue} (key : pkParam c.pk = some pk) :
    GuardedStatement e db c (localUpdatedAtStatement c.tableName pk) := by
  obtain ⟨names, parameters⟩ := localUpdatedAt_names _ (quote_not_mem_of_safe (safe_of_synced synced)) pk
  exact ⟨synced, parameters, .localUpdatedAt names ⟨pk, key, rfl⟩⟩

theorem insert_guarded {t : Table} {entries : List (String × Json)} (admitted : Admitted db c t entries) :
    GuardedStatement e db c (insertStatement (pendingOf e c t entries)) := by
  have table := quote_not_mem_of_safe (safe_of_synced admitted.synced)
  obtain ⟨names, parameters⟩ := insert_names (p := pendingOf e c t entries) table
    (fun col member => quote_not_mem_of_safe (admitted.safe col member)) admitted.known
  have listed : ∀ col ∈ knownColumns t.schema.names entries, col ∈ entries.map (·.1) :=
    fun col member => (mem_knownColumns.mp member).2
  have bound := bound_forall (e := e) listed
  refine ⟨admitted.synced, ?_, .insert entries _ admitted.data names (fun col known => ?_) bound⟩
  · rw [parameters]
    exact congrArg (fun n => (List.range' 1 n).map toString) bound.length_eq
  · exact ⟨admitted.safe col known, t, admitted.table, (mem_knownColumns.mp known).1⟩

theorem changeStatements_guarded {s : SqlStatement} (prepared : s ∈ changeStatements e f db c) : GuardedStatement e db c s := by
  unfold changeStatements at prepared
  split at prepared
  · rename_i passes
    rcases List.mem_cons.mp prepared with rfl | prepared
    · exact tableInfo_guarded passes.1
    split at prepared
    · cases prepared
    rename_i entries _ screened
    rcases List.mem_append.mp prepared with query | insert
    · unfold lwwStatements at query
      split at query
      · obtain ⟨pk, key, rfl⟩ := Option.map_eq_some_iff.mp (Option.mem_toList.mp query)
        exact localUpdatedAt_guarded passes.1 key
      · cases query
    · split at insert
      · cases insert
      rename_i p checked
      obtain ⟨_, t, entries', admitted, _, rfl⟩ := checkChange_ok.mp checked
      rw [List.mem_singleton.mp insert]
      exact insert_guarded admitted
  · cases prepared

theorem applyChange_tables_unsynced {name : String} (unsynced : name ∉ syncTables) :
    (applyChange e f db c).1.tables name = db.tables name := by
  rcases applyChange_cases e f db c with ⟨t, entries, stores⟩ | ⟨_, why, done⟩
  · rw [applyChange_stores stores]
    refine Database.setTable_tables_other _ _ fun same => unsynced ?_
    rw [same]
    exact stores.admitted.synced
  · rw [done]

/-- Every statement of a run is about a synced table and names only that table and safe columns of it, but for the query
for the timestamp, which names `updated_at` and `id`. It binds what the change carries, and other tables stay. -/
theorem apply_statements_guarded (e : Engine) (fs : List Faults) (db : Database) (changes : List SyncChange)
    (report : ApplyReport) :
    (∀ i ∈ iterations e fs db changes, ∀ s ∈ changeStatements e i.faults i.db i.change, GuardedStatement e i.db i.change s) ∧
    ∀ name, name ∉ syncTables → (applyChangesInner e fs db changes report).1.tables name = db.tables name := by
  refine ⟨fun i _ s prepared => changeStatements_guarded prepared, fun name unsynced => ?_⟩
  induction changes generalizing fs db report with
  | nil => rfl
  | cons c rest ih => exact (ih _ _ _).trans (applyChange_tables_unsynced unsynced)

/-- Messages without `updated_at`, as the schema of a table may have it. -/
def messagesTable : Table where
  schema :=
    { columns := [{ name := "id", affinity := .integer }, { name := "content", affinity := .text },
        { name := "created_at", affinity := .text }]
      rowid := true
      distinct := by decide
      id_spelled := by decide
      rowid_integer := by decide }
  rows := []
  shaped := by decide
  accepted := by decide
  distinct := by decide

def datedMessage : SyncChange :=
  ⟨"ipc_messages", .number (.posInt 1),
    .object [("content", .string "hello"), ("updated_at", .string "2026-04-21 10:00:00")]⟩

def messagesDb : Database where
  tables name := if name = "ipc_messages" then some messagesTable else none
  syncMeta _ _ := none

/-- For a change with a timestamp, `updated_at` is read from a table that has no such column. -/
theorem missing_column_queried :
    (localUpdatedAtStatement "ipc_messages" (.integer 1)).sql =
      "SELECT updated_at FROM \"ipc_messages\" WHERE id = ?1" ∧
    localUpdatedAtStatement "ipc_messages" (.integer 1) ∈ changeStatements sampleEngine {} messagesDb datedMessage ∧
    ¬NamesLocal messagesDb datedMessage (localUpdatedAtStatement "ipc_messages" (.integer 1)) := by
  have names := (localUpdatedAt_names "ipc_messages" (by decide) (.integer 1)).1
  refine ⟨rfl, by decide +kernel, fun isLocal => ?_⟩
  rcases isLocal "updated_at" (by rw [names]; decide) with same | ⟨_, t, present, column⟩
  · exact absurd same (by decide)
  · obtain rfl := Option.some.inj present
    exact absurd column (by decide)

end ConvergioMesh
