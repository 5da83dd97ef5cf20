import ConvergioMesh.Sync.Export

/-!
# Apply

The loop of `apply_changes_inner`, one change at a time. An iteration is a SELECT (`checkChange`,
which ends in a rejection or in a pending INSERT) followed by that INSERT (`execInsert`), so that
the statements of concurrent writers can be interleaved. Failures that do not depend on the
statement, and what default expressions evaluate to, are an input.
-/

namespace ConvergioMesh

structure ApplyReport where
  applied : Nat := 0
  rejected : Nat := 0
  appliedMaxUpdatedAt : Option String := none
  deriving DecidableEq

/-- The seven ways an iteration ends without storing its change. -/
inductive Rejection where
  | notSyncTable
  | notObject
  | noLocalColumns
  | noKnownColumn
  | unsafeColumn
  | stale
  | insertFailed
  deriving DecidableEq

inductive Outcome where
  | rejected (why : Rejection)
  | stored (updatedAt : Option String)
  deriving DecidableEq

/-- `Some(cur) if cur >= ts` keeps the maximum, anything else takes `ts`. -/
def raiseMax (cur : Option String) : Option String → Option String
  | none => cur
  | some ts =>
    match cur with
    | some c => if ts ≤ c then some c else some ts
    | none => some ts

def ApplyReport.record (report : ApplyReport) : Outcome → ApplyReport
  | .rejected _ => { report with rejected := report.rejected + 1 }
  | .stored updatedAt =>
    { report with
      applied := report.applied + 1
      appliedMaxUpdatedAt := raiseMax report.appliedMaxUpdatedAt updatedAt }

def Outcome.isStored : Outcome → Bool
  | .rejected _ => false
  | .stored _ => true

theorem foldl_record_applied (outcomes : List Outcome) (report : ApplyReport) :
    (outcomes.foldl ApplyReport.record report).applied = report.applied + outcomes.countP (·.isStored) := by
  induction outcomes generalizing report with
  | nil => rfl
  | cons o rest ih =>
    rw [List.foldl_cons, ih, List.countP_cons]
    cases o with
    | rejected => simp [ApplyReport.record, Outcome.isStored]
    | stored =>
      simp only [ApplyReport.record, Outcome.isStored, if_true]
      omega

/-- What an iteration meets: the statements that fail, and the values that default expressions have
at its INSERT. -/
structure Faults where
  tableInfo : Bool := false
  select : Bool := false
  insert : Bool := false
  defaults : Row := []
  deriving DecidableEq

/-- No statement of the iteration fails. -/
structure Faults.Calm (f : Faults) : Prop where
  tableInfo : f.tableInfo = false
  select : f.select = false
  insert : f.insert = false

/-- `local_table_columns`: none for a missing table or a failed PRAGMA. -/
def localTableColumns (fault : Bool) (db : Database) (table : String) : List String :=
  if fault then [] else (db.tables table).elim [] (·.schema.names)

/-- `pk` as the parameter of `WHERE id = ?1`; only a 64-bit integer or a string is ever bound. -/
def pkParam : Json → Option SqlValue
  | .number n => n.asI64.map .integer
  | .string s => some (.text s)
  | _ => none

/-- `local_updated_at`; SQL takes `updated_at` for a column of that name in any case. -/
def localUpdatedAt (e : Engine) (db : Database) (table : String) (pk : Json) : Option String :=
  (db.tables table).bind fun t =>
    (t.schema.resolve "updated_at").bind fun column =>
      if "id" ∈ t.schema.names then
        (pkParam pk).bind fun v => (t.find (t.schema.idOperand e v)).bind (·.textAt column)
      else none

def jsonToSqlString (e : Engine) : Json → String
  | .string s => s
  | .null => ""
  | v => v.print e.showReal

def maxUpdatedAt (changes : List SyncChange) : Option String :=
  ((changes.filterMap fun c => c.data.asObject).filterMap fun entries =>
    ((entries.lookup "updated_at").bind Json.asStr).map replaceT).max?

def knownColumns (localCols : List String) (entries : List (String × Json)) : List String :=
  (entries.map (·.1)).filter (localCols.contains ·)

def boundValues (e : Engine) (entries : List (String × Json)) (cols : List String) : List String :=
  cols.filterMap fun c => (entries.lookup c).map (jsonToSqlString e)

def remoteUpdatedAt (entries : List (String × Json)) : Option String :=
  ((entries.lookup "updated_at").bind Json.asStr).map replaceT

/-- An INSERT OR REPLACE that has passed the checks and waits to be executed. -/
structure Pending where
  tableName : String
  columns : List String
  values : List String
  updatedAt : Option String

/-- The checks before the LWW comparison: the entries and the columns they leave. -/
def screenChange (f : Faults) (db : Database) (c : SyncChange) :
    Except Rejection (List (String × Json) × List String) :=
  if c.tableName ∉ syncTables then .error .notSyncTable
  else
    match c.data.asObject with
    | none => .error .notObject
    | some entries =>
      let localCols := localTableColumns f.tableInfo db c.tableName
      if localCols.isEmpty then .error .noLocalColumns
      else
        let cols := knownColumns localCols entries
        if cols.isEmpty then .error .noKnownColumn
        else if cols.any (!isSafeIdentifier ·) then .error .unsafeColumn
        else .ok (entries, cols)

def isStale (remote localTs : Option String) : Bool :=
  match remote, localTs with
  | some r, some l => r ≤ replaceT l
  | _, _ => false

/-- The timestamp an iteration compares with: a failed SELECT reads nothing. -/
def readLocal (e : Engine) (f : Faults) (db : Database) (c : SyncChange) : Option String :=
  if f.select then none else localUpdatedAt e db c.tableName c.pk

def checkChange (e : Engine) (f : Faults) (db : Database) (c : SyncChange) : Except Rejection Pending :=
  match screenChange f db c with
  | .error why => .error why
  | .ok (entries, cols) =>
    if isStale (remoteUpdatedAt entries) (readLocal e f db c) then .error .stale
    else .ok ⟨c.tableName, cols, boundValues e entries cols, remoteUpdatedAt entries⟩

def execInsert (e : Engine) (f : Faults) (db : Database) (p : Pending) : Database × Outcome :=
  let inserted := (db.tables p.tableName).bind (·.insertOrReplace e f.defaults (p.columns.zip p.values))
  match if f.insert then none else inserted with
  | some t => (db.setTable p.tableName t, .stored p.updatedAt)
  | none => (db, .rejected .insertFailed)

def applyChange (e : Engine) (f : Faults) (db : Database) (c : SyncChange) : Database × Outcome :=
  match checkChange e f db c with
  | .error why => (db, .rejected why)
  | .ok p => execInsert e f db p

/-- `apply_changes_inner`; the faults are consumed one change at a time. -/
def applyChangesInner (e : Engine) : List Faults → Database → List SyncChange → ApplyReport →
    Database × ApplyReport
  | _, db, [], report => (db, report)
  | fs, db, c :: rest, report =>
    let next := applyChange e (fs.headD {}) db c
    applyChangesInner e fs.tail next.1 rest (report.record next.2)

theorem Faults.calm_none : Calm {} := ⟨rfl, rfl, rfl⟩

theorem Faults.calm_headD {fs : List Faults} (calm : ∀ f ∈ fs, f.Calm) : (fs.headD {}).Calm := by
  cases fs with
  | nil => exact calm_none
  | cons f rest => exact calm f List.mem_cons_self

theorem Faults.calm_tail {fs : List Faults} (calm : ∀ f ∈ fs, f.Calm) : ∀ f ∈ fs.tail, f.Calm :=
  fun f member => calm f (List.mem_of_mem_tail member)

structure ApplyFaults where
  pragmaOff : Bool := false
  pragmaOn : Bool := false
  changes : List Faults := []

structure ApplyFaults.Calm (f : ApplyFaults) : Prop where
  pragmaOff : f.pragmaOff = false
  pragmaOn : f.pragmaOn = false
  changes : ∀ i ∈ f.changes, i.Calm

theorem ApplyFaults.calm_none : Calm {} := ⟨rfl, rfl, fun _ listed => nomatch listed⟩

/-- `apply_changes_detailed`: the loop between two PRAGMAs, either of which may fail. -/
def applyChangesDetailed (e : Engine) (f : ApplyFaults) (db : Database) (changes : List SyncChange) :
    Database × Except SqlError ApplyReport :=
  if changes.isEmpty then (db, .ok {})
  else if f.pragmaOff then (db, .error .fault)
  else
    let done := applyChangesInner e f.changes db changes {}
    (done.1, if f.pragmaOn then .error .fault else .ok done.2)

def applyChanges (e : Engine) (f : ApplyFaults) (db : Database) (changes : List SyncChange) :
    Database × Except SqlError Nat :=
  let done := applyChangesDetailed e f db changes
  (done.1, done.2.map (·.applied))

/-! ### One iteration -/

def boundOf (e : Engine) (t : Table) (entries : List (String × Json)) : List (String × String) :=
  let cols := knownColumns t.schema.names entries
  cols.zip (boundValues e entries cols)

/-- The row a change describes in a table. -/
def incomingRow (e : Engine) (computed : Row) (t : Table) (entries : List (String × Json)) : Row :=
  t.incoming e computed (boundOf e t entries)

/-- What a change that passes the checks before the LWW comparison is. -/
structure Admitted (db : Database) (c : SyncChange) (t : Table) (entries : List (String × Json)) :
    Prop where
  synced : c.tableName ∈ syncTables
  data : c.data = .object entries
  table : db.tables c.tableName = some t
  known : knownColumns t.schema.names entries ≠ []
  safe : ∀ k ∈ knownColumns t.schema.names entries, isSafeIdentifier k = true

theorem asObject_some {v : Json} {entries : List (String × Json)} :
    v.asObject = some entries ↔ v = .object entries := by
  cases v <;> simp [Json.asObject]

theorem localTableColumns_ne_nil {fault : Bool} {db : Database} {table : String}
    (h : localTableColumns fault db table ≠ []) :
    fault = false ∧ ∃ t, db.tables table = some t ∧ localTableColumns fault db table = t.schema.names := by
  unfold localTableColumns at h ⊢
  cases fault with
  | true => exact absurd rfl h
  | false =>
    cases present : db.tables table with
    | none => simp [present] at h
    | some t => exact ⟨rfl, t, rfl, rfl⟩

theorem screenChange_ok {f : Faults} {db : Database} {c : SyncChange} {entries : List (String × Json)}
    {cols : List String} (h : screenChange f db c = .ok (entries, cols)) :
    f.tableInfo = false ∧ ∃ t, Admitted db c t entries ∧ cols = knownColumns t.schema.names entries := by
  unfold screenChange at h
  split at h
  · cases h
  rename_i synced
  split at h
  · cases h
  rename_i found data
  dsimp only at h
  split at h
  · cases h
  rename_i present
  split at h
  · cases h
  rename_i known
  split at h
  · cases h
  rename_i safe
  obtain ⟨rfl, rfl⟩ := Prod.mk.inj (Except.ok.inj h)
  obtain ⟨info, t, table, names⟩ := localTableColumns_ne_nil (by simpa using present)
  rw [names] at known safe ⊢
  exact ⟨info, t, ⟨by simpa using synced, asObject_some.mp data, table, by simpa using known,
    by simpa using safe⟩, rfl⟩

theorem screenChange_of_admitted {f : Faults} {db : Database} {c : SyncChange} {t : Table}
    {entries : List (String × Json)} (info : f.tableInfo = false) (h : Admitted db c t entries) :
    screenChange f db c = .ok (entries, knownColumns t.schema.names entries) := by
  have names : localTableColumns f.tableInfo db c.tableName = t.schema.names := by
    simp [localTableColumns, info, h.table]
  have some_column : t.schema.names ≠ [] := by
    intro empty
    exact h.known (by simp [knownColumns, empty])
  have safe : ((knownColumns t.schema.names entries).any (!isSafeIdentifier ·)) = false := by
    simpa using h.safe
  simp only [screenChange, h.synced, not_true, if_false, h.data, Json.asObject, names, List.isEmpty_iff,
    some_column, h.known, safe, Bool.false_eq_true]

def pendingOf (e : Engine) (c : SyncChange) (t : Table) (entries : List (String × Json)) : Pending :=
  let cols := knownColumns t.schema.names entries
  ⟨c.tableName, cols, boundValues e entries cols, remoteUpdatedAt entries⟩

theorem checkChange_ok {e : Engine} {f : Faults} {db : Database} {c : SyncChange} {p : Pending} :
    checkChange e f db c = .ok p ↔ f.tableInfo = false ∧ ∃ t entries, Admitted db c t entries ∧
      isStale (remoteUpdatedAt entries) (readLocal e f db c) = false ∧ p = pendingOf e c t entries := by
  constructor
  · intro h
    unfold checkChange at h
    split at h
    · cases h
    rename_i entries cols passed
    obtain ⟨info, t, admitted, rfl⟩ := screenChange_ok passed
    split at h
    · cases h
    rename_i fresh
    obtain rfl := Except.ok.inj h
    exact ⟨info, t, entries, admitted, by simpa using fresh, rfl⟩
  · rintro ⟨info, t, entries, admitted, fresh, rfl⟩
    simp only [checkChange, screenChange_of_admitted info admitted, fresh, Bool.false_eq_true, if_false]
    rfl

structure Stores (e : Engine) (f : Faults) (db : Database) (c : SyncChange) (t : Table)
    (entries : List (String × Json)) : Prop where
  admitted : Admitted db c t entries
  reads : f.tableInfo = false
  fresh : isStale (remoteUpdatedAt entries) (readLocal e f db c) = false
  writes : f.insert = false
  fits : t.schema.accepts (incomingRow e f.defaults t entries) = true

def Stores.result {e : Engine} {f : Faults} {db : Database} {c : SyncChange} {t : Table}
    {entries : List (String × Json)} (h : Stores e f db c t entries) : Table :=
  t.put (incomingRow e f.defaults t entries) (Table.names_build ..) h.fits

theorem execInsert_pendingOf {e : Engine} {f : Faults} {db : Database} {c : SyncChange} {t : Table}
    {entries : List (String × Json)} (h : Stores e f db c t entries) :
    execInsert e f db (pendingOf e c t entries) =
      (db.setTable c.tableName h.result, .stored (remoteUpdatedAt entries)) := by
  have inserted : t.insertOrReplace e f.defaults (boundOf e t entries) = some h.result := dif_pos h.fits
  unfold execInsert
  rw [show (pendingOf e c t entries).tableName = c.tableName from rfl, h.admitted.table, h.writes,
    Option.bind_some, show (pendingOf e c t entries).columns.zip (pendingOf e c t entries).values =
      boundOf e t entries from rfl, inserted]
  rfl

theorem execInsert_cases (e : Engine) (f : Faults) (db : Database) (p : Pending) :
    (∃ t u, f.insert = false ∧ db.tables p.tableName = some t ∧
        t.insertOrReplace e f.defaults (p.columns.zip p.values) = some u ∧
        execInsert e f db p = (db.setTable p.tableName u, .stored p.updatedAt)) ∨
      execInsert e f db p = (db, .rejected .insertFailed) := by
  unfold execInsert
  cases fault : f.insert with
  | true => exact .inr rfl
  | false =>
    cases present : db.tables p.tableName with
    | none => exact .inr rfl
    | some t =>
      cases inserted : t.insertOrReplace e f.defaults (p.columns.zip p.values) with
      | none => exact .inr (by simp [inserted])
      | some u => exact .inl ⟨t, u, rfl, rfl, inserted, by simp [inserted]⟩

theorem applyChange_stores {e : Engine} {f : Faults} {db : Database} {c : SyncChange} {t : Table}
    {entries : List (String × Json)} (h : Stores e f db c t entries) :
    applyChange e f db c = (db.setTable c.tableName h.result, .stored (remoteUpdatedAt entries)) := by
  have checked : checkChange e f db c = .ok (pendingOf e c t entries) :=
    checkChange_ok.mpr ⟨h.reads, t, entries, h.admitted, h.fresh, rfl⟩
  rw [applyChange, checked]
  exact execInsert_pendingOf h

/-- Everything an iteration can do: store the row its change describes, or nothing. -/
theorem applyChange_cases (e : Engine) (f : Faults) (db : Database) (c : SyncChange) :
    (∃ t entries, Stores e f db c t entries) ∨
      (¬∃ t entries, Stores e f db c t entries) ∧ ∃ why, applyChange e f db c = (db, .rejected why) := by
  by_cases stores : ∃ t entries, Stores e f db c t entries
  · exact .inl stores
  · refine .inr ⟨stores, ?_⟩
    unfold applyChange
    cases checked : checkChange e f db c with
    | error why => exact ⟨why, rfl⟩
    | ok p =>
      obtain ⟨reads, t, entries, admitted, fresh, rfl⟩ := checkChange_ok.mp checked
      rcases execInsert_cases e f db (pendingOf e c t entries) with ⟨s, u, writes, present, inserted, _⟩ | failed
      · have same : s = t := Option.some.inj (present.symm.trans admitted.table)
        subst s
        obtain ⟨fits, _⟩ := Table.insertOrReplace_some inserted
        exact absurd ⟨t, entries, admitted, reads, fresh, writes, fits⟩ stores
      · exact ⟨_, failed⟩

theorem applyChange_rejects {e : Engine} {f : Faults} {db : Database} {c : SyncChange}
    (h : ¬∃ t entries, Stores e f db c t entries) : (applyChange e f db c).1 = db := by
  rcases applyChange_cases e f db c with stores | ⟨_, why, done⟩
  · exact absurd stores h
  · rw [done]

theorem not_stores_of_stale {e : Engine} {f : Faults} {db : Database} {c : SyncChange}
    {entries : List (String × Json)} (data : c.data = .object entries)
    (stale : isStale (remoteUpdatedAt entries) (readLocal e f db c) = true) :
    ¬∃ t entries, Stores e f db c t entries := by
  rintro ⟨t, entries', stores⟩
  obtain rfl : entries = entries' := Json.object.inj (data.symm.trans stores.admitted.data)
  rw [stores.fresh] at stale
  cases stale

theorem outcome_isStored {e : Engine} {f : Faults} {db : Database} {c : SyncChange} :
    (applyChange e f db c).2.isStored = true ↔ ∃ t entries, Stores e f db c t entries := by
  rcases applyChange_cases e f db c with ⟨t, entries, stores⟩ | ⟨none, why, done⟩
  · rw [applyChange_stores stores]
    exact iff_of_true rfl ⟨t, entries, stores⟩
  · rw [done]
    exact iff_of_false Bool.false_ne_true none

theorem applyChange_tables_other (e : Engine) (f : Faults) (db : Database) {c : SyncChange} {name : String}
    (other : name ≠ c.tableName) : (applyChange e f db c).1.tables name = db.tables name := by
  rcases applyChange_cases e f db c with ⟨t, entries, stores⟩ | ⟨_, why, done⟩
  · rw [applyChange_stores stores, Database.setTable_tables_other _ _ other]
  · rw [done]

theorem Stores.mem_result {e : Engine} {f : Faults} {db : Database} {c : SyncChange} {t : Table}
    {entries : List (String × Json)} (h : Stores e f db c t entries) {s : Row} :
    s ∈ h.result.rows ↔
      (s ∈ t.rows ∧ t.schema.conflict (incomingRow e f.defaults t entries) s = false) ∨ s = incomingRow e f.defaults t entries :=
  Table.mem_put

/-! ### The iterations of a call -/

/-- One iteration of the loop: where it starts, the faults it meets, its change. -/
structure Iteration where
  db : Database
  faults : Faults
  change : SyncChange

def Iteration.outcome (e : Engine) (i : Iteration) : Outcome := (applyChange e i.faults i.db i.change).2

def iterations (e : Engine) : List Faults → Database → List SyncChange → List Iteration
  | _, _, [] => []
  | fs, db, c :: rest => ⟨db, fs.headD {}, c⟩ :: iterations e fs.tail (applyChange e (fs.headD {}) db c).1 rest

/-- The iterations a call gets to: none if the first PRAGMA fails. -/
def callIterations (e : Engine) (f : ApplyFaults) (db : Database) (changes : List SyncChange) : List Iteration :=
  if f.pragmaOff then [] else iterations e f.changes db changes

theorem change_mem_of_iteration {e : Engine} {fs : List Faults} {db : Database} {changes : List SyncChange}
    {i : Iteration} (member : i ∈ iterations e fs db changes) : i.change ∈ changes := by
  induction changes generalizing fs db with
  | nil => cases member
  | cons c rest ih =>
    rcases List.mem_cons.mp member with rfl | later
    · exact List.mem_cons_self
    · exact List.mem_cons_of_mem _ (ih later)

theorem applyChangesInner_report (e : Engine) (fs : List Faults) (db : Database) (changes : List SyncChange)
    (report : ApplyReport) :
    (applyChangesInner e fs db changes report).2 =
      ((iterations e fs db changes).map (·.outcome e)).foldl ApplyReport.record report := by
  induction changes generalizing fs db report with
  | nil => rfl
  | cons c rest ih => exact ih _ _ _

theorem applyChange_syncMeta (e : Engine) (f : Faults) (db : Database) (c : SyncChange) :
    (applyChange e f db c).1.syncMeta = db.syncMeta := by
  rcases applyChange_cases e f db c with ⟨t, entries, stores⟩ | ⟨_, why, done⟩
  · rw [applyChange_stores stores, Database.setTable_syncMeta]
  · rw [done]

theorem applyChangesInner_syncMeta (e : Engine) (fs : List Faults) (db : Database) (changes : List SyncChange)
    (report : ApplyReport) : (applyChangesInner e fs db changes report).1.syncMeta = db.syncMeta := by
  induction changes generalizing fs db report with
  | nil => rfl
  | cons c rest ih => exact (ih _ _ _).trans (applyChange_syncMeta e _ db c)

theorem applyChangesDetailed_syncMeta (e : Engine) (f : ApplyFaults) (db : Database) (changes : List SyncChange) :
    (applyChangesDetailed e f db changes).1.syncMeta = db.syncMeta := by
  unfold applyChangesDetailed
  split
  · rfl
  split
  · rfl
  · exact applyChangesInner_syncMeta ..

theorem applyChangesDetailed_inner {e : Engine} {f : ApplyFaults} {db : Database} {changes : List SyncChange}
    {report : ApplyReport} (h : (applyChangesDetailed e f db changes).2 = .ok report) :
    applyChangesInner e f.changes db changes {} = ((applyChangesDetailed e f db changes).1, report) := by
  unfold applyChangesDetailed at h ⊢
  split at h
  · rename_i empty
    obtain rfl := List.isEmpty_iff.mp empty
    obtain rfl := Except.ok.inj h
    rfl
  rename_i some_change
  split at h
  · cases h
  rename_i ran
  dsimp only at h
  split at h
  · cases h
  obtain rfl := Except.ok.inj h
  rw [if_neg some_change, if_neg ran]

theorem applyChangesDetailed_ok {e : Engine} {f : ApplyFaults} {db : Database} {changes : List SyncChange}
    {report : ApplyReport} (h : (applyChangesDetailed e f db changes).2 = .ok report) :
    report = ((callIterations e f db changes).map (·.outcome e)).foldl ApplyReport.record {} := by
  unfold applyChangesDetailed at h
  split at h
  · rename_i empty
    obtain rfl := List.isEmpty_iff.mp empty
    obtain rfl := Except.ok.inj h
    unfold callIterations
    split <;> rfl
  split at h
  · cases h
  rename_i ran
  dsimp only at h
  split at h
  · cases h
  obtain rfl := Except.ok.inj h
  rw [callIterations, if_neg ran, applyChangesInner_report]

end ConvergioMesh
