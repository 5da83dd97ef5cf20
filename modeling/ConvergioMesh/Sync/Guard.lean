import ConvergioMesh.Sync.Loop
import ConvergioMesh.Sync.Plans

/-!
# The schema guard of the loop

No visit makes the schema check. With a peer of another schema it exchanges no row exactly if there
is none that it could exchange.
-/

namespace ConvergioMesh

variable {e : Engine} {f : ApplyFaults} {db db' : Database} {io : RoundIo} {addr table : String}

/-! ### What a call exchanges -/

namespace TableCall

variable (e) (c : TableCall)

/-- The changes that the call passes to `send_changes_to_peer`. -/
def sent : List SyncChange := (c.exported e).toOption.getD []

/-- The changes that the call gets from the peer. -/
def fetched : List SyncChange :=
  match c.exported e with
  | .error _ => []
  | .ok localChanges =>
    match if localChanges.isEmpty then .ok () else c.io.send localChanges with
    | .error _ => []
    | .ok () => (c.io.fetch c.since).toOption.getD []

def iterations : List Iteration := callIterations e c.io.applyFaults c.before (c.fetched e)

/-- The changes of the peer that the call stores. -/
def applied : List SyncChange := ((c.iterations e).filter fun i => (i.outcome e).isStored).map (·.change)

def run : Database × Nat × Nat × Nat := syncTableWithPeer e c.io c.before c.addr c.table

theorem run_cases :
    c.fetched e = [] ∧ c.run e = (c.before, 0, 0, 0) ∨
      ∃ localChanges, c.exported e = .ok localChanges ∧ c.io.fetch c.since = .ok (c.fetched e) ∧
        ((∃ error, (applyChangesDetailed e c.io.applyFaults c.before (c.fetched e)).2 = .error error ∧
          c.run e = ((applyChangesDetailed e c.io.applyFaults c.before (c.fetched e)).1, 0, 0, 0)) ∨
        ∃ report cursor, (applyChangesDetailed e c.io.applyFaults c.before (c.fetched e)).2 = .ok report ∧
          c.run e = (upsertSyncMeta c.io.upsertFault
            (applyChangesDetailed e c.io.applyFaults c.before (c.fetched e)).1 c.addr c.table cursor,
            localChanges.length, (c.fetched e).length, report.applied)) := by
  have since : getSyncMeta c.io.metaFault c.before c.addr c.table = c.since := rfl
  have exported : (if c.io.exportFault then .error .fault else exportChangesSince e c.before c.table c.since) =
      c.exported e := rfl
  unfold run syncTableWithPeer fetched
  dsimp only
  rw [since, exported]
  cases c.exported e with
  | error => exact .inl ⟨rfl, rfl⟩
  | ok localChanges =>
    dsimp only
    cases if localChanges.isEmpty then .ok () else c.io.send localChanges with
    | error => exact .inl ⟨rfl, rfl⟩
    | ok =>
      dsimp only
      cases answer : c.io.fetch c.since with
      | error => exact .inl ⟨rfl, rfl⟩
      | ok remoteChanges =>
        refine .inr ⟨localChanges, rfl, rfl, ?_⟩
        simp only [Except.toOption, Option.getD_some]
        cases (applyChangesDetailed e c.io.applyFaults c.before remoteChanges).2 with
        | error error => exact .inl ⟨error, rfl, rfl⟩
        | ok report => exact .inr ⟨report, _, rfl, rfl⟩

theorem length_applied {report : ApplyReport}
    (done : (applyChangesDetailed e c.io.applyFaults c.before (c.fetched e)).2 = .ok report) :
    (c.applied e).length = report.applied := by
  rw [applyChangesDetailed_ok done, foldl_record_applied, List.countP_map, List.countP_eq_length_filter,
    applied, List.length_map]
  exact (Nat.zero_add _).symm

/-- The numbers a call returns count the changes it sends, gets and stores, or are zero. -/
theorem run_counts : (c.run e).2 = (0, 0, 0) ∨
    (c.run e).2 = ((c.sent e).length, (c.fetched e).length, (c.applied e).length) := by
  rcases run_cases e c with ⟨_, done⟩ | ⟨l, exported, _, ⟨_, _, done⟩ | ⟨report, cursor, applied, done⟩⟩
  · exact .inl (by rw [done])
  · exact .inl (by rw [done])
  · refine .inr ?_
    rw [done, sent, exported, length_applied e c applied]
    rfl

/-- The tables after a call are those before it with the fetched changes applied. -/
theorem run_tables :
    (c.run e).1.tables = (applyChangesDetailed e c.io.applyFaults c.before (c.fetched e)).1.tables := by
  rcases run_cases e c with ⟨nothing, done⟩ | ⟨_, _, _, ⟨_, _, done⟩ | ⟨report, cursor, _, done⟩⟩
  · rw [done, nothing]
    rfl
  · rw [done]
  · rw [done, upsertSyncMeta_tables]

end TableCall

/-! ### What a call could exchange -/

/-- Each change is refused on the database as it stands. -/
def NothingToStore (e : Engine) (f : ApplyFaults) (db : Database) (changes : List SyncChange) : Prop :=
  f.pragmaOff = false → ∀ (k : Nat) (c : SyncChange), changes[k]? = some c →
    ¬∃ t entries, Stores e (f.changes[k]?.getD {}) db c t entries

/-- No row of the table is above the cursor. -/
def NothingToSend (e : Engine) (db : Database) (table : String) (since : Option String) : Prop :=
  ∀ t, db.tables table = some t → ∀ r ∈ t.rows, selects e t since r = false

/-- The table has no `id`, or no timestamp column to compare a cursor with. -/
def Unexportable (t : Table) (since : Option String) : Prop :=
  "id" ∉ t.schema.names ∨ since.isSome ∧ detectTimestampColumn t = none

def ExportFails (io : RoundIo) (db : Database) (table : String) (since : Option String) : Prop :=
  io.exportFault = true ∨ ∃ t, db.tables table = some t ∧ Unexportable t since

/-- The export fails, or there is no row to send and none of the peer's that could be stored. -/
def NothingToExchange (e : Engine) (io : RoundIo) (addr : String) (db : Database) (table : String) : Prop :=
  let since := getSyncMeta io.metaFault db addr table
  ExportFails io db table since ∨ NothingToSend e db table since ∧
    ∀ changes, io.fetch since = .ok changes → NothingToStore e io.applyFaults db changes

theorem Iteration.isStored_false {i : Iteration} :
    (i.outcome e).isStored = false ↔ ¬∃ t entries, Stores e i.faults i.db i.change t entries := by
  rw [← outcome_isStored, Bool.not_eq_true]
  rfl

theorem no_iteration_stores_iff {fs : List Faults} {changes : List SyncChange} :
    (∀ i ∈ iterations e fs db changes, (i.outcome e).isStored = false) ↔
      ∀ (k : Nat) (c : SyncChange), changes[k]? = some c → ¬∃ t entries, Stores e (fs[k]?.getD {}) db c t entries := by
  induction changes generalizing fs with
  | nil => simp [iterations]
  | cons c rest ih =>
    have head : fs.headD {} = fs[0]?.getD {} := by cases fs <;> rfl
    have tail : ∀ k, fs.tail[k]? = fs[k + 1]? := by cases fs <;> simp
    rw [iterations, List.forall_mem_cons, Iteration.isStored_false]
    by_cases stores : ∃ t entries, Stores e (fs.headD {}) db c t entries
    · exact iff_of_false (fun none => none.1 stores) fun none => none 0 c rfl (head ▸ stores)
    · rw [applyChange_rejects stores, ih]
      constructor
      · rintro ⟨_, later⟩ (_ | k) c' at_k
        · obtain rfl := Option.some.inj at_k
          exact head ▸ stores
        · exact tail k ▸ later k c' at_k
      · exact fun none => ⟨stores, fun k c' at_k => (tail k).symm ▸ none (k + 1) c' at_k⟩

theorem callIterations_none_iff {changes : List SyncChange} :
    (∀ i ∈ callIterations e f db changes, (i.outcome e).isStored = false) ↔ NothingToStore e f db changes := by
  unfold callIterations NothingToStore
  cases f.pragmaOff with
  | true => simp
  | false =>
    rw [if_neg Bool.false_ne_true, no_iteration_stores_iff]
    exact ⟨fun none _ => none, fun none => none rfl⟩

theorem applyChangesInner_of_refused {fs : List Faults} {changes : List SyncChange} {report : ApplyReport}
    (none : ∀ i ∈ iterations e fs db changes, (i.outcome e).isStored = false) :
    (applyChangesInner e fs db changes report).1 = db := by
  induction changes generalizing fs report with
  | nil => rfl
  | cons c rest ih =>
    rw [iterations, List.forall_mem_cons, Iteration.isStored_false] at none
    have refused := applyChange_rejects none.1
    rw [refused] at none
    rw [applyChangesInner, refused]
    exact ih none.2

theorem applyChangesDetailed_of_refused {changes : List SyncChange}
    (none : ∀ i ∈ callIterations e f db changes, (i.outcome e).isStored = false) :
    (applyChangesDetailed e f db changes).1 = db := by
  unfold applyChangesDetailed
  split
  · rfl
  split
  · rfl
  · rename_i ran
    rw [callIterations, if_neg ran] at none
    exact applyChangesInner_of_refused none

/-! ### A call, a visit, a run -/

theorem TableCall.applied_eq_nil {c : TableCall} :
    c.applied e = [] ↔ NothingToStore e c.io.applyFaults c.before (c.fetched e) := by
  rw [← callIterations_none_iff, applied, List.map_eq_nil_iff, List.filter_eq_nil_iff]
  exact forall₂_congr fun i _ => Bool.not_eq_true _ ▸ Iff.rfl

theorem nothingToStore_nil : NothingToStore e f db [] := fun _ k c at_k => by simp at at_k

theorem isNameChar_of_listed (listed : table ∈ syncTables) : table.toList.all isNameChar = true := by
  have all : ∀ name ∈ syncTables, name.toList.all isNameChar = true := by decide
  exact all table listed

theorem exportChangesSince_unexportable {t : Table} {since : Option String} (name : table.toList.all isNameChar = true)
    (present : db.tables table = some t) (unexportable : Unexportable t since) :
    ∃ error, exportChangesSince e db table since = .error error := by
  by_cases id : "id" ∈ t.schema.names
  · have unbound := unexportable.resolve_left (not_not.mpr id)
    exact ⟨.invalidParameterCount, by simp [exportChangesSince, name, present, id, unbound]⟩
  · exact ⟨.noSuchColumn, by simp [exportChangesSince, name, present, id]⟩

theorem exportChangesSince_listed (e : Engine) (db : Database) (listed : table ∈ syncTables) (since : Option String) :
    ((∃ error, exportChangesSince e db table since = .error error) ∧
        ∃ t, db.tables table = some t ∧ Unexportable t since) ∨
      (¬∃ t, db.tables table = some t ∧ Unexportable t since) ∧
        ∃ changes, exportChangesSince e db table since = .ok changes ∧ (changes = [] ↔ NothingToSend e db table since) := by
  have name := isNameChar_of_listed listed
  unfold NothingToSend
  cases present : db.tables table with
  | none => exact .inr ⟨by simp, [], by simp [exportChangesSince, name, present], by simp⟩
  | some t =>
    by_cases unexportable : Unexportable t since
    · exact .inl ⟨exportChangesSince_unexportable name present unexportable, t, rfl, unexportable⟩
    · obtain ⟨id, dated⟩ := not_or.mp unexportable
      refine .inr ⟨by simpa using unexportable, _,
        export_ok present name (not_not.mp id) fun cursor none => dated ⟨cursor, none⟩, ?_⟩
      rw [List.map_eq_nil_iff, ← List.length_eq_zero_iff, List.length_insertionSort, List.length_eq_zero_iff,
        List.filter_eq_nil_iff]
      simp

theorem TableCall.exchanges_nothing_iff {c : TableCall} (listed : c.table ∈ syncTables) :
    c.sent e = [] ∧ c.applied e = [] ↔ NothingToExchange e c.io c.addr c.before c.table := by
  rw [applied_eq_nil]
  change _ ↔ ExportFails c.io c.before c.table c.since ∨ NothingToSend e c.before c.table c.since ∧
    ∀ changes, c.io.fetch c.since = .ok changes → NothingToStore e c.io.applyFaults c.before changes
  by_cases fault : c.io.exportFault = true
  · have failed : c.exported e = .error .fault := if_pos fault
    refine iff_of_true ⟨by simp [sent, failed, Except.toOption], ?_⟩ (.inl (.inl fault))
    rw [fetched, failed]
    exact nothingToStore_nil
  have readable : c.exported e = exportChangesSince e c.before c.table c.since := if_neg fault
  rcases exportChangesSince_listed e c.before listed c.since with
    ⟨⟨error, failed⟩, unexportable⟩ | ⟨exportable, changes, exported, empty⟩
  · refine iff_of_true ⟨by simp [sent, readable, failed, Except.toOption], ?_⟩ (.inl (.inr unexportable))
    rw [fetched, readable, failed]
    exact nothingToStore_nil
  · have works : ¬ExportFails c.io c.before c.table c.since := not_or.mpr ⟨fault, exportable⟩
    have passed : c.sent e = changes := by rw [sent, readable, exported]; rfl
    rw [or_iff_right works, passed, empty]
    refine and_congr_right fun nothing => ?_
    obtain rfl := empty.mpr nothing
    have answered : c.fetched e = (c.io.fetch c.since).toOption.getD [] := by
      rw [fetched, readable, exported]
      rfl
    rw [answered]
    cases c.io.fetch c.since with
    | error => simp [Except.toOption, nothingToStore_nil]
    | ok remote => simp [Except.toOption]

theorem Stores.of_tables {f : Faults} {c : SyncChange} {t : Table} {entries : List (String × Json)}
    (same : db'.tables = db.tables) (h : Stores e f db c t entries) : Stores e f db' c t entries := by
  cases db
  cases db'
  obtain rfl := same
  exact ⟨⟨h.admitted.synced, h.admitted.data, h.admitted.table, h.admitted.known, h.admitted.safe⟩,
    h.reads, h.fresh, h.writes, h.fits⟩

theorem NothingToExchange.congr (tables : db'.tables = db.tables)
    (cursor : db'.syncMeta addr table = db.syncMeta addr table) :
    NothingToExchange e io addr db' table ↔ NothingToExchange e io addr db table := by
  have since : getSyncMeta io.metaFault db' addr table = getSyncMeta io.metaFault db addr table := by
    unfold getSyncMeta
    rw [cursor]
  have store : ∀ changes, NothingToStore e io.applyFaults db' changes ↔ NothingToStore e io.applyFaults db changes := by
    intro changes
    refine forall_congr' fun _ => forall₂_congr fun k c => imp_congr_right fun _ => not_congr ?_
    exact ⟨fun ⟨t, entries, h⟩ => ⟨t, entries, h.of_tables tables.symm⟩,
      fun ⟨t, entries, h⟩ => ⟨t, entries, h.of_tables tables⟩⟩
  simp only [NothingToExchange, ExportFails, NothingToSend, since, tables, store]

/-- The calls of a visit exchange no row exactly if no listed table has one to exchange before it. -/
theorem calls_exchange_nothing_iff {io : PeerIo} {tables : List String} (listed : ∀ table ∈ tables, table ∈ syncTables)
    (distinct : tables.Nodup) :
    (∀ c ∈ tableCalls e io addr tables db, c.sent e = [] ∧ c.applied e = []) ↔
      ∀ table ∈ tables, NothingToExchange e (io.tables table) addr db table := by
  induction tables generalizing db with
  | nil => simp [tableCalls]
  | cons table rest ih =>
    obtain ⟨first, listed⟩ := List.forall_mem_cons.mp listed
    obtain ⟨fresh, distinct⟩ := List.nodup_cons.mp distinct
    let call : TableCall := ⟨addr, table, io.tables table, db⟩
    have head : call.sent e = [] ∧ call.applied e = [] ↔ NothingToExchange e (io.tables table) addr db table :=
      TableCall.exchanges_nothing_iff first
    rw [tableCalls, List.forall_mem_cons, List.forall_mem_cons, head, ih listed distinct]
    refine and_congr_right fun nothing => forall₂_congr fun other member => ?_
    have kept : (applyChangesDetailed e call.io.applyFaults db (call.fetched e)).1 = db :=
      applyChangesDetailed_of_refused (callIterations_none_iff.mpr (TableCall.applied_eq_nil.mp (head.mpr nothing).2))
    refine NothingToExchange.congr ((TableCall.run_tables e call).trans (by rw [kept])) ?_
    refine syncTableWithPeer_elsewhere fun same => ?_
    rw [same.2] at member
    exact fresh member

/-- No row is sent to the peer or stored from it. -/
def Visit.ExchangesNothing (e : Engine) (v : Visit) : Prop := ∀ c ∈ v.calls e, c.sent e = [] ∧ c.applied e = []

/-- Before the visit there is no row to send to the peer and none of its rows that could be stored. -/
def Visit.NothingToExchange (e : Engine) (v : Visit) : Prop :=
  ∀ table ∈ syncTables, ConvergioMesh.NothingToExchange e (v.io.tables table) v.addr v.before table

theorem Visit.exchangesNothing_iff {v : Visit} : v.ExchangesNothing e ↔ v.NothingToExchange e :=
  calls_exchange_nothing_iff (fun _ listed => listed) (by decide)

/-- The rounds exchange no row with any peer of another schema exactly if, before each visit of such a
peer, there is no row to exchange. -/
theorem schemaGuard_iff (e : Engine) (envs : List RoundEnv) (s : LoopState) :
    (∀ v ∈ runVisits e envs s, ReportsOther v.before v.io.health → v.ExchangesNothing e) ↔
      ∀ v ∈ runVisits e envs s, ReportsOther v.before v.io.health → v.NothingToExchange e :=
  forall₂_congr fun _ _ => imp_congr_right fun _ => Visit.exchangesNothing_iff

def registrySchema : Schema where
  columns := [{ name := "module", affinity := .text, notNull := true },
    { name := "version", affinity := .integer, notNull := true }]
  rowid := false
  uniques := [["module"]]
  distinct := by decide
  id_spelled := by decide
  rowid_integer := by decide

def firstVersion : Table where
  schema := registrySchema
  rows := [[("module", .text "kernel"), ("version", .integer 1)]]
  shaped := by decide
  accepted := by decide
  distinct := by decide

/-- A peer that reports version 2 of the module `kernel` and takes what it is sent. -/
def upgradedPeer : PeerIo where
  connects _ := true
  tables _ := { roundStartAt := "2026-04-21 10:00:00", send := fun _ => .ok (), fetch := fun _ => .ok [] }
  health := ⟨false, .ok (), .ok ⟨true, "200 OK", .ok (.object
    [("schema_versions", .object [("kernel", .number (.posInt 2))])])⟩⟩

def upgradedRound : RoundEnv where
  conf := some (peerText "m5")
  peers _ := upgradedPeer

def kernelOne : LoopState where
  db := (plansDb (plansTable [(1, "a", "2026-04-21 09:00:00")] (by decide))).setTable "_schema_registry" firstVersion
  stats := .empty

set_option maxRecDepth 4000 in
/-- A plan is sent to a peer that reports another version of a module. -/
theorem plan_sent_to_other_schema :
    ∃ v ∈ runVisits sampleEngine [upgradedRound] kernelOne, ReportsOther v.before v.io.health ∧
      ∃ c ∈ v.calls sampleEngine, (c.sent sampleEngine).length = 1 := by
  decide

end ConvergioMesh
