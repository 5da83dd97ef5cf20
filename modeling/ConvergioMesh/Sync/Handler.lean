import ConvergioMesh.Sync.Concurrent

/-!
# A batch at the peer

What becomes of exported rows while the handler of the peer works through them: each is still to be
looked at, waits for its INSERT, or is held by the peer in a version that is no older.
-/

namespace ConvergioMesh

structure SyncedSchema (name : String) (sch : Schema) : Prop extends StampedSchema sch where
  synced : name ∈ syncTables
  safe : ∀ k ∈ sch.names, isSafeIdentifier k = true

theorem StampedSchema.column {sch : Schema} (h : StampedSchema sch) : "updated_at" ∈ sch.names := by
  obtain ⟨c, column, name, _⟩ := h.dated
  exact List.mem_map.mpr ⟨c, column, name⟩

/-- A row with an integer or text id that its column leaves as it is, and a text `updated_at`. -/
structure Relayable (e : Engine) (sch : Schema) (r : Row) : Prop where
  shape : r.names = sch.names
  id : IsId (r.cell "id")
  operand : sch.idOperand e (r.cell "id") = r.cell "id"
  dated : ∃ s, r.cell "updated_at" = .text s

theorem plansSchema_synced : SyncedSchema "plans" plansSchema where
  toStampedSchema := plansSchema_stamped
  synced := by decide
  safe := by decide

theorem plan_relayable (id : Int64) (name updatedAt : String) :
    Relayable sampleEngine plansSchema (plan id name updatedAt) where
  shape := rfl
  id := .inl ⟨id, rfl⟩
  operand := rfl
  dated := ⟨updatedAt, rfl⟩

def Database.HasTable (db : Database) (name : String) (sch : Schema) : Prop :=
  ∃ t, db.tables name = some t ∧ t.schema = sch

/-- The database holds a row of the same id whose date is no earlier. -/
def HeldAt (db : Database) (name : String) (r : Row) : Prop :=
  ∃ t, db.tables name = some t ∧ ∃ s ∈ t.rows, s.key = r.key ∧ ∃ l, s.stamp = some l ∧ r.date ≤ l

theorem Keeps.held {db db' : Database} {name : String} {r : Row} (keeps : Keeps name db db') (held : HeldAt db name r) :
    HeldAt db' name r := by
  obtain ⟨t, present, s, member, same, l, dated, newer⟩ := held
  obtain ⟨t', present', kept⟩ := keeps t present
  obtain ⟨s', member', same', l', dated', grows⟩ := kept s member l dated
  exact ⟨t', present', s', member', same'.trans same, l', dated', newer.trans grows⟩

namespace Relayable

variable {e : Engine} {sch : Schema} {name : String} {t : Table} {r : Row}

theorem stamp (h : Relayable e sch r) : r.stamp = some r.date := by
  obtain ⟨s, cell⟩ := h.dated
  rw [Row.date, Row.stamp_of_cell cell]
  rfl

theorem remote (h : Relayable e sch r) : remoteUpdatedAt (wiredEntriesOf e r) = some r.date := by
  obtain ⟨s, cell⟩ := h.dated
  rw [remoteUpdatedAt_wiredEntriesOf, remoteUpdatedAt_entriesOf (by simp [cell]), h.stamp]

theorem regular (h : Relayable e sch r) : (wiredChange e name r).Regular := by
  obtain ⟨s, cell⟩ := h.dated
  refine ⟨wiredEntriesOf e r, s, rfl, ?_, ?_⟩
  · rw [lookup_wiredEntriesOf, lookup_entriesOf_mem (Row.mem_names_of_cell h.id.ne_null), wiredChange, SyncChange.wired,
      toChange]
    rcases h.id with ⟨i, id⟩ | ⟨u, id⟩ <;> rw [id] <;> rfl
  · rw [lookup_wiredEntriesOf, lookup_entriesOf_mem (Row.mem_names_of_cell (by rw [cell]; simp)), cell]
    rfl

theorem param (h : Relayable e sch r) : pkParam (wiredChange e name r).pk = some (r.cell "id") := by
  rw [wiredChange_pk]
  exact pkParam_pkOf h.id

theorem admitted (h : Relayable e t.schema r) (schema : SyncedSchema name t.schema) {db : Database}
    (present : db.tables name = some t) : Admitted db (wiredChange e name r) t (wiredEntriesOf e r) :=
  (admitted_entriesOf h.shape h.id schema.safe schema.synced present).wired

/-- The row that the change describes may differ from `r` in REAL cells, but not in its id and date. -/
theorem incoming (h : Relayable e t.schema r) (schema : StampedSchema t.schema) (computed : Row) :
    Relayable e t.schema (incomingRow e computed t (wiredEntriesOf e r)) ∧
      (incomingRow e computed t (wiredEntriesOf e r)).key = r.key ∧
        (incomingRow e computed t (wiredEntriesOf e r)).stamp = some r.date := by
  have regular : (wiredChange e "" r).Regular := h.regular
  have cell : (incomingRow e computed t (wiredEntriesOf e r)).cell "id" = t.schema.idOperand e (r.cell "id") :=
    regular.cell_id schema.keyed (wiredChange_data ..) h.param
  rw [h.operand] at cell
  obtain ⟨u, remote, stamp⟩ : ∃ u, remoteUpdatedAt (wiredEntriesOf e r) = some u ∧
      (incomingRow e computed t (wiredEntriesOf e r)).stamp = some u := regular.stamp schema.keyed (wiredChange_data ..)
  obtain rfl : r.date = u := Option.some.inj (h.remote.symm.trans remote)
  obtain ⟨raw, dated, _⟩ := Row.stamp_some stamp
  refine ⟨⟨incomingRow_names .., ?_, ?_, raw, dated⟩, ?_, stamp⟩
  · rw [cell]
    exact h.id
  · rw [cell, h.operand]
  · rw [Row.key, cell, Row.key]

theorem check (h : Relayable e t.schema r) (schema : SyncedSchema name t.schema) {db : Database}
    (present : db.tables name = some t) {f : Faults} (calm : f.Calm) :
    HeldAt db name r ∨
      checkChange e f db (wiredChange e name r) = .ok (pendingOf e (wiredChange e name r) t (wiredEntriesOf e r)) := by
  have admitted : Admitted db (wiredChange e name r) t (wiredEntriesOf e r) := h.admitted schema present
  have reads : readLocal e f db (wiredChange e name r) = localUpdatedAt e db name (wiredChange e name r).pk := by
    rw [readLocal, calm.select, if_neg Bool.false_ne_true]
    rfl
  cases fresh : isStale (remoteUpdatedAt (wiredEntriesOf e r)) (readLocal e f db (wiredChange e name r)) with
  | false => exact .inr (checkChange_ok.mpr ⟨calm.tableInfo, t, _, admitted, fresh, rfl⟩)
  | true =>
    left
    rw [h.remote, reads] at fresh
    cases read : localUpdatedAt e db name (wiredChange e name r).pk with
    | none =>
      rw [read] at fresh
      cases fresh
    | some l =>
      rw [read] at fresh
      obtain ⟨s, member, names, stamp⟩ := localUpdatedAt_some present schema.column read
      refine ⟨t, present, s, member, ?_, _, stamp, of_decide_eq_true fresh⟩
      rw [named, h.param, Option.any_some, h.operand, Schema.same_of_binary schema.binary] at names
      exact (SqlValue.same_iff.mp names).2

end Relayable

/-- Whatever the table holds by then, the INSERT forms the row that the change of `r` describes. -/
def Describes (e : Engine) (sch : Schema) (p : Pending) (r : Row) : Prop :=
  ∀ (computed : Row) (t : Table), t.schema = sch → p.row e computed t = incomingRow e computed t (wiredEntriesOf e r)

/-- The peer's handler has lost sight of no row of the batch. -/
structure Accounted (e : Engine) (sch : Schema) (name : String) (batch : List SyncChange) (db : Database)
    (c : ApplyCall) : Prop where
  table : db.HasTable name sch
  own : ∀ change ∈ c.rest, change.tableName = name
  aims : ∀ p, c.pending = some p → p.tableName = name
  settled : ∀ r, Relayable e sch r → wiredChange e name r ∈ batch →
    HeldAt db name r ∨ wiredChange e name r ∈ c.rest ∨ ∃ p, c.pending = some p ∧ Describes e sch p r

def Accepted (e : Engine) (f : Faults) (name : String) (db : Database) (c : ApplyCall) : Prop :=
  ∀ p t, c.pending = some p → db.tables name = some t → t.schema.accepts (p.row e f.defaults t) = true

/-- The pending INSERT of a call displaces only older versions of its id. -/
def Displaces (e : Engine) (f : Faults) (name : String) (db : Database) (c : ApplyCall) : Prop :=
  ∀ p t, c.pending = some p → db.tables name = some t → DisplacesOlder t (p.row e f.defaults t)

variable {e : Engine} {sch : Schema} {name : String} {batch : List SyncChange} {db : Database} {c : ApplyCall}

theorem Accounted.next (schema : SyncedSchema name sch) (h : Accounted e sch name batch db c)
    {f : Faults} (calm : f.Calm) (accepted : Accepted e f name db c) (displaces : Displaces e f name db c)
    {n : Database × ApplyCall} (next : ApplyCall.Next e f db c n) :
    Accounted e sch name batch n.1 n.2 ∧ Keeps name db n.1 := by
  obtain ⟨t, present, rfl⟩ := h.table
  cases next with
  | rejected change rest why idle first checked =>
    refine ⟨⟨h.table, fun d listed => h.own d (first ▸ List.mem_cons_of_mem _ listed), (fun p waiting => nomatch waiting),
      fun r row inside => ?_⟩, .refl _ _⟩
    rcases h.settled r row inside with held | listed | ⟨p, waiting, _⟩
    · exact .inl held
    · rw [first] at listed
      rcases List.mem_cons.mp listed with rfl | later
      · refine (row.check schema present calm).imp_right fun passes => ?_
        rw [checked] at passes
        cases passes
      · exact .inr (.inl later)
    · rw [idle] at waiting
      cases waiting
  | checked change rest p idle first checked =>
    have own : change.tableName = name := h.own change (first ▸ List.mem_cons_self)
    have aims : p.tableName = name := by
      obtain ⟨_, _, _, _, _, rfl⟩ := checkChange_ok.mp checked
      exact own
    refine ⟨⟨h.table, fun d listed => h.own d (first ▸ List.mem_cons_of_mem _ listed), ?_, fun r row inside => ?_⟩,
      .refl _ _⟩
    · rintro q waiting
      obtain rfl := Option.some.inj waiting
      exact aims
    · rcases h.settled r row inside with held | listed | ⟨q, waiting, _⟩
      · exact .inl held
      · rw [first] at listed
        rcases List.mem_cons.mp listed with rfl | later
        · refine (row.check schema present calm).imp_right fun passes => .inr ⟨p, rfl, fun computed t' same => ?_⟩
          obtain rfl := Except.ok.inj (checked.symm.trans passes)
          exact pendingOf_row e computed _ _ same
        · exact .inr (.inl later)
      · rw [idle] at waiting
        cases waiting
  | stored p u waiting there writes fits =>
    obtain rfl := h.aims p waiting
    obtain rfl : t = u := Option.some.inj (present.symm.trans there)
    have keeps :
        Keeps p.tableName db (db.setTable p.tableName (t.put (p.row e f.defaults t) (Table.names_build ..) fits)) :=
      (displaces p t waiting present).keeps present
    refine ⟨⟨⟨_, Database.setTable_tables_same .., rfl⟩, h.own, (fun q none_left => nomatch none_left),
      fun r row inside => ?_⟩, keeps⟩
    rcases h.settled r row inside with held | listed | ⟨q, waiting', describes⟩
    · exact .inl (keeps.held held)
    · exact .inr (.inl listed)
    · obtain rfl := Option.some.inj (waiting.symm.trans waiting')
      obtain ⟨_, key, stamp⟩ := row.incoming schema.toStampedSchema f.defaults
      rw [← describes f.defaults t rfl] at key stamp
      exact .inl ⟨_, Database.setTable_tables_same .., _, Table.mem_put.mpr (.inr rfl), key, _, stamp, le_rfl⟩
  | failed p waiting refused =>
    obtain rfl := h.aims p waiting
    rw [execInsert_fits calm.insert present (accepted p t waiting present)] at refused
    cases (Prod.mk.inj refused).2

theorem Accounted.mono (h : Accounted e sch name batch db c) {db' : Database} (keeps : Keeps name db db')
    (table : db'.HasTable name sch) : Accounted e sch name batch db' c :=
  ⟨table, h.own, h.aims, fun r row inside => (h.settled r row inside).imp_left keeps.held⟩

theorem Accounted.held (h : Accounted e sch name batch db c) (finished : c.finished = true) {r : Row}
    (row : Relayable e sch r) (inside : wiredChange e name r ∈ batch) : HeldAt db name r := by
  obtain ⟨none_left, none_pending⟩ := ApplyCall.finished_iff.mp finished
  rcases h.settled r row inside with held | listed | ⟨p, waiting, _⟩
  · exact held
  · rw [none_left] at listed
    cases listed
  · rw [none_pending] at waiting
    cases waiting

/-- A call whose changes for the table are exported rows of its schema, as the wire carries them. -/
structure Exported (e : Engine) (sch : Schema) (name : String) (c : ApplyCall) : Prop where
  rest : ∀ change ∈ c.rest, change.tableName = name → ∃ r, Relayable e sch r ∧ change = wiredChange e name r
  pending : ∀ p, c.pending = some p → p.tableName = name → ∃ r, Relayable e sch r ∧ Describes e sch p r

theorem Exported.next (h : Exported e sch name c) (table : db.HasTable name sch) {f : Faults}
    {n : Database × ApplyCall} (next : ApplyCall.Next e f db c n) : Exported e sch name n.2 := by
  cases next with
  | rejected change rest why idle first checked =>
    exact ⟨fun d listed => h.rest d (first ▸ List.mem_cons_of_mem _ listed), fun p waiting => nomatch waiting⟩
  | checked change rest p idle first checked =>
    refine ⟨fun d listed => h.rest d (first ▸ List.mem_cons_of_mem _ listed), fun q waiting here => ?_⟩
    obtain rfl := Option.some.inj waiting
    obtain ⟨_, t, entries, admitted, _, rfl⟩ := checkChange_ok.mp checked
    obtain ⟨r, row, rfl⟩ := h.rest change (first ▸ List.mem_cons_self) here
    obtain ⟨u, present, rfl⟩ := table
    obtain rfl : u = t := Option.some.inj (present.symm.trans admitted.table)
    obtain rfl : wiredEntriesOf e r = entries := Json.object.inj admitted.data
    exact ⟨r, row, fun computed t' same => pendingOf_row e computed _ _ same⟩
  | stored | failed => exact ⟨h.rest, fun p waiting => nomatch waiting⟩

end ConvergioMesh
