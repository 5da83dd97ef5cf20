import ConvergioMesh.Sync.Incoming
import ConvergioMesh.Sync.Plans

/-!
# Replication into an empty table

Which rows survive `exportChangesSince` followed by `applyChanges` on an empty table with the same
schema.
-/

namespace ConvergioMesh

/-- The text of a finite float is no integer literal: it has a point or an exponent. -/
def RealText (e : Engine) : Prop := ∀ f : F64, f.isFinite = true → int64Literal (e.showReal f) = none

/-- What a column of this affinity can contain: a value that storing it leaves as it is, and any
finite number where there is no affinity. -/
def Affinity.Holds (e : Engine) : Affinity → SqlValue → Prop
  | _, .null | _, .blob _ => True
  | .text, .text _ | .blob, .text _ | .blob, .integer _ => True
  | .integer, .integer _ | .numeric, .integer _ => True
  | .integer, .real f | .numeric, .real f => f.isFinite = true ∧ f.toInt64? = none
  | .real, .real f | .blob, .real f => f.isFinite = true
  | .integer, .text s | .numeric, .text s | .real, .text s => int64Literal s = none ∧ e.readReal s = none
  | .text, .integer _ | .text, .real _ | .real, .integer _ => False

/-- SQLite reads the text that `serde_json` prints for the float as the same REAL. Not every
conversion of digits is that exact. -/
def Engine.Rereads (e : Engine) (f : F64) : Prop := (e.readReal (e.showReal f)).map F64.dropMinusZero = some f

/-- A cell that is neither NULL nor a BLOB, is text where there is no affinity, and a REAL only if its
text is read back. -/
structure Affinity.Conveys (e : Engine) (a : Affinity) (v : SqlValue) : Prop where
  plain : v.Plain
  typed : a = .blob → ∃ s, v = .text s
  reread : ∀ f, v = .real f → e.Rereads f

theorem jsonToSqlString_real {e : Engine} {f : F64} (finite : f.isFinite = true) :
    jsonToSqlString e (sqliteToJson (.real f)) = e.showReal f := by
  simp [sqliteToJson, finite, jsonToSqlString, Json.print, Json.printNumber]

theorem store_real {e : Engine} (real : RealText e) {f : F64} (finite : f.isFinite = true) :
    Affinity.store e .real (e.showReal f) = .real f ↔ e.Rereads f := by
  rw [Affinity.store, real f finite, Engine.Rereads]
  cases e.readReal (e.showReal f) <;> simp

theorem numericValue_real {e : Engine} (real : RealText e) {f : F64} (finite : f.isFinite = true)
    (fraction : f.toInt64? = none) : numericValue e (e.showReal f) = .real f ↔ e.Rereads f := by
  rw [numericValue, real f finite, Engine.Rereads]
  cases e.readReal (e.showReal f) with
  | none => simp
  | some g =>
    simp only [Option.map_some, Option.some.injEq]
    constructor
    · intro kept
      cases integral : g.toInt64? with
      | some i => simp [integral] at kept
      | none =>
        rw [F64.dropMinusZero_of_fraction integral]
        simpa [integral] using kept
    · intro same
      rw [F64.eq_of_dropMinusZero same fraction, fraction]
      rfl

/-- A cell that its column can contain arrives as it is exactly if it is conveyed. -/
theorem Affinity.Holds.carries_iff {e : Engine} (real : RealText e) {a : Affinity} {v : SqlValue}
    (h : a.Holds e v) : Carries e a v ↔ a.Conveys e v := by
  have absent (blank : ¬v.Plain) : Carries e a v ↔ a.Conveys e v := by
    refine iff_of_false (fun carried => blank ?_) fun conveys => blank conveys.plain
    rw [← carried]
    exact a.store_plain e _
  cases v with
  | null | blob => exact absent fun plain => plain
  | text s =>
    have conveys : a.Conveys e (.text s) := by
      refine ⟨trivial, fun _ => ⟨s, rfl⟩, ?_⟩
      rintro f ⟨⟩
    refine iff_of_true ?_ conveys
    cases a with
    | text | blob => rfl
    | integer | numeric => exact numericValue_text h
    | real =>
      change Affinity.store e .real s = .text s
      rw [Affinity.store, h.1, h.2]
      rfl
  | integer i =>
    have conveys (typed : a ≠ .blob) : a.Conveys e (.integer i) := by
      refine ⟨trivial, fun blob => absurd blob typed, ?_⟩
      rintro f ⟨⟩
    cases a with
    | integer | numeric => exact iff_of_true (carries_integer e (by simp) i) (conveys (by simp))
    | text | real => exact h.elim
    | blob =>
      refine iff_of_false (fun carried => ?_) fun conveys => ?_
      · cases carried
      · obtain ⟨s, other⟩ := conveys.typed rfl
        cases other
  | real f =>
    have conveys_iff (typed : a ≠ .blob) : a.Conveys e (.real f) ↔ e.Rereads f := by
      refine ⟨fun conveys => conveys.reread f rfl, fun rereads => ⟨trivial, fun blob => absurd blob typed, ?_⟩⟩
      rintro g same
      rwa [← SqlValue.real.inj same]
    unfold Carries
    cases a with
    | text => exact h.elim
    | blob =>
      rw [jsonToSqlString_real h]
      refine iff_of_false (fun carried => ?_) fun conveys => ?_
      · cases carried
      · obtain ⟨s, other⟩ := conveys.typed rfl
        cases other
    | real => rw [jsonToSqlString_real h, store_real real h, conveys_iff (by simp)]
    | integer | numeric =>
      rw [jsonToSqlString_real h.1, conveys_iff (by simp)]
      exact numericValue_real real h.1 h.2

theorem Affinity.Holds.operand {e : Engine} {a : Affinity} {v : SqlValue} (h : a.Holds e v) (id : IsId v) :
    a.operand e v = v := by
  rcases id with ⟨i, rfl⟩ | ⟨s, rfl⟩
  · cases a <;> first | exact h.elim | rfl
  · cases a with
    | text | blob => rfl
    | integer | numeric | real => exact numericValue_text h

/-- A row that a peer with the same schema stores as it is. -/
structure Replicable (e : Engine) (sch : Schema) (r : Row) : Prop where
  shape : r.names = sch.names
  accepted : sch.accepts r = true
  safe : ∀ k ∈ sch.names, isSafeIdentifier k = true
  cells : ∀ c ∈ sch.columns, Carries e c.affinity (r.cell c.name)
  id : IsId (r.cell "id")
  operand : sch.idOperand e (r.cell "id") = r.cell "id"

namespace Replicable

variable {e : Engine} {t : Table} {r : Row}

theorem id_column (h : Replicable e t.schema r) : "id" ∈ t.schema.names := by
  rw [← h.shape]
  exact Row.mem_names_of_cell h.id.ne_null

theorem incoming (h : Replicable e t.schema r) (computed : Row) : incomingRow e computed t (entriesOf r) = r :=
  incomingRow_entriesOf h.shape h.cells

theorem admitted (h : Replicable e t.schema r) {db : Database} {name : String} (synced : name ∈ syncTables)
    (present : db.tables name = some t) : Admitted db (toChange name r) t (entriesOf r) :=
  admitted_entriesOf h.shape h.id h.safe synced present

theorem localUpdatedAt (h : Replicable e t.schema r) {db : Database} {name : String}
    (present : db.tables name = some t) :
    localUpdatedAt e db name (toChange name r).pk =
      (t.schema.resolve "updated_at").bind fun column => (t.find (r.cell "id")).bind (·.textAt column) := by
  simp only [ConvergioMesh.localUpdatedAt, present, Option.bind_some, if_pos h.id_column, toChange,
    pkParam_pkOf h.id, h.operand]

theorem stores (h : Replicable e t.schema r) {f : Faults} (calm : f.Calm) {db : Database} {name : String}
    (synced : name ∈ syncTables) (present : db.tables name = some t)
    (fresh : isStale (remoteUpdatedAt (entriesOf r))
      (ConvergioMesh.localUpdatedAt e db name (toChange name r).pk) = false) :
    Stores e f db (toChange name r) t (entriesOf r) where
  admitted := h.admitted synced present
  reads := calm.tableInfo
  fresh := by
    rw [readLocal, calm.select]
    exact fresh
  writes := calm.insert
  fits := by rw [h.incoming, h.accepted]

end Replicable

theorem applyChangesInner_appends {e : Engine} {fs : List Faults} {db : Database} {name : String} {t : Table}
    {rows : List Row} {report : ApplyReport} (calm : ∀ f ∈ fs, f.Calm) (synced : name ∈ syncTables)
    (present : db.tables name = some t)
    (replicable : ∀ r ∈ rows, Replicable e t.schema r)
    (apart : rows.Pairwise fun r s => t.schema.conflict r s = false)
    (free : ∀ r ∈ rows, ∀ s ∈ t.rows, t.schema.conflict r s = false) :
    ∃ t', (applyChangesInner e fs db (rows.map (toChange name)) report).1.tables name = some t' ∧
      t'.rows = t.rows ++ rows := by
  induction rows generalizing fs db t report with
  | nil => exact ⟨t, present, (List.append_nil _).symm⟩
  | cons r rest ih =>
    have good := replicable r List.mem_cons_self
    have none_found : t.find (r.cell "id") = none := by
      cases found : t.find (r.cell "id") with
      | none => rfl
      | some s =>
        obtain ⟨member, same⟩ := Table.find_some found
        have clash : t.schema.conflict r s = true := Table.conflict_of_id (SqlValue.same_symm same)
        rw [free r List.mem_cons_self s member] at clash
        cases clash
    have fresh : isStale (remoteUpdatedAt (entriesOf r)) (localUpdatedAt e db name (toChange name r).pk) = false := by
      rw [good.localUpdatedAt present, none_found]
      cases t.schema.resolve "updated_at" <;> simp [isStale]
    have stores := good.stores (Faults.calm_headD calm) synced present fresh
    have rows_result : stores.result.rows = t.rows ++ [r] := by
      have all_kept : t.rows.filter (fun s => !t.schema.conflict r s) = t.rows := by
        rw [List.filter_eq_self]
        intro s member
        simp [free r List.mem_cons_self s member]
      simp only [Stores.result, Table.put, good.incoming, all_kept]
    have schema_result : stores.result.schema = t.schema := rfl
    obtain ⟨head_apart, rest_apart⟩ := List.pairwise_cons.mp apart
    have first : applyChange e (fs.headD {}) db (toChange name r) =
        (db.setTable name stores.result, .stored (remoteUpdatedAt (entriesOf r))) := applyChange_stores stores
    have rest_free : ∀ u ∈ rest, ∀ s ∈ stores.result.rows, stores.result.schema.conflict u s = false := by
      intro u member s old
      rw [rows_result] at old
      rcases List.mem_append.mp old with old | new
      · exact free u (List.mem_cons_of_mem _ member) s old
      · rw [List.mem_singleton.mp new]
        by_contra clash
        rw [schema_result, Bool.not_eq_false] at clash
        have := head_apart u member
        rw [Table.conflict_symm clash] at this
        cases this
    obtain ⟨t', stored, rows'⟩ := ih (Faults.calm_tail calm) (Database.setTable_tables_same db name stores.result)
      (fun s member => replicable s (List.mem_cons_of_mem _ member)) rest_apart rest_free
    refine ⟨t', ?_, by rw [rows', rows_result, List.append_assoc]; rfl⟩
    simpa only [List.map_cons, applyChangesInner, first] using stored

theorem applyChangesInner_rows {e : Engine} {fs : List Faults} {db : Database} {name : String} {t : Table}
    {changes : List SyncChange} {report : ApplyReport} {P : Row → Prop} (present : db.tables name = some t)
    (start : ∀ r ∈ t.rows, P r)
    (stored : ∀ c ∈ changes, ∀ f db' u entries, Stores e f db' c u entries → c.tableName = name →
      u.schema = t.schema → P (incomingRow e f.defaults u entries)) :
    ∃ t', (applyChangesInner e fs db changes report).1.tables name = some t' ∧ ∀ r ∈ t'.rows, P r := by
  induction changes generalizing fs db t report with
  | nil => exact ⟨t, present, start⟩
  | cons c rest ih =>
    have others := fun d member => stored d (List.mem_cons_of_mem _ member)
    rcases applyChange_cases e (fs.headD {}) db c with ⟨u, entries, stores⟩ | ⟨_, why, done⟩
    · by_cases here : c.tableName = name
      · subst name
        obtain rfl : t = u := Option.some.inj (present.symm.trans stores.admitted.table)
        refine ih (t := stores.result) (by rw [applyChange_stores stores]; simp) (fun r member => ?_) others
        rcases stores.mem_result.mp member with ⟨old, _⟩ | rfl
        · exact start r old
        · exact stored c List.mem_cons_self _ _ _ _ stores rfl rfl
      · exact ih (by rw [applyChange_tables_other e _ db (Ne.symm here), present]) start others
    · exact ih (by rw [done, present]) start others

def SameRows (db : Database) (name : String) (t : Table) : Prop :=
  ∃ t', db.tables name = some t' ∧ ∀ r, r ∈ t'.rows ↔ r ∈ t.rows

/-- A row that replication can carry: safe column names, and only cells that are conveyed. -/
def Transportable (e : Engine) (sch : Schema) (r : Row) : Prop :=
  (∀ k ∈ sch.names, isSafeIdentifier k = true) ∧ ∀ c ∈ sch.columns, c.affinity.Conveys e (r.cell c.name)

theorem Transportable.replicable {e : Engine} (real : RealText e) {t : Table} {r : Row} (member : r ∈ t.rows)
    (id : IsId (r.cell "id")) (matching : ∀ c ∈ t.schema.columns, c.affinity.Holds e (r.cell c.name))
    (h : Transportable e t.schema r) : Replicable e t.schema r where
  shape := t.shaped r member
  accepted := t.accepted r member
  safe := h.1
  cells c column := ((matching c column).carries_iff real).mpr (h.2 c column)
  id := id
  operand := by
    refine Schema.idOperand_fixed fun c column name => ?_
    have holds := matching c column
    rw [name] at holds
    exact holds.operand id

/-- The row is what some change for a row of the table has been stored as. -/
def Arrived (e : Engine) (t : Table) (x : Row) : Prop :=
  (∀ k ∈ t.schema.names, isSafeIdentifier k = true) ∧
    ∃ s ∈ t.rows, ∀ c ∈ t.schema.columns, x.cell c.name = c.affinity.store e (jsonToSqlString e (sqliteToJson (s.cell c.name)))

theorem Stores.arrived {e : Engine} {f : Faults} {db : Database} {name : String} {r : Row} {t u : Table}
    {entries : List (String × Json)} (stores : Stores e f db (toChange name r) u entries)
    (schema : u.schema = t.schema) (member : r ∈ t.rows) : Arrived e t (incomingRow e f.defaults u entries) := by
  obtain rfl : entriesOf r = entries := Json.object.inj stores.admitted.data
  have shape := t.shaped r member
  refine ⟨fun k column => ?_, r, member, fun c column => ?_⟩
  · refine stores.admitted.safe k (mem_knownColumns.mpr ⟨schema ▸ column, ?_⟩)
    rw [entriesOf_keys, shape]
    exact column
  · have carried : c.name ∈ r.names := shape ▸ List.mem_map_of_mem column
    exact incomingRow_cell (schema ▸ column) (lookup_entriesOf_mem carried)

/-- If every row of a table has arrived, each has arrived as itself: ids are not changed on the way. -/
theorem carries_of_arrived {e : Engine} (real : RealText e) {t : Table} (ids : ∀ r ∈ t.rows, IsId (r.cell "id"))
    (matching : ∀ r ∈ t.rows, ∀ c ∈ t.schema.columns, c.affinity.Holds e (r.cell c.name))
    (arrived : ∀ r ∈ t.rows, Arrived e t r) {r : Row} (member : r ∈ t.rows) :
    ∀ c ∈ t.schema.columns, Carries e c.affinity (r.cell c.name) := by
  obtain ⟨_, s, source, stored⟩ := arrived r member
  have id_column : "id" ∈ t.schema.names := t.shaped r member ▸ Row.mem_names_of_cell (ids r member).ne_null
  obtain ⟨d, column, isId⟩ := List.mem_map.mp id_column
  have id_conveyed : d.affinity.Conveys e (s.cell d.name) := by
    obtain ⟨_, s', _, stored'⟩ := arrived s source
    refine ⟨?_, fun blob => ?_, fun f real => ?_⟩
    · rw [stored' d column]
      exact d.affinity.store_plain e _
    · rw [stored' d column, blob]
      exact ⟨_, rfl⟩
    · rw [isId] at real
      rcases ids s source with ⟨i, integer⟩ | ⟨u, text⟩
      · cases real.symm.trans integer
      · cases real.symm.trans text
  have same_id : r.cell "id" = s.cell "id" := by
    rw [← isId, stored d column]
    exact ((matching s source d column).carries_iff real).mpr id_conveyed
  obtain rfl : r = s := by
    refine t.eq_of_id member source (SqlValue.same_iff.mpr ⟨?_, by rw [same_id]⟩)
    simpa using (ids r member).ne_null
  exact fun c column => (stored c column).symm

theorem export_none {e : Engine} {db : Database} {name : String} {t : Table} {changes : List SyncChange}
    (present : db.tables name = some t) (h : exportChangesSince e db name none = .ok changes) :
    ∃ rows : List Row, rows.Perm t.rows ∧ changes = rows.map (toChange name) := by
  unfold exportChangesSince at h
  rw [present] at h
  dsimp only at h
  split at h
  · cases h
  split at h
  · cases h
  split at h
  · cases h
  · obtain rfl := Except.ok.inj h
    have all : t.rows.filter (selects e t none) = t.rows := List.filter_eq_self.mpr fun _ _ => rfl
    exact ⟨_, List.perm_insertionSort (idOrder t.schema) _, by rw [all]⟩

theorem applyChanges_calm (e : Engine) {f : ApplyFaults} (calm : f.Calm) (db : Database) (changes : List SyncChange) :
    (applyChanges e f db changes).1 = (applyChangesInner e f.changes db changes {}).1 := by
  cases changes with
  | nil => rfl
  | cons => simp [applyChanges, applyChangesDetailed, calm.pragmaOff]

/-- Exactly when a full export applied to an empty table reproduces the table. -/
theorem export_apply_sameRows_iff {e : Engine} (real : RealText e) {f : ApplyFaults} (calm : f.Calm)
    {src dst : Database} {name : String} {t empty : Table} (synced : name ∈ syncTables)
    (source : src.tables name = some t) (target : dst.tables name = some empty) (schema : empty.schema = t.schema)
    (no_rows : empty.rows = []) (ids : ∀ r ∈ t.rows, IsId (r.cell "id"))
    (matching : ∀ r ∈ t.rows, ∀ c ∈ t.schema.columns, c.affinity.Holds e (r.cell c.name))
    {changes : List SyncChange} (exported : exportChangesSince e src name none = .ok changes) :
    SameRows (applyChanges e f dst changes).1 name t ↔ ∀ r ∈ t.rows, Transportable e t.schema r := by
  obtain ⟨rows, perm, rfl⟩ := export_none source exported
  rw [applyChanges_calm e calm]
  constructor
  · rintro ⟨t', stored, same⟩
    have stored_arrived : ∀ c ∈ rows.map (toChange name), ∀ f db' u entries, Stores e f db' c u entries →
        c.tableName = name → u.schema = empty.schema → Arrived e t (incomingRow e f.defaults u entries) := by
      intro c listed f db' u entries stores _ shape
      obtain ⟨s, inside, rfl⟩ := List.mem_map.mp listed
      exact stores.arrived (shape.trans schema) (perm.mem_iff.mp inside)
    obtain ⟨t'', stored', arrived⟩ := applyChangesInner_rows (P := Arrived e t) target (by simp [no_rows]) stored_arrived
    obtain rfl : t' = t'' := Option.some.inj (stored.symm.trans stored')
    have all (r : Row) (member : r ∈ t.rows) : Arrived e t r := arrived r ((same r).mpr member)
    refine fun r member => ⟨(all r member).1, fun c column => ?_⟩
    exact ((matching r member c column).carries_iff real).mp (carries_of_arrived real ids matching all member c column)
  · intro transportable
    have apart : rows.Pairwise fun r s => empty.schema.conflict r s = false := by
      rw [schema]
      refine (perm.pairwise_iff fun {r s} free => ?_).mpr t.distinct
      by_contra clash
      rw [Bool.not_eq_false] at clash
      rw [Table.conflict_symm clash] at free
      cases free
    have replicable : ∀ r ∈ rows, Replicable e empty.schema r := by
      intro r listed
      have member := perm.mem_iff.mp listed
      rw [schema]
      exact (transportable r member).replicable real member (ids r member) (matching r member)
    obtain ⟨t', stored, rows'⟩ :=
      applyChangesInner_appends calm.changes synced target replicable apart (by simp [no_rows])
    refine ⟨t', stored, fun r => ?_⟩
    rw [rows', no_rows, List.nil_append]
    exact perm.mem_iff

theorem int64Literal_dot (cs : List Char) (digits : ∀ c ∈ cs, c.isDigit = true) :
    int64Literal (String.ofList ('.' :: cs)) = none := by
  have clean : ∀ c ∈ '.' :: cs, isSqlSpace c = false := by
    intro c member
    rcases List.mem_cons.mp member with rfl | member
    · decide
    · exact isDigit_not_space (digits c member)
  simp [int64Literal, integerLiteral, trimSpaces_of_not_space clean, signedDigits, digitsValue]

theorem sampleEngine_realText : RealText sampleEngine := fun _ _ =>
  int64Literal_dot _ fun _ member => Nat.isDigit_of_mem_toDigits (by decide) (by decide) member

theorem planRows_holds {rows : List (Int64 × String × String)} :
    ∀ r ∈ rows.map (fun p => plan p.1 p.2.1 p.2.2), IsId (r.cell "id") ∧
      (∀ c ∈ plansSchema.columns, c.affinity.Holds sampleEngine (r.cell c.name)) ∧
        Transportable sampleEngine plansSchema r := by
  intro r member
  obtain ⟨⟨id, name, updatedAt⟩, _, rfl⟩ := List.mem_map.mp member
  have columns : ∀ c ∈ plansSchema.columns, c.name = "id" ∧ c.affinity = .integer ∨
      c.name = "name" ∧ c.affinity = .text ∨ c.name = "updated_at" ∧ c.affinity = .text := by decide
  have holds (c : Column) (column : c ∈ plansSchema.columns) :
      c.affinity.Holds sampleEngine ((plan id name updatedAt).cell c.name) := by
    rcases columns c column with ⟨isName, kind⟩ | ⟨isName, kind⟩ | ⟨isName, kind⟩ <;> rw [isName, kind] <;> trivial
  refine ⟨.inl ⟨id, rfl⟩, holds, by decide, fun c column => ?_⟩
  refine ((holds c column).carries_iff sampleEngine_realText).mp ?_
  rcases columns c column with ⟨isName, kind⟩ | ⟨isName, kind⟩ | ⟨isName, kind⟩ <;> rw [isName, kind]
  · exact carries_integer _ (.inl rfl) id
  · rfl
  · rfl

def twoPlans : Table := plansTable [(2, "b", "2026-04-21 09:00:00"), (1, "a", "2026-04-21T08:00:00")] (by decide)

theorem twoPlans_replicated :
    SameRows (applyChanges sampleEngine {} (plansDb noPlans)
        [planChange 1 1 "a" "2026-04-21T08:00:00", planChange 2 2 "b" "2026-04-21 09:00:00"]).1
      "plans" twoPlans := by
  have source : (plansDb twoPlans).tables "plans" = some twoPlans := rfl
  have target : (plansDb noPlans).tables "plans" = some noPlans := rfl
  refine (export_apply_sameRows_iff sampleEngine_realText ApplyFaults.calm_none (by decide) source target rfl rfl
    ?_ ?_ rfl).mpr ?_
  · exact fun r member => (planRows_holds r member).1
  · exact fun r member => (planRows_holds r member).2.1
  · exact fun r member => (planRows_holds r member).2.2

def namedPlan (name : SqlValue) : Table where
  schema := plansSchema
  rows := [[("id", .integer 1), ("name", name), ("updated_at", .text "2026-04-21 08:00:00")]]
  shaped := by simp [Row.names, plansSchema, Schema.names]
  accepted r member := by
    obtain rfl := List.mem_singleton.mp member
    rfl
  distinct := List.pairwise_singleton _ _

/-- A NULL arrives as the empty text, the BLOB of one zero byte as the text of its base64. -/
theorem null_and_blob_not_replicated :
    (exportChangesSince sampleEngine (plansDb (namedPlan .null)) "plans" none =
        .ok [toChange "plans" [("id", .integer 1), ("name", .null), ("updated_at", .text "2026-04-21 08:00:00")]] ∧
      ¬SameRows (applyChanges sampleEngine {} (plansDb noPlans)
        [toChange "plans" [("id", .integer 1), ("name", .null), ("updated_at", .text "2026-04-21 08:00:00")]]).1
        "plans" (namedPlan .null)) ∧
    exportChangesSince sampleEngine (plansDb (namedPlan (.blob [0]))) "plans" none =
        .ok [toChange "plans" [("id", .integer 1), ("name", .blob [0]), ("updated_at", .text "2026-04-21 08:00:00")]] ∧
      ¬SameRows (applyChanges sampleEngine {} (plansDb noPlans)
        [toChange "plans" [("id", .integer 1), ("name", .blob [0]), ("updated_at", .text "2026-04-21 08:00:00")]]).1
        "plans" (namedPlan (.blob [0])) := by
  refine ⟨⟨rfl, ?_⟩, rfl, ?_⟩
  · rintro ⟨t', stored, same⟩
    obtain rfl := Option.some.inj stored
    exact absurd ((same _).mpr List.mem_cons_self) (by decide)
  · rintro ⟨t', stored, same⟩
    obtain rfl := Option.some.inj stored
    exact absurd ((same _).mpr List.mem_cons_self) (by decide)

end ConvergioMesh
