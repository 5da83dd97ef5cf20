import ConvergioMesh.Sync.Apply

/-!
# The row a change describes

The cells of `incomingRow`, and the round trip of a row through its change record.
-/

namespace ConvergioMesh

theorem mem_knownColumns {localCols : List String} {entries : List (String × Json)} {k : String} :
    k ∈ knownColumns localCols entries ↔ k ∈ localCols ∧ k ∈ entries.map (·.1) := by
  simp [knownColumns, and_comm]

theorem lookup_isSome {entries : List (String × Json)} {k : String} (h : k ∈ entries.map (·.1)) :
    ∃ v, entries.lookup k = some v := by
  cases found : entries.lookup k with
  | some v => exact ⟨v, rfl⟩
  | none =>
    obtain ⟨p, member, rfl⟩ := List.mem_map.mp h
    have absent := List.lookup_eq_none_iff.mp found p member
    simp at absent

/-- Columns and values of the statement stay aligned: each column is bound the text of its entry. -/
theorem lookup_zip_boundValues (e : Engine) (entries : List (String × Json)) {cols : List String}
    (keys : ∀ k ∈ cols, k ∈ entries.map (·.1)) (k : String) :
    (cols.zip (boundValues e entries cols)).lookup k =
      if k ∈ cols then (entries.lookup k).map (jsonToSqlString e) else none := by
  induction cols with
  | nil => simp
  | cons c rest ih =>
    obtain ⟨v, found⟩ := lookup_isSome (keys c List.mem_cons_self)
    have values : boundValues e entries (c :: rest) = jsonToSqlString e v :: boundValues e entries rest := by
      simp [boundValues, found]
    rw [values, List.zip_cons_cons, List.lookup_cons]
    by_cases same : k = c
    · subst k
      simp [found]
    · have different : (k == c) = false := beq_false_of_ne same
      rw [different, ih fun k member => keys k (List.mem_cons_of_mem _ member)]
      simp [same]

theorem lookup_boundOf (e : Engine) (t : Table) (entries : List (String × Json)) {k : String}
    (column : k ∈ t.schema.names) :
    (boundOf e t entries).lookup k = (entries.lookup k).map (jsonToSqlString e) := by
  have keys : ∀ k ∈ knownColumns t.schema.names entries, k ∈ entries.map (·.1) :=
    fun k member => (mem_knownColumns.mp member).2
  rw [boundOf, lookup_zip_boundValues e entries keys]
  split
  · rfl
  · rename_i unknown
    have absent : entries.lookup k = none := by
      rw [List.lookup_eq_none_iff]
      intro p member
      refine bne_iff_ne.mpr fun same => unknown (mem_knownColumns.mpr ⟨column, ?_⟩)
      exact List.mem_map.mpr ⟨p, member, same.symm⟩
    rw [absent]
    rfl

theorem incomingRow_names (e : Engine) (computed : Row) (t : Table) (entries : List (String × Json)) :
    (incomingRow e computed t entries).names = t.schema.names := Table.names_build ..

theorem incomingRow_cell {e : Engine} {computed : Row} {t : Table} {entries : List (String × Json)} {c : Column} {v : Json}
    (column : c ∈ t.schema.columns) (h : entries.lookup c.name = some v) :
    (incomingRow e computed t entries).cell c.name = c.affinity.store e (jsonToSqlString e v) := by
  have name : c.name ∈ t.schema.names := List.mem_map_of_mem column
  refine Schema.cell_build_bound column ?_
  rw [lookup_boundOf e t entries name, h]
  rfl

/-- The change gives a value to every column whose default is an expression. -/
def NamesComputed (sch : Schema) (entries : List (String × Json)) : Prop :=
  ∀ c ∈ sch.columns, c.dflt = .expression → entries.lookup c.name ≠ none

/-- What default expressions evaluate to does not matter then. -/
theorem incomingRow_computed {e : Engine} {t : Table} {entries : List (String × Json)}
    (named : NamesComputed t.schema entries) (computed computed' : Row) :
    incomingRow e computed t entries = incomingRow e computed' t entries := by
  rw [incomingRow, incomingRow, Table.incoming, Table.incoming, Schema.build, Schema.build]
  refine List.map_congr_left fun c column => ?_
  have name : c.name ∈ t.schema.names := List.mem_map_of_mem column
  cases found : (boundOf e t entries).lookup c.name with
  | some s => rfl
  | none =>
    rw [lookup_boundOf e t entries name] at found
    cases dflt : c.dflt with
    | value v => simp only [Column.defaultValue, dflt]
    | expression => exact absurd (by simpa using found) (named c column dflt)

/-! ### Assigned rowids -/

/-- Only the rowid assigned to a change without an id depends on the rows of the table. -/
theorem incomingRow_congr {e : Engine} {computed : Row} {t t' : Table} {entries : List (String × Json)}
    (same : t'.schema = t.schema) (given : t.schema.rowid = true → entries.lookup "id" ≠ none) :
    incomingRow e computed t' entries = incomingRow e computed t entries := by
  have bound : boundOf e t' entries = boundOf e t entries := by rw [boundOf, boundOf, same]
  rw [incomingRow, incomingRow, Table.incoming, Table.incoming, same, bound, Schema.build, Schema.build]
  refine List.map_congr_left fun c column => ?_
  have name : c.name ∈ t.schema.names := List.mem_map_of_mem column
  cases found : (boundOf e t entries).lookup c.name with
  | some s => rfl
  | none =>
    by_cases assigned : (t.schema.rowid && c.name == "id") = true
    · simp only [Bool.and_eq_true, beq_iff_eq] at assigned
      rw [lookup_boundOf e t entries name, assigned.2] at found
      exact absurd (by simpa using found) (given assigned.1)
    · rw [if_neg assigned, if_neg assigned]

def entriesOf (r : Row) : List (String × Json) := r.map fun cell => (cell.1, sqliteToJson cell.2)

@[simp] theorem toChange_data (table : String) (r : Row) : (toChange table r).data = .object (entriesOf r) :=
  rfl

theorem lookup_entriesOf (r : Row) (k : String) : (entriesOf r).lookup k = (r.lookup k).map sqliteToJson := by
  induction r with
  | nil => rfl
  | cons cell rest ih =>
    obtain ⟨name, v⟩ := cell
    rw [entriesOf, List.map_cons, List.lookup_cons, List.lookup_cons]
    cases k == name with
    | true => rfl
    | false => exact ih

theorem entriesOf_keys (r : Row) : (entriesOf r).map (·.1) = r.names := by
  simp [entriesOf, Row.names]

theorem Row.lookup_of_mem {r : Row} {k : String} (h : k ∈ r.names) : r.lookup k = some (r.cell k) := by
  cases found : r.lookup k with
  | some v => simp [Row.cell, found]
  | none =>
    obtain ⟨p, member, rfl⟩ := List.mem_map.mp h
    have absent := List.lookup_eq_none_iff.mp found p member
    simp at absent

theorem lookup_entriesOf_mem {r : Row} {k : String} (h : k ∈ r.names) :
    (entriesOf r).lookup k = some (sqliteToJson (r.cell k)) := by
  rw [lookup_entriesOf, Row.lookup_of_mem h]
  rfl

theorem Row.ext {r s : Row} (names : r.names = s.names) (distinct : r.names.Nodup)
    (cells : ∀ k ∈ r.names, r.cell k = s.cell k) : r = s := by
  induction r generalizing s with
  | nil =>
    cases s with
    | nil => rfl
    | cons => cases names
  | cons x rest ih =>
    cases s with
    | nil => cases names
    | cons y others =>
      obtain ⟨name, v⟩ := x
      obtain ⟨name', w⟩ := y
      obtain ⟨rfl, tail⟩ : name = name' ∧ Row.names rest = Row.names others := by
        simpa [Row.names] using names
      obtain ⟨fresh, distinct⟩ := List.nodup_cons.mp distinct
      have head : v = w := by simpa [Row.cell] using cells name List.mem_cons_self
      have same : rest = others := by
        refine ih tail distinct fun k member => ?_
        have different : (k == name) = false := beq_false_of_ne fun same => fresh (same ▸ member)
        simpa [Row.cell, List.lookup_cons, different] using cells k (List.mem_cons_of_mem _ member)
      rw [head, same]

/-- A cell that survives the trip through JSON and bound text into a column. -/
def Carries (e : Engine) (a : Affinity) (v : SqlValue) : Prop :=
  a.store e (jsonToSqlString e (sqliteToJson v)) = v

theorem incomingRow_entriesOf {e : Engine} {computed : Row} {t : Table} {r : Row} (shape : r.names = t.schema.names)
    (cells : ∀ c ∈ t.schema.columns, Carries e c.affinity (r.cell c.name)) :
    incomingRow e computed t (entriesOf r) = r := by
  have names := incomingRow_names e computed t (entriesOf r)
  refine Row.ext (names.trans shape.symm) (names ▸ t.schema.distinct_names) fun k member => ?_
  rw [names] at member
  obtain ⟨c, column, rfl⟩ := List.mem_map.mp member
  rw [incomingRow_cell column (lookup_entriesOf_mem (shape ▸ member))]
  exact cells c column

theorem jsonToSqlString_integer (e : Engine) (i : Int64) :
    jsonToSqlString e (sqliteToJson (.integer i)) = toString i.toInt := by
  change (Json.number (.ofInt64 i)).print e.showReal = _
  rw [Json.print, Json.printNumber_ofInt64]

theorem carries_text (e : Engine) (s : String) : Carries e .text (.text s) := rfl

theorem carries_integer (e : Engine) {a : Affinity} (h : a = .integer ∨ a = .numeric) (i : Int64) :
    Carries e a (.integer i) := by
  unfold Carries
  rw [jsonToSqlString_integer]
  rcases h with rfl | rfl <;> exact numericValue_toString e i

def IsId (v : SqlValue) : Prop := (∃ i, v = .integer i) ∨ ∃ s, v = .text s

theorem IsId.ne_null {v : SqlValue} (h : IsId v) : v ≠ .null := by
  rcases h with ⟨i, rfl⟩ | ⟨s, rfl⟩ <;> simp

theorem pkParam_pkOf {v : SqlValue} (h : IsId v) : pkParam (pkOf v) = some v := by
  rcases h with ⟨i, rfl⟩ | ⟨s, rfl⟩
  · simp [pkOf, pkParam, Number.asI64_ofInt64]
  · rfl

theorem toString_of_asI64 {e : Engine} {n : Number} {i : Int64} (h : n.asI64 = some i) :
    jsonToSqlString e (.number n) = toString i.toInt := by
  cases n with
  | posInt n =>
    simp only [Number.asI64] at h
    split at h
    · rename_i small
      obtain rfl := Option.some.inj h
      have back : (Int64.ofInt n.toNat).toInt = n.toNat :=
        Int64.toInt_ofInt_of_le (by omega) (by omega)
      rw [back]
      rfl
    · cases h
  | negInt j =>
    obtain rfl := Option.some.inj h
    rfl
  | float f => cases h

theorem store_pk_eq_operand {e : Engine} {a : Affinity} {pk : Json} {v : SqlValue}
    (kind : a = .integer ∨ a = .numeric ∨ a = .text) (param : pkParam pk = some v) :
    a.store e (jsonToSqlString e pk) = a.operand e v := by
  cases pk with
  | number n =>
    obtain ⟨i, asI64, rfl⟩ := Option.map_eq_some_iff.mp param
    rw [toString_of_asI64 asI64]
    rcases kind with rfl | rfl | rfl
    · exact numericValue_toString e i
    · exact numericValue_toString e i
    · rfl
  | string s =>
    obtain rfl := Option.some.inj param
    rcases kind with rfl | rfl | rfl <;> rfl
  | null | bool | array | object => cases param

theorem remoteUpdatedAt_entriesOf {r : Row} (plain : ∀ b, r.cell "updated_at" ≠ .blob b) :
    remoteUpdatedAt (entriesOf r) = r.stamp := by
  unfold remoteUpdatedAt Row.stamp Row.updatedAt Row.textAt
  rw [lookup_entriesOf]
  unfold Row.cell at plain ⊢
  cases found : r.lookup "updated_at" with
  | none => rfl
  | some v =>
    rw [found] at plain
    cases v with
    | null | integer | text => rfl
    | real f => cases finite : f.isFinite <;> simp [sqliteToJson, finite, Json.asStr]
    | blob b => exact absurd rfl (plain b)

/-! ### Rows over the wire -/

/-- The change of a row as a peer receives it. -/
def wiredChange (e : Engine) (table : String) (r : Row) : SyncChange := (toChange table r).wired e.wireReal

def wiredEntriesOf (e : Engine) (r : Row) : List (String × Json) := Json.wiredEntries e.wireReal (entriesOf r)

@[simp] theorem wiredChange_data (e : Engine) (table : String) (r : Row) :
    (wiredChange e table r).data = .object (wiredEntriesOf e r) := rfl

/-- Only floats change on the wire: neither a name, nor a `pk`, nor a timestamp is one. -/
theorem wiredChange_pk (e : Engine) (table : String) (r : Row) : (wiredChange e table r).pk = (toChange table r).pk := by
  change (pkOf (r.cell "id")).wired e.wireReal = pkOf (r.cell "id")
  cases r.cell "id" with
  | integer i =>
    simp only [pkOf, Json.wired, Number.ofInt64]
    split <;> rfl
  | text | null | real | blob => rfl

theorem wiredEntriesOf_keys (e : Engine) (r : Row) : (wiredEntriesOf e r).map (·.1) = r.names := by
  rw [wiredEntriesOf, Json.wiredEntries_keys, entriesOf_keys]

theorem lookup_wiredEntriesOf (e : Engine) (r : Row) (k : String) :
    (wiredEntriesOf e r).lookup k = ((entriesOf r).lookup k).map (Json.wired e.wireReal) :=
  Json.lookup_wiredEntries ..

theorem remoteUpdatedAt_wiredEntriesOf (e : Engine) (r : Row) :
    remoteUpdatedAt (wiredEntriesOf e r) = remoteUpdatedAt (entriesOf r) := by
  rw [remoteUpdatedAt, remoteUpdatedAt, lookup_wiredEntriesOf]
  cases (entriesOf r).lookup "updated_at" with
  | none => rfl
  | some v => simp

/-- The REAL cells of the row survive a trip over the wire. -/
def Travels (e : Engine) (r : Row) : Prop := ∀ cell ∈ r, ∀ f, cell.2 = .real f → e.wireReal f = f

theorem wired_sqliteToJson {e : Engine} {v : SqlValue} (travels : ∀ f, v = .real f → e.wireReal f = f) :
    (sqliteToJson v).wired e.wireReal = sqliteToJson v := by
  cases v with
  | null | text | blob => rfl
  | integer i =>
    simp only [sqliteToJson, Number.ofInt64]
    split <;> rfl
  | real f =>
    simp only [sqliteToJson]
    split
    · simp only [Json.wired, Number.wired, travels f rfl]
    · rfl

theorem wiredEntriesOf_travels {e : Engine} {r : Row} (travels : Travels e r) : wiredEntriesOf e r = entriesOf r := by
  induction r with
  | nil => rfl
  | cons cell rest ih =>
    have head := wired_sqliteToJson (travels cell List.mem_cons_self)
    have tail := ih fun c member => travels c (List.mem_cons_of_mem _ member)
    rw [wiredEntriesOf] at tail ⊢
    rw [entriesOf, List.map_cons, Json.wiredEntries, head]
    exact congrArg _ tail

theorem wiredChange_travels {e : Engine} {table : String} {r : Row} (travels : Travels e r) :
    wiredChange e table r = toChange table r := by
  have data : Json.object (wiredEntriesOf e r) = .object (entriesOf r) := congrArg _ (wiredEntriesOf_travels travels)
  exact congrArg₂ (SyncChange.mk table) (wiredChange_pk e table r) data

theorem mem_overWire {e : Engine} {table : String} {changes : List SyncChange} {r : Row}
    (sent : toChange table r ∈ changes) : wiredChange e table r ∈ overWire e changes :=
  List.mem_map_of_mem sent

theorem admitted_entriesOf {db : Database} {name : String} {t : Table} {r : Row} (shape : r.names = t.schema.names)
    (id : IsId (r.cell "id")) (safe : ∀ k ∈ t.schema.names, isSafeIdentifier k = true) (synced : name ∈ syncTables)
    (present : db.tables name = some t) : Admitted db (toChange name r) t (entriesOf r) := by
  have known : knownColumns t.schema.names (entriesOf r) = t.schema.names := by
    rw [knownColumns, entriesOf_keys, shape]
    simp
  have column : "id" ∈ t.schema.names := shape ▸ Row.mem_names_of_cell id.ne_null
  refine ⟨synced, rfl, present, ?_, ?_⟩ <;> rw [known]
  · exact List.ne_nil_of_mem column
  · exact safe

theorem Admitted.wired {e : Engine} {db : Database} {name : String} {t : Table} {r : Row}
    (h : Admitted db (toChange name r) t (entriesOf r)) :
    Admitted db (wiredChange e name r) t (wiredEntriesOf e r) := by
  have columns : knownColumns t.schema.names (wiredEntriesOf e r) = knownColumns t.schema.names (entriesOf r) := by
    rw [knownColumns, knownColumns, wiredEntriesOf_keys, entriesOf_keys]
  exact ⟨h.synced, rfl, h.table, by rw [columns]; exact h.known, by rw [columns]; exact h.safe⟩

end ConvergioMesh
