import ConvergioMesh.Sync.Overwrite

/-!
# Columns a change does not carry

A peer with an older schema sends only some of the local columns. `INSERT OR REPLACE` binds those
and gives every other column its default.
-/

namespace ConvergioMesh

/-- The column stores the text of the value as that value. -/
def Affinity.Takes (e : Engine) (a : Affinity) (v : Json) : Prop :=
  sqliteToJson (a.store e (jsonToSqlString e v)) = v

/-- A strictly newer change for a row: `pk` is its id, and names the row. -/
structure UpdateOf (e : Engine) (t : Table) (pk : Json) (entries : List (String × Json)) (r : Row) : Prop where
  member : r ∈ t.rows
  id : entries.lookup "id" = some pk
  named : named e t pk r = true
  newer : ∃ l u, r.stamp = some l ∧ remoteUpdatedAt entries = some u ∧ l < u

/-- The row shows every value the change carries, and has every other cell of the row before it. -/
def Row.Merges (r' : Row) (entries : List (String × Json)) (r : Row) : Prop :=
  (∀ k ∈ r.names, ∀ v, entries.lookup k = some v → sqliteToJson (r'.cell k) = v) ∧
    ∀ k ∈ r.names, entries.lookup k = none → r'.cell k = r.cell k

/-- The row with this row's id is there and merges the change into it. -/
def RowMerged (db : Database) (name : String) (entries : List (String × Json)) (r : Row) : Prop :=
  ∃ t, db.tables name = some t ∧
    ∃ r' ∈ t.rows, t.schema.same "id" (r'.cell "id") (r.cell "id") = true ∧ r'.Merges entries r

/-- Every carried column takes its value, and every other one holds already what its default is worth now. -/
def FillsDefaults (e : Engine) (computed : Row) (t : Table) (entries : List (String × Json)) (r : Row) : Prop :=
  ∀ c ∈ t.schema.columns,
    (∀ v, entries.lookup c.name = some v → c.affinity.Takes e v) ∧
      (entries.lookup c.name = none → r.cell c.name = c.defaultValue computed)

example (e : Engine) : Affinity.text.Takes e (.string "alpha") := rfl

example (e : Engine) : ¬Affinity.text.Takes e .null := nofun

theorem sqliteToJson_string {v : SqlValue} {s : String} (plain : v.Plain) (h : sqliteToJson v = .string s) :
    v = .text s := by
  cases v with
  | null | blob => exact plain.elim
  | integer i => cases h
  | real f => cases finite : f.isFinite <;> simp [sqliteToJson, finite] at h
  | text t => rw [Json.string.inj h]

theorem sqliteToJson_number {v : SqlValue} {n : Number} {i : Int64} (plain : v.Plain) (int : n.asI64 = some i)
    (h : sqliteToJson v = .number n) : v = .integer i := by
  cases v with
  | null | blob => exact plain.elim
  | text s => cases h
  | integer j =>
    obtain rfl := Json.number.inj h
    rw [Number.asI64_ofInt64] at int
    rw [Option.some.inj int]
  | real f =>
    cases finite : f.isFinite with
    | false => simp [sqliteToJson, finite] at h
    | true =>
      obtain rfl : .float f = n := by simpa [sqliteToJson, finite] using h
      cases int

theorem store_real_text {e : Engine} {s t : String} (h : Affinity.store e .real s = .text t) :
    numericValue e s = .text s := by
  simp only [Affinity.store] at h
  cases literal : int64Literal s with
  | some i => rw [literal] at h; cases h
  | none =>
    rw [literal] at h
    cases read : e.readReal s with
    | some f => rw [read] at h; cases h
    | none => exact numericValue_text ⟨literal, read⟩

/-- A column that takes a key stores what `WHERE id = ?1` compares with. -/
theorem Affinity.Takes.operand {e : Engine} {a : Affinity} {pk : Json} {v : SqlValue} (takes : a.Takes e pk)
    (param : pkParam pk = some v) : a.store e (jsonToSqlString e pk) = a.operand e v := by
  have plain := a.store_plain e (jsonToSqlString e pk)
  cases pk with
  | number n =>
    obtain ⟨i, int, rfl⟩ := Option.map_eq_some_iff.mp param
    have stored := sqliteToJson_number plain int takes
    cases a with
    | text | blob => cases stored
    | numeric | integer | real => exact stored
  | string s =>
    obtain rfl := Option.some.inj param
    cases a with
    | text | blob | numeric | integer => rfl
    | real =>
      have stored := sqliteToJson_string plain takes
      exact stored.trans (store_real_text stored).symm
  | null | bool | array | object => cases param

/-! ### The row that is stored -/

theorem incomingRow_cell_absent {e : Engine} {computed : Row} {t : Table} {entries : List (String × Json)} {c : Column}
    (column : c ∈ t.schema.columns) (id : c.name ≠ "id") (absent : entries.lookup c.name = none) :
    (incomingRow e computed t entries).cell c.name = c.defaultValue computed := by
  have unbound : (boundOf e t entries).lookup c.name = none := by
    rw [lookup_boundOf e t entries (List.mem_map_of_mem column), absent]
    rfl
  rw [incomingRow, Table.incoming, Schema.build, Row.cell_map t.schema.distinct_names _ column, unbound]
  simp [id]

theorem incomingRow_merges_iff {e : Engine} {computed : Row} {t : Table} {pk : Json} {entries : List (String × Json)}
    {r : Row}
    (update : UpdateOf e t pk entries r) :
    (incomingRow e computed t entries).Merges entries r ↔ FillsDefaults e computed t entries r := by
  have names : r.names = t.schema.names := t.shaped r update.member
  have other {c : Column} (absent : entries.lookup c.name = none) : c.name ≠ "id" := by
    intro id
    rw [id, update.id] at absent
    cases absent
  constructor
  · rintro ⟨carried, kept⟩ c column
    have name : c.name ∈ r.names := names ▸ List.mem_map_of_mem column
    refine ⟨fun v found => ?_, fun absent => ?_⟩
    · have shown := carried c.name name v found
      rwa [incomingRow_cell column found] at shown
    · rw [← kept c.name name absent, incomingRow_cell_absent column (other absent) absent]
  · intro fills
    constructor <;> intro k member
    · intro v found
      obtain ⟨c, column, rfl⟩ := List.mem_map.mp (names ▸ member)
      rw [incomingRow_cell column found]
      exact (fills c column).1 v found
    · intro absent
      obtain ⟨c, column, rfl⟩ := List.mem_map.mp (names ▸ member)
      rw [incomingRow_cell_absent column (other absent) absent, (fills c column).2 absent]

/-- The row as it was does not show the newer timestamp. -/
theorem UpdateOf.not_merged {e : Engine} {t : Table} {pk : Json} {entries : List (String × Json)} {r : Row}
    (update : UpdateOf e t pk entries r) : ¬r.Merges entries r := by
  intro merges
  obtain ⟨l, u, dated, remote, newer⟩ := update.newer
  obtain ⟨raw, cell, _, rfl⟩ := Row.stamp_some dated
  obtain ⟨s, found, rfl⟩ := Option.map_eq_some_iff.mp remote
  obtain ⟨v, entry, str⟩ := Option.bind_eq_some_iff.mp found
  have name : "updated_at" ∈ r.names := Row.mem_names_of_cell (by rw [cell]; simp)
  have shown := merges.1 "updated_at" name v entry
  rw [cell] at shown
  obtain rfl := shown
  obtain rfl := Option.some.inj str
  exact lt_irrefl _ newer

/-- The stored row has the id of the row the change is for if its `id` column takes `pk`. -/
theorem UpdateOf.same_id {e : Engine} {computed : Row} {t : Table} {pk : Json} {entries : List (String × Json)}
    {r : Row} (update : UpdateOf e t pk entries r) (fills : FillsDefaults e computed t entries r) :
    t.schema.same "id" ((incomingRow e computed t entries).cell "id") (r.cell "id") = true := by
  obtain ⟨c, column, name⟩ := List.mem_map.mp (named_column update.member update.named)
  have id : entries.lookup c.name = some pk := name ▸ update.id
  have takes := (fills c column).1 pk id
  obtain ⟨v, param, same⟩ := (Option.any_eq_true _ _).mp update.named
  rw [Schema.idOperand_column column name, ← takes.operand param, ← incomingRow_cell column id, name] at same
  exact SqlValue.same_symm same

/-- Exactly when an applied change leaves the columns it does not carry as they were. -/
theorem applied_merges_iff {e : Engine} {f : Faults} {db : Database} {c : SyncChange} {t : Table}
    {entries : List (String × Json)} {r : Row} (data : c.data = .object entries)
    (present : db.tables c.tableName = some t) (update : UpdateOf e t c.pk entries r)
    (applied : (applyChange e f db c).2.isStored = true) :
    RowMerged (applyChange e f db c).1 c.tableName entries r ↔ FillsDefaults e f.defaults t entries r := by
  rcases applyChange_cases e f db c with ⟨t', entries', stores⟩ | ⟨_, why, rejected⟩
  · obtain rfl : t = t' := Option.some.inj (present.symm.trans stores.admitted.table)
    obtain rfl : entries = entries' := Json.object.inj (data.symm.trans stores.admitted.data)
    rw [applyChange_stores stores]
    constructor
    · rintro ⟨u, stored, r', member, same, merges⟩
      obtain rfl : stores.result = u := by simpa using stored
      rcases stores.mem_result.mp member with ⟨old, _⟩ | rfl
      · obtain rfl := t.eq_of_id old update.member same
        exact absurd merges update.not_merged
      · exact (incomingRow_merges_iff update).mp merges
    · intro fills
      exact ⟨stores.result, by simp, _, stores.mem_result.mpr (.inr rfl), update.same_id fills,
        (incomingRow_merges_iff update).mpr fills⟩
  · rw [rejected] at applied
    cases applied

/-- A node with a single plan, named by a column its peer does not have. -/
def draftDb : Database := plansDb (plansTable [(1, "draft", "2026-04-21 10:00:00")] (by decide))

/-- The change for it, as that peer sends it. -/
def unnamedEntries : List (String × Json) :=
  [("id", .number (.ofInt64 1)), ("updated_at", .string "2026-04-21 12:00:00")]

theorem draft_updateOf : UpdateOf sampleEngine (plansTable [(1, "draft", "2026-04-21 10:00:00")] (by decide))
    (.number (.ofInt64 1)) unnamedEntries (plan 1 "draft" "2026-04-21 10:00:00") where
  member := List.mem_cons_self
  id := rfl
  named := by decide
  newer := ⟨_, _, rfl, rfl, by decide⟩

theorem applied_merges_iff_draft :
    RowMerged (applyChange sampleEngine {} draftDb ⟨"plans", .number (.ofInt64 1), .object unnamedEntries⟩).1 "plans"
        unnamedEntries (plan 1 "draft" "2026-04-21 10:00:00") ↔
      FillsDefaults sampleEngine [] (plansTable [(1, "draft", "2026-04-21 10:00:00")] (by decide)) unnamedEntries
        (plan 1 "draft" "2026-04-21 10:00:00") :=
  applied_merges_iff rfl rfl draft_updateOf (by decide)

/-- The change resets the name of the plan. -/
theorem uncarried_name_reset :
    UpdateOf sampleEngine (plansTable [(1, "draft", "2026-04-21 10:00:00")] (by decide)) (.number (.ofInt64 1))
        unnamedEntries (plan 1 "draft" "2026-04-21 10:00:00") ∧
      (applyChange sampleEngine {} draftDb ⟨"plans", .number (.ofInt64 1), .object unnamedEntries⟩).2.isStored = true ∧
      ¬RowMerged (applyChange sampleEngine {} draftDb ⟨"plans", .number (.ofInt64 1), .object unnamedEntries⟩).1 "plans"
        unnamedEntries (plan 1 "draft" "2026-04-21 10:00:00") := by
  refine ⟨draft_updateOf, by decide, ?_⟩
  rintro ⟨t, stored, r', member, _, _, kept⟩
  obtain rfl := Option.some.inj stored
  obtain rfl := List.mem_singleton.mp member
  exact absurd (kept "name" (by decide) rfl) (by decide)

end ConvergioMesh
