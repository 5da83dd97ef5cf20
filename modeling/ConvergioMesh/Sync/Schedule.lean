import ConvergioMesh.Sync.Concurrent
import ConvergioMesh.Sync.Exchange
import ConvergioMesh.Sync.Round

/-!
# Delivery in any order

Each change offers the row it describes to the versions a table holds. Whatever the order, the
batches and the repetitions, the table ends with the newest version of each id.
-/

namespace ConvergioMesh

open Library

/-- The row a change delivers to a table, if the names of its columns are safe and the table takes it.
Default expressions are left out: the changes considered give every such column a value. -/
def delivered (e : Engine) (t : Table) (c : SyncChange) : Option Row :=
  c.data.asObject.bind fun entries =>
    if (∀ k ∈ knownColumns t.schema.names entries, isSafeIdentifier k = true) ∧
        t.schema.accepts (incomingRow e [] t entries) = true then
      some (incomingRow e [] t entries)
    else none

/-- One call after the other, each with what its iterations meet. -/
def applyBatches (e : Engine) (db : Database) (batches : List (ApplyFaults × List SyncChange)) : Database :=
  batches.foldl (fun db batch => (applyChanges e batch.1 db batch.2).1) db

/-- No key but the id, and a text `updated_at` in every row. -/
structure MergeTable (t : Table) : Prop extends KeyedSchema t.schema where
  only_id : t.schema.uniques = []
  rows : ∀ r ∈ t.rows, ∃ s, r.cell "updated_at" = .text s

/-- A change for this table that carries `pk`, a 64-bit integer or a string, as its id, and every column
whose default is an expression. -/
structure Deliverable (name : String) (sch : Schema) (c : SyncChange) : Prop where
  table : c.tableName = name
  regular : c.Regular
  param : (pkParam c.pk).isSome
  computed : ∀ entries, c.data = .object entries → NamesComputed sch entries

theorem delivered_some {e : Engine} {t : Table} {c : SyncChange} {r : Row} (h : delivered e t c = some r) :
    ∃ entries, c.data = .object entries ∧ (∀ k ∈ knownColumns t.schema.names entries, isSafeIdentifier k = true) ∧
      t.schema.accepts (incomingRow e [] t entries) = true ∧ r = incomingRow e [] t entries := by
  obtain ⟨entries, data, h⟩ := Option.bind_eq_some_iff.mp h
  split at h
  · rename_i fine
    exact ⟨entries, asObject_some.mp data, fine.1, fine.2, (Option.some.inj h).symm⟩
  · cases h

theorem Stores.delivered {e : Engine} {f : Faults} {db : Database} {c : SyncChange} {t : Table}
    {entries : List (String × Json)} (h : Stores e f db c t entries) (named : NamesComputed t.schema entries) :
    delivered e t c = some (incomingRow e f.defaults t entries) := by
  have fits := h.fits
  unfold ConvergioMesh.delivered
  rw [h.admitted.data]
  rw [incomingRow_computed named _ []] at fits ⊢
  exact if_pos ⟨h.admitted.safe, fits⟩

theorem delivered_congr {e : Engine} {t t' : Table} (same : t'.schema = t.schema) {c : SyncChange}
    (regular : c.Regular) : delivered e t' c = delivered e t c := by
  obtain ⟨entries, u, data, id, _⟩ := regular
  unfold delivered
  rw [data]
  have row : incomingRow e [] t' entries = incomingRow e [] t entries :=
    incomingRow_congr same fun _ => by rw [id]; simp
  simp only [Json.asObject, Option.bind_some, same, row]

namespace Deliverable

variable {e : Engine} {name : String} {sch : Schema} {c : SyncChange} {t : Table} {r : Row}

theorem row (h : Deliverable name sch c) (schema : KeyedSchema t.schema) (found : delivered e t c = some r) :
    (∃ v, pkParam c.pk = some v ∧ r.cell "id" = t.schema.idOperand e v) ∧ r.cell "id" ≠ .null ∧
      (∃ s, r.cell "updated_at" = .text s) ∧ ∀ entries, c.data = .object entries → remoteUpdatedAt entries = some r.date := by
  obtain ⟨entries, data, _, _, rfl⟩ := delivered_some found
  obtain ⟨v, param⟩ := Option.isSome_iff_exists.mp h.param
  obtain ⟨u, remote, stamp⟩ := h.regular.stamp (e := e) schema data
  obtain ⟨raw, cell, _⟩ := Row.stamp_some stamp
  refine ⟨⟨v, param, h.regular.cell_id schema data param⟩, ?_, ⟨raw, cell⟩, fun entries' data' => ?_⟩
  · obtain ⟨entries', w, data', id, _⟩ := h.regular
    obtain rfl : entries = entries' := Json.object.inj (data.symm.trans data')
    obtain ⟨d, column, isId, _⟩ := schema.id
    rw [← isId] at id ⊢
    rw [incomingRow_cell column id]
    exact (d.affinity.store_plain e _).ne_null
  · obtain rfl : entries = entries' := Json.object.inj (data.symm.trans data')
    rw [remote, Row.date, stamp]
    rfl

theorem admitted (h : Deliverable name sch c) (schema : KeyedSchema t.schema) (synced : name ∈ syncTables) {db : Database}
    (present : db.tables name = some t) {entries : List (String × Json)} (data : c.data = .object entries)
    (safe : ∀ k ∈ knownColumns t.schema.names entries, isSafeIdentifier k = true) : Admitted db c t entries := by
  obtain ⟨entries', u, data', id, _⟩ := h.regular
  obtain rfl : entries = entries' := Json.object.inj (data.symm.trans data')
  obtain ⟨d, column, isId, _⟩ := schema.id
  refine ⟨h.table ▸ synced, data, h.table ▸ present, List.ne_nil_of_mem (a := "id") ?_, safe⟩
  refine mem_knownColumns.mpr ⟨isId ▸ List.mem_map_of_mem column, ?_⟩
  obtain ⟨before, after, rfl, _⟩ := List.lookup_eq_some_iff.mp id
  simp

end Deliverable

/-- What a list of changes offers to a table, by id. -/
def versions (e : Engine) (t : Table) (changes : List SyncChange) : List (Key × Row) :=
  changes.filterMap fun c => (delivered e t c).map fun r => (r.key, r)

theorem mem_versions {e : Engine} {t : Table} {changes : List SyncChange} {k : Key} {r : Row} :
    (k, r) ∈ versions e t changes ↔ ∃ c ∈ changes, delivered e t c = some r ∧ r.key = k := by
  simp only [versions, List.mem_filterMap, Option.map_eq_some_iff, Prod.mk.injEq]
  constructor
  · rintro ⟨c, listed, _, found, same, rfl⟩
    exact ⟨c, listed, found, same⟩
  · rintro ⟨c, listed, found, same⟩
    exact ⟨c, listed, r, found, same, rfl⟩

/-- The table holds what the original one held after it was offered these changes; rows without an
id are left alone. -/
structure Merged (e : Engine) (t₀ : Table) (changes : List SyncChange) (t : Table) : Prop where
  schema : t.schema = t₀.schema
  rows : ∀ r ∈ t.rows, ∃ s, r.cell "updated_at" = .text s
  known : ∀ k, k ≠ .null → t.store k = offers Row.date t₀.store (versions e t₀ changes) k
  unknown : ∀ r : Row, r.cell "id" = .null → (r ∈ t.rows ↔ r ∈ t₀.rows)

theorem Merged.none {e : Engine} {t : Table} (table : MergeTable t) : Merged e t [] t where
  schema := rfl
  rows := table.rows
  known _ _ := rfl
  unknown _ _ := Iff.rfl

theorem Merged.same {e : Engine} {t₀ t : Table} {changes : List SyncChange} {c : SyncChange}
    (h : Merged e t₀ changes t)
    (keeps : ∀ k, k ≠ .null → offers Row.date t₀.store (versions e t₀ (changes ++ [c])) k =
      offers Row.date t₀.store (versions e t₀ changes) k) : Merged e t₀ (changes ++ [c]) t :=
  { h with known := fun k known => (h.known k known).trans (keeps k known).symm }

theorem versions_snoc {e : Engine} {t : Table} {changes : List SyncChange} {c : SyncChange} {r : Row}
    (found : delivered e t c = some r) (m : Key → Option Row) :
    offers Row.date m (versions e t (changes ++ [c])) =
      offer Row.date (offers Row.date m (versions e t changes)) r.key r := by
  rw [versions, List.filterMap_append, offers, List.foldl_append]
  simp [found, offers, versions]

theorem Merged.put {e : Engine} {t₀ t : Table} {changes : List SyncChange} {c : SyncChange} {r : Row}
    {shape : r.names = t.schema.names} {fits : t.schema.accepts r = true} (table : MergeTable t₀)
    (h : Merged e t₀ changes t) (found : delivered e t₀ c = some r) (id : r.cell "id" ≠ .null)
    (dated : ∃ s, r.cell "updated_at" = .text s) (wins : merge Row.date (t.store r.key) (some r) = some r) :
    Merged e t₀ (changes ++ [c]) (t.put r shape fits) where
  schema := h.schema
  rows s member := by
    rcases Table.mem_put.mp member with ⟨old, _⟩ | rfl
    · exact h.rows s old
    · exact dated
  known k known := by
    rw [Table.store_put_known (by rw [h.schema, table.only_id]) (by rw [h.schema, table.binary]) id known,
      versions_snoc found]
    by_cases here : k = r.key
    · subst k
      rw [Function.update_self, offer_same, ← h.known _ known, wins]
    · rw [Function.update_of_ne here, offer_other _ here, h.known k known]
  unknown s null := by
    rw [Table.mem_put, ← h.unknown s null]
    constructor
    · rintro (⟨old, _⟩ | rfl)
      · exact old
      · exact absurd null id
    · refine fun old => .inl ⟨old, ?_⟩
      by_contra clash
      have key : s.key = r.key :=
        Table.key_of_conflict (h.schema ▸ table.only_id) (h.schema ▸ table.binary) (by simpa using clash)
      exact id (SqlValue.key_eq_null.mp (key.symm.trans (SqlValue.key_eq_null.mpr null)))

/-- One change: a delivered row is stored if no row of its id is as new, anything else is rejected. -/
theorem applyChange_merges {e : Engine} {f : Faults} {name : String} {t₀ t : Table} {db : Database}
    {changes : List SyncChange} {c : SyncChange} (calm : f.Calm) (synced : name ∈ syncTables) (table : MergeTable t₀)
    (deliverable : Deliverable name t₀.schema c) (present : db.tables name = some t) (h : Merged e t₀ changes t) :
    ∃ t', (applyChange e f db c).1.tables name = some t' ∧ Merged e t₀ (changes ++ [c]) t' := by
  have schema : KeyedSchema t.schema := h.schema ▸ table.toKeyedSchema
  have congr : delivered e t c = delivered e t₀ c := delivered_congr h.schema deliverable.regular
  cases found : delivered e t₀ c with
  | none =>
    have rejected : ¬∃ u entries, Stores e f db c u entries := by
      rintro ⟨u, entries, stores⟩
      obtain rfl : t = u := Option.some.inj (present.symm.trans (deliverable.table ▸ stores.admitted.table))
      rw [← congr, stores.delivered (h.schema ▸ deliverable.computed _ stores.admitted.data)] at found
      cases found
    rw [applyChange_rejects rejected]
    refine ⟨t, present, h.same fun k _ => ?_⟩
    rw [versions, List.filterMap_append]
    simp [found, versions]
  | some r =>
    have here := congr.trans found
    obtain ⟨⟨v, param, operand⟩, id, dated, remote⟩ := deliverable.row schema here
    obtain ⟨entries, data, safe, fits, rfl⟩ := delivered_some here
    have dated_column : "updated_at" ∈ t.schema.names := by
      obtain ⟨c, column, name, _⟩ := schema.dated
      exact name ▸ List.mem_map_of_mem column
    have id_column : "id" ∈ t.schema.names := by
      obtain ⟨c, column, name, _⟩ := schema.id
      exact name ▸ List.mem_map_of_mem column
    have check : readLocal e f db c = (t.store (incomingRow e [] t entries).key).bind Row.updatedAt := by
      rw [← Table.find_eq_store schema.binary id, operand, readLocal, calm.select]
      simp only [Bool.false_eq_true, if_false, localUpdatedAt, deliverable.table, present, Option.bind_some,
        Schema.resolve_of_mem dated_column, if_pos id_column, param]
      rfl
    have rows : ∀ l, t.store (incomingRow e [] t entries).key = some l → ∃ s, l.cell "updated_at" = .text s :=
      fun l held => h.rows l (Table.store_some held).1
    rcases stale_or_wins (incomingRow e [] t entries) rows with ⟨stale, keeps⟩ | ⟨fresh, wins⟩
    · rw [← remote entries data, ← check] at stale
      have refused : ¬∃ u entries, Stores e f db c u entries := not_stores_of_stale data stale
      rw [applyChange_rejects refused]
      refine ⟨t, present, h.same fun k known => ?_⟩
      rw [versions_snoc found]
      by_cases here : k = (incomingRow e [] t entries).key
      · subst k
        rw [offer_same, ← h.known _ known, keeps]
      · rw [offer_other _ here]
    · rw [← remote entries data, ← check] at fresh
      have row : incomingRow e f.defaults t entries = incomingRow e [] t entries :=
        incomingRow_computed (h.schema ▸ deliverable.computed entries data) ..
      have stores : Stores e f db c t entries :=
        ⟨deliverable.admitted schema synced present data safe, calm.tableInfo, fresh, calm.insert, row ▸ fits⟩
      rw [applyChange_stores stores, deliverable.table]
      rw [← row] at found id dated wins
      exact ⟨_, Database.setTable_tables_same .., h.put table found id dated wins⟩

theorem applyChangesInner_merges {e : Engine} {fs : List Faults} {name : String} {t₀ t : Table} {db : Database}
    {before changes : List SyncChange} {report : ApplyReport} (calm : ∀ f ∈ fs, f.Calm) (synced : name ∈ syncTables)
    (table : MergeTable t₀) (deliverable : ∀ c ∈ changes, Deliverable name t₀.schema c)
    (present : db.tables name = some t) (h : Merged e t₀ before t) :
    ∃ t', (applyChangesInner e fs db changes report).1.tables name = some t' ∧ Merged e t₀ (before ++ changes) t' := by
  induction changes generalizing fs db before t report with
  | nil => exact ⟨t, present, by rwa [List.append_nil]⟩
  | cons c rest ih =>
    obtain ⟨u, present', merged⟩ :=
      applyChange_merges (Faults.calm_headD calm) synced table (deliverable c List.mem_cons_self) present h
    obtain ⟨t', final, merged'⟩ := ih (Faults.calm_tail calm)
      (fun d later => deliverable d (List.mem_cons_of_mem _ later)) present' merged
    rw [List.append_assoc] at merged'
    exact ⟨t', final, merged'⟩

theorem applyBatches_merges {e : Engine} {name : String} {t₀ t : Table} {db : Database} {before : List SyncChange}
    {batches : List (ApplyFaults × List SyncChange)} (calm : ∀ batch ∈ batches, batch.1.Calm)
    (synced : name ∈ syncTables) (table : MergeTable t₀)
    (deliverable : ∀ c ∈ batches.flatMap (·.2), Deliverable name t₀.schema c) (present : db.tables name = some t)
    (h : Merged e t₀ before t) :
    ∃ t', (applyBatches e db batches).tables name = some t' ∧ Merged e t₀ (before ++ batches.flatMap (·.2)) t' := by
  induction batches generalizing db before t with
  | nil => exact ⟨t, present, by rwa [List.flatMap_nil, List.append_nil]⟩
  | cons batch rest ih =>
    have first : ∃ u, (applyChanges e batch.1 db batch.2).1.tables name = some u ∧
        Merged e t₀ (before ++ batch.2) u := by
      have calm_batch := calm batch List.mem_cons_self
      rw [applyChanges_calm e calm_batch]
      exact applyChangesInner_merges calm_batch.changes synced table
        (fun c listed => deliverable c (List.mem_append_left _ listed)) present h
    obtain ⟨u, present', merged⟩ := first
    obtain ⟨t', final, merged'⟩ := ih (fun later listed => calm later (List.mem_cons_of_mem _ listed))
      (fun c listed => deliverable c (List.mem_append_right _ listed)) present' merged
    rw [List.append_assoc] at merged'
    exact ⟨t', final, merged'⟩

/-! ### The newest version of each id -/

/-- A row a table holds in the end: a local or a delivered one, newer than any other local row of its
id and no older than any delivered one. -/
structure Wins (e : Engine) (t : Table) (collection : List SyncChange) (r : Row) : Prop where
  version : r ∈ t.rows ∨ ∃ c ∈ collection, delivered e t c = some r
  local_older : ∀ l ∈ t.rows, (l.cell "id").same (r.cell "id") = true → l = r ∨ l.date < r.date
  newest : ∀ c ∈ collection, ∀ d, delivered e t c = some d → (d.cell "id").same (r.cell "id") = true → d.date ≤ r.date

/-- Delivered versions of one id with equal timestamps are the same row. -/
def SameVersions (e : Engine) (t : Table) (collection : List SyncChange) : Prop :=
  ∀ c ∈ collection, ∀ c' ∈ collection, ∀ r r', delivered e t c = some r → delivered e t c' = some r' →
    r.key = r'.key → r.date = r'.date → r = r'

theorem SameVersions.consistent {e : Engine} {t : Table} {collection changes : List SyncChange}
    (h : SameVersions e t collection) (listed : ∀ c ∈ changes, c ∈ collection) :
    Consistent Row.date (versions e t changes) := by
  intro k r r' first second same
  obtain ⟨c, member, found, rfl⟩ := mem_versions.mp first
  obtain ⟨c', member', found', key⟩ := mem_versions.mp second
  exact h c (listed c member) c' (listed c' member') r r' found found' key.symm same

theorem newest_iff_wins {e : Engine} {t : Table} {collection changes : List SyncChange} {r : Row}
    (members : ∀ c, c ∈ changes ↔ c ∈ collection) (id : r.cell "id" ≠ .null) :
    Newest Row.date (t.store r.key) (fun w => (r.key, w) ∈ versions e t changes) r ↔ Wins e t collection r := by
  have known : r.key ≠ .null := mt SqlValue.key_eq_null.mp id
  constructor
  · rintro ⟨source, newer, rest⟩
    refine ⟨source.imp (fun held => (Table.store_some held).1) fun offered => ?_, fun l member same => ?_, ?_⟩
    · obtain ⟨c, listed, found, _⟩ := mem_versions.mp offered
      exact ⟨c, (members c).mp listed, found⟩
    · exact newer l ((Table.store_iff_known known).mpr ⟨member, (Row.same_id_iff id).mp same⟩)
    · intro c listed d found same
      exact rest d (mem_versions.mpr ⟨c, (members c).mpr listed, found, (Row.same_id_iff id).mp same⟩)
  · rintro ⟨source, newer, rest⟩
    refine ⟨source.imp (fun member => (Table.store_iff_known known).mpr ⟨member, rfl⟩) ?_, fun l held => ?_, ?_⟩
    · rintro ⟨c, listed, found⟩
      exact mem_versions.mpr ⟨c, (members c).mpr listed, found, rfl⟩
    · obtain ⟨member, same⟩ := Table.store_some held
      exact newer l member ((Row.same_id_iff id).mpr same)
    · intro d offered
      obtain ⟨c, listed, found, same⟩ := mem_versions.mp offered
      exact rest c ((members c).mp listed) d found ((Row.same_id_iff id).mpr same)

/-- However a collection of changes is ordered, cut into batches and repeated, the rows of the table
in the end are the same: for each id the newest of the local and the delivered versions. -/
theorem applyBatches_newest {e : Engine} {name : String} {t : Table} {db : Database} {collection : List SyncChange}
    {batches : List (ApplyFaults × List SyncChange)} (calm : ∀ batch ∈ batches, batch.1.Calm)
    (synced : name ∈ syncTables) (present : db.tables name = some t) (table : MergeTable t)
    (deliverable : ∀ c ∈ collection, Deliverable name t.schema c) (same : SameVersions e t collection)
    (schedule : ∀ c, c ∈ batches.flatMap (·.2) ↔ c ∈ collection) :
    ∃ t', (applyBatches e db batches).tables name = some t' ∧ (∀ r, r ∈ t'.rows ↔ Wins e t collection r) ∧
      ∀ v, (v ∈ t.rows ∧ v.cell "id" ≠ .null ∨ ∃ c ∈ collection, delivered e t c = some v) →
        ∃ r ∈ t'.rows, (v.cell "id").same (r.cell "id") = true ∧ v.date ≤ r.date := by
  have listed : ∀ c ∈ batches.flatMap (·.2), c ∈ collection := fun c member => (schedule c).mp member
  obtain ⟨t', final, merged⟩ := applyBatches_merges calm synced table
    (fun c member => deliverable c (listed c member)) present (Merged.none table)
  rw [List.nil_append] at merged
  refine ⟨t', final, fun r => ?_, fun v source => ?_⟩
  · by_cases null : r.cell "id" = .null
    · rw [merged.unknown r null]
      constructor
      · intro member
        refine ⟨.inl member, fun l _ same => ?_, fun c _ d _ same => ?_⟩ <;>
          exact absurd null (SqlValue.same_iff.mp (SqlValue.same_symm same)).1
      · rintro ⟨member | ⟨c, member, found⟩, _, _⟩
        · exact member
        · exact absurd null ((deliverable c member).row table.toKeyedSchema found).2.1
    · have known : r.key ≠ .null := mt SqlValue.key_eq_null.mp null
      rw [← newest_iff_wins schedule null, ← offers_eq_some_iff (same.consistent listed), ← merged.known _ known,
        Table.store_iff_known known]
      exact (and_iff_left rfl).symm
  · have id : v.cell "id" ≠ .null := by
      rcases source with ⟨_, id⟩ | ⟨c, member, found⟩
      · exact id
      · exact ((deliverable c member).row table.toKeyedSchema found).2.1
    have known : v.key ≠ .null := mt SqlValue.key_eq_null.mp id
    have offered : t.store v.key = some v ∨ (v.key, v) ∈ versions e t (batches.flatMap (·.2)) := by
      refine source.imp (fun held => (Table.store_iff_known known).mpr ⟨held.1, rfl⟩) ?_
      rintro ⟨c, member, found⟩
      exact mem_versions.mpr ⟨c, (schedule c).mpr member, found, rfl⟩
    obtain ⟨r, ends, newer⟩ : ∃ r, offers Row.date t.store (versions e t (batches.flatMap (·.2))) v.key = some r ∧
        v.date ≤ r.date := offers_covers offered
    rw [← merged.known _ known] at ends
    obtain ⟨member, key⟩ := Table.store_some ends
    exact ⟨r, member, (Row.key_eq_iff id).mp key.symm, newer⟩

theorem planChange_deliverable (id : Int64) (name updatedAt : String) :
    Deliverable "plans" plansSchema (planChange id id name updatedAt) where
  table := rfl
  regular := planChange_regular id name updatedAt
  param := by
    rw [planChange, pkParam, Number.asI64_ofInt64]
    rfl
  computed _ _ c column dflt := by
    have constant : ∀ c ∈ plansSchema.columns, c.dflt = .value .null := by simp [plansSchema]
    rw [constant c column] at dflt
    cases dflt

def eightPlan : Table := plansTable [(1, "eight", "2026-04-21 08:00:00")] (by decide)

theorem eightPlan_merge : MergeTable eightPlan where
  toKeyedSchema := plansSchema_stamped.keyed
  only_id := rfl
  rows r member := by
    obtain rfl := List.mem_singleton.mp member
    exact ⟨_, rfl⟩

def nineAndTen : List SyncChange :=
  [planChange 1 1 "b" "2026-04-21T09:00:00", planChange 1 1 "c" "2026-04-21 10:00:00"]

theorem nineAndTen_newest :
    ∃ t', (applyBatches sampleEngine (plansDb eightPlan)
        [({}, nineAndTen.reverse), ({}, []), ({}, nineAndTen.take 1)]).tables "plans" = some t' ∧
      (∀ r, r ∈ t'.rows ↔ Wins sampleEngine eightPlan nineAndTen r) ∧
      ∀ v, (v ∈ eightPlan.rows ∧ v.cell "id" ≠ .null ∨ ∃ c ∈ nineAndTen, delivered sampleEngine eightPlan c = some v) →
        ∃ r ∈ t'.rows, (v.cell "id").same (r.cell "id") = true ∧ v.date ≤ r.date := by
  have present : (plansDb eightPlan).tables "plans" = some eightPlan := rfl
  refine applyBatches_newest ?_ (by decide) present eightPlan_merge (fun c listed => ?_) ?_ fun c => ?_
  · simp [ApplyFaults.calm_none]
  · rcases List.mem_pair.mp listed with rfl | rfl <;> exact planChange_deliverable ..
  · intro c listed c' listed' r r' found found' _ date
    have rows : ∀ c ∈ nineAndTen, ∀ r, delivered sampleEngine eightPlan c = some r →
        r = plan 1 "b" "2026-04-21T09:00:00" ∨ r = plan 1 "c" "2026-04-21 10:00:00" := by
      intro c listed r found
      rcases List.mem_pair.mp listed with rfl | rfl
      · exact .inl (Option.some.inj (found.symm.trans (by decide)))
      · exact .inr (Option.some.inj (found.symm.trans (by decide)))
    rcases rows c listed r found with rfl | rfl <;> rcases rows c' listed' r' found' with rfl | rfl <;>
      first | rfl | exact absurd date (by decide)
  · simp [nineAndTen]
    tauto

/-- Whatever the schedule and the defaults computed under way, the same rows, and for each change a row
that its `pk` names and that is no older. -/
def MergesToNewest (e : Engine) (db : Database) (name : String) (collection : List SyncChange) : Prop :=
  ∃ rows : List Row, ∀ batches : List (ApplyFaults × List SyncChange), (∀ batch ∈ batches, batch.1.Calm) →
    (∀ c, c ∈ batches.flatMap (·.2) ↔ c ∈ collection) →
      ∃ t', (applyBatches e db batches).tables name = some t' ∧ (∀ r, r ∈ t'.rows ↔ r ∈ rows) ∧
        ∀ c ∈ collection, ∃ r ∈ t'.rows, named e t' c.pk r = true ∧ ∀ u, c.date = some u → u ≤ r.date

/-- A `plans` table with another affinity of the id. -/
def idSchema (a : Affinity) : Schema where
  columns := [{ name := "id", affinity := a }, { name := "name", affinity := .text },
    { name := "updated_at", affinity := .text, notNull := true }]
  rowid := false
  distinct := by cases a <;> decide
  id_spelled := by cases a <;> decide
  rowid_integer := nofun

def idDb (a : Affinity) : Database := plansDb ⟨idSchema a, [], 0, by simp, by simp, by simp⟩

def keyedPlan (pk : Json) (name updatedAt : String) : SyncChange :=
  ⟨"plans", pk, .object [("id", pk), ("name", .string name), ("updated_at", .string updatedAt)]⟩

def keyedRow (id name updatedAt : String) : Row :=
  [("id", .text id), ("name", .text name), ("updated_at", .text updatedAt)]

/-- A `plans` table whose rows note when they were inserted. -/
def clockSchema : Schema where
  columns := [{ name := "id", affinity := .integer }, { name := "updated_at", affinity := .text, notNull := true },
    { name := "noted_at", affinity := .text, dflt := .expression }]
  rowid := true
  distinct := by decide
  id_spelled := by decide
  rowid_integer := by decide

def clockDb : Database := plansDb ⟨clockSchema, [], 0, by simp, by simp, by simp⟩

def noted (time : String) : ApplyFaults := { changes := [{ defaults := [("noted_at", .text time)] }] }

def clockRow (time : String) : Row :=
  [("id", .integer 1), ("updated_at", .text "2026-04-21 10:00:00"), ("noted_at", .text time)]

theorem noted_calm (time : String) : (noted time).Calm where
  pragmaOff := rfl
  pragmaOn := rfl
  changes f listed := by
    obtain rfl := List.mem_singleton.mp listed
    exact ⟨rfl, rfl, rfl⟩

theorem not_merges_of_differing {e : Engine} {db : Database} {collection : List SyncChange} {r s : Row}
    {batches batches' : List (ApplyFaults × List SyncChange)} (calm : ∀ batch ∈ batches, batch.1.Calm)
    (calm' : ∀ batch ∈ batches', batch.1.Calm) (all : ∀ c, c ∈ batches.flatMap (·.2) ↔ c ∈ collection)
    (all' : ∀ c, c ∈ batches'.flatMap (·.2) ↔ c ∈ collection)
    (first : ((applyBatches e db batches).tables "plans").map (·.rows) = some [r])
    (second : ((applyBatches e db batches').tables "plans").map (·.rows) = some [s]) (different : r ≠ s) :
    ¬MergesToNewest e db "plans" collection := by
  rintro ⟨rows, merges⟩
  obtain ⟨t, present, same, _⟩ := merges batches calm all
  obtain ⟨t', present', same', _⟩ := merges batches' calm' all'
  rw [present] at first
  rw [present'] at second
  have only : t.rows = [r] := Option.some.inj first
  have only' : t'.rows = [s] := Option.some.inj second
  have held : r ∈ t'.rows := (same' r).mpr ((same r).mp (by rw [only]; exact List.mem_cons_self))
  rw [only'] at held
  exact different (List.mem_singleton.mp held)

theorem not_merges_of_order {e : Engine} {db : Database} {c c' : SyncChange} {r s : Row}
    (first : ((applyBatches e db [({}, [c, c'])]).tables "plans").map (·.rows) = some [r])
    (second : ((applyBatches e db [({}, [c', c])]).tables "plans").map (·.rows) = some [s]) (different : r ≠ s) :
    ¬MergesToNewest e db "plans" [c, c'] :=
  not_merges_of_differing (by simp [ApplyFaults.calm_none]) (by simp [ApplyFaults.calm_none]) (by simp)
    (by simp [or_comm]) first second different

theorem not_merges_of_rejected {e : Engine} {db : Database} {c : SyncChange}
    (empty : ((applyBatches e db [({}, [c])]).tables "plans").map (·.rows) = some []) :
    ¬MergesToNewest e db "plans" [c] := by
  rintro ⟨rows, merges⟩
  obtain ⟨t, present, _, held⟩ := merges [({}, [c])] (by simp [ApplyFaults.calm_none]) (by simp)
  obtain ⟨r, member, _⟩ := held c List.mem_cons_self
  rw [present] at empty
  rw [show t.rows = [] from Option.some.inj empty] at member
  cases member

/-- The order decides with an untyped id, and between the ids 1 and "1" of a TEXT column; a row with
an unsafe column name, or with a text for an INTEGER PRIMARY KEY, is never held; and a column that the
change leaves to `datetime('now')` depends on the time of the call. -/
theorem delivery_order_matters :
    ¬MergesToNewest sampleEngine (idDb .blob) "plans"
        [keyedPlan (.number (.posInt 1)) "new" "2026-04-21 10:00:00",
          keyedPlan (.number (.posInt 1)) "old" "2026-04-21 09:00:00"] ∧
      ¬MergesToNewest sampleEngine (idDb .text) "plans"
        [keyedPlan (.number (.posInt 1)) "a" "2026-04-21 10:00:00",
          keyedPlan (.string "1") "b" "2026-04-21 10:00:00"] ∧
      ¬MergesToNewest sampleEngine (spacedDb false) "plans" [toChange "plans" spacedRow] ∧
      ¬MergesToNewest sampleEngine (plansDb noPlans) "plans"
        [keyedPlan (.string "abc") "a" "2026-04-21 10:00:00"] ∧
      ¬MergesToNewest sampleEngine clockDb "plans" [planChange 1 1 "a" "2026-04-21 10:00:00"] := by
  refine ⟨?_, ?_, not_merges_of_rejected rfl, not_merges_of_rejected rfl, ?_⟩
  · exact not_merges_of_order (r := keyedRow "1" "old" "2026-04-21 09:00:00")
      (s := keyedRow "1" "new" "2026-04-21 10:00:00") (by decide) (by decide) (by decide)
  · exact not_merges_of_order (r := keyedRow "1" "a" "2026-04-21 10:00:00")
      (s := keyedRow "1" "b" "2026-04-21 10:00:00") (by decide) (by decide) (by decide)
  · have first : ((applyBatches sampleEngine clockDb
        [(noted "2026-04-21 10:00:01", [planChange 1 1 "a" "2026-04-21 10:00:00"])]).tables "plans").map (·.rows) =
        some [clockRow "2026-04-21 10:00:01"] := by decide
    have second : ((applyBatches sampleEngine clockDb
        [(noted "2026-04-21 10:00:02", [planChange 1 1 "a" "2026-04-21 10:00:00"])]).tables "plans").map (·.rows) =
        some [clockRow "2026-04-21 10:00:02"] := by decide
    exact not_merges_of_differing (by simp [noted_calm]) (by simp [noted_calm]) (by simp) (by simp) first second
      (by decide)

end ConvergioMesh
