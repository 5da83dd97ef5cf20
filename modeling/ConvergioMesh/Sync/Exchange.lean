import ConvergioMesh.Library.LastWriter
import ConvergioMesh.Sync.Replicate

/-!
# Full exchange between two nodes

Applying a full export to a table whose only key is the id offers each row to a last-writer-wins
replica.
-/

namespace ConvergioMesh

open Library

/-- The row a table holds for each id. -/
def Table.store (t : Table) (k : Key) : Option Row := t.rows.find? fun r => r.key = k

theorem Table.store_some {t : Table} {k : Key} {r : Row} (h : t.store k = some r) : r ∈ t.rows ∧ r.key = k := by
  have matched := List.find?_some h
  exact ⟨List.mem_of_find?_eq_some h, by simpa using matched⟩

theorem Table.store_eq {t : Table} {r : Row} (member : r ∈ t.rows) (id : r.cell "id" ≠ .null) :
    t.store r.key = some r := by
  cases found : t.store r.key with
  | none =>
    have different := List.find?_eq_none.mp found r member
    simp at different
  | some s =>
    obtain ⟨held, same⟩ := store_some found
    rw [t.eq_of_id member held (Schema.same_of_key id same.symm)]

theorem Table.store_iff_known {t : Table} {k : Key} (known : k ≠ .null) {r : Row} :
    t.store k = some r ↔ r ∈ t.rows ∧ r.key = k := by
  refine ⟨store_some, ?_⟩
  rintro ⟨member, rfl⟩
  exact store_eq member (mt SqlValue.key_eq_null.mpr known)

theorem Table.store_null {t : Table} (ids : ∀ r ∈ t.rows, r.cell "id" ≠ .null) : t.store .null = none := by
  cases found : t.store .null with
  | none => rfl
  | some r =>
    obtain ⟨member, null⟩ := store_some found
    exact absurd (SqlValue.key_eq_null.mp null) (ids r member)

theorem Table.store_iff {t : Table} (ids : ∀ r ∈ t.rows, r.cell "id" ≠ .null) {k : Key} {r : Row} :
    t.store k = some r ↔ r ∈ t.rows ∧ r.key = k := by
  refine ⟨store_some, ?_⟩
  rintro ⟨member, rfl⟩
  exact store_eq member (ids r member)

theorem Table.store_put_known {t : Table} {r : Row} {shape : r.names = t.schema.names}
    {fits : t.schema.accepts r = true} (only_id : t.schema.uniques = [])
    (binary : t.schema.collation "id" = .binary) (id : r.cell "id" ≠ .null) {k : Key} (known : k ≠ .null) :
    (t.put r shape fits).store k = Function.update t.store r.key (some r) k := by
  apply Option.ext
  intro s
  rw [store_iff_known known, mem_put]
  by_cases here : k = r.key
  · subst k
    rw [Function.update_self, Option.some_inj]
    constructor
    · rintro ⟨⟨_, apart⟩ | rfl, same⟩
      · rw [(conflict_iff_key only_id binary id).mpr same.symm] at apart
        cases apart
      · rfl
    · rintro rfl
      exact ⟨.inr rfl, rfl⟩
  · rw [Function.update_of_ne here, store_iff_known known]
    constructor
    · rintro ⟨⟨old, _⟩ | rfl, rfl⟩
      · exact ⟨old, rfl⟩
      · exact absurd rfl here
    · rintro ⟨old, rfl⟩
      refine ⟨.inl ⟨old, ?_⟩, rfl⟩
      by_contra clash
      exact here (key_of_conflict only_id binary (by simpa using clash))

theorem Table.store_put {t : Table} {r : Row} {shape : r.names = t.schema.names}
    {fits : t.schema.accepts r = true} (only_id : t.schema.uniques = [])
    (binary : t.schema.collation "id" = .binary) (ids : ∀ s ∈ t.rows, s.cell "id" ≠ .null) (id : r.cell "id" ≠ .null) :
    (t.put r shape fits).store = Function.update t.store r.key (some r) := by
  have ids' : ∀ s ∈ (t.put r shape fits).rows, s.cell "id" ≠ .null := by
    intro s member
    rcases mem_put.mp member with ⟨old, _⟩ | rfl
    · exact ids s old
    · exact id
  funext k
  by_cases null : k = .null
  · have other : k ≠ r.key := fun same => id (SqlValue.key_eq_null.mp (same.symm.trans null))
    rw [Function.update_of_ne other, null, store_null ids', store_null ids]
  · exact store_put_known only_id binary id null

theorem Table.find_eq_store {t : Table} {r : Row} (binary : t.schema.collation "id" = .binary)
    (id : r.cell "id" ≠ .null) : t.find (r.cell "id") = t.store r.key := by
  have same : (fun s : Row => t.schema.same "id" (s.cell "id") (r.cell "id")) = fun s => decide (s.key = r.key) := by
    funext s
    rw [Schema.same_of_binary binary, Bool.eq_iff_iff, decide_eq_true_iff, Row.same_id_iff id]
  rw [find, store, same]

structure Versioned (e : Engine) (sch : Schema) (r : Row) : Prop extends Replicable e sch r where
  dated : ∃ s, r.cell "updated_at" = .text s

namespace Versioned

variable {e : Engine} {sch : Schema} {r l : Row}

theorem stamp (h : Versioned e sch r) : r.stamp = some r.date := by
  obtain ⟨s, cell⟩ := h.dated
  rw [Row.date, Row.stamp_of_cell cell]
  rfl

theorem updatedAt (h : Versioned e sch r) : ∃ s, r.updatedAt = some s ∧ r.date = replaceT s := by
  obtain ⟨s, cell⟩ := h.dated
  refine ⟨s, by rw [Row.updatedAt, Row.textAt, cell], ?_⟩
  rw [Row.date, Row.stamp_of_cell cell]
  rfl

theorem column (h : Versioned e sch r) : "updated_at" ∈ sch.names := by
  obtain ⟨s, cell⟩ := h.dated
  rw [← h.shape]
  by_contra absent
  rw [Row.cell_of_not_mem absent] at cell
  cases cell

theorem remote (h : Versioned e sch r) : remoteUpdatedAt (entriesOf r) = some r.date := by
  obtain ⟨s, cell⟩ := h.dated
  rw [remoteUpdatedAt_entriesOf (by simp [cell]), h.stamp]

end Versioned

/-- The timestamp comparison keeps the held row exactly where the merge does. -/
theorem stale_or_wins {held : Option Row} (r : Row)
    (dated : ∀ l, held = some l → ∃ s, l.cell "updated_at" = .text s) :
    isStale (some r.date) (held.bind Row.updatedAt) = true ∧ merge Row.date held (some r) = held ∨
      isStale (some r.date) (held.bind Row.updatedAt) = false ∧ merge Row.date held (some r) = some r := by
  cases held with
  | none => exact .inr ⟨rfl, none_merge _⟩
  | some l =>
    obtain ⟨raw, cell⟩ := dated l rfl
    have text : l.updatedAt = some raw := by rw [Row.updatedAt, Row.textAt, cell]
    have date : l.date = replaceT raw := by rw [Row.date, Row.stamp_of_cell cell]; rfl
    rw [Option.bind_some, text, merge_some, date]
    by_cases older : r.date ≤ replaceT raw
    · exact .inl ⟨by simp [isStale, older], if_pos older⟩
    · exact .inr ⟨by simp [isStale, older], if_neg older⟩

/-- The table holds these versions, all of them replicable. -/
def HoldsVersions (e : Engine) (sch : Schema) (db : Database) (name : String) (m : Key → Option Row) : Prop :=
  ∃ t, db.tables name = some t ∧ t.schema = sch ∧ (∀ r ∈ t.rows, Versioned e sch r) ∧ t.store = m

theorem applyChange_offers {e : Engine} {f : Faults} {sch : Schema} {db : Database} {name : String}
    {m : Key → Option Row} {r : Row} (calm : f.Calm) (synced : name ∈ syncTables) (only_id : sch.uniques = [])
    (binary : sch.collation "id" = .binary) (good : Versioned e sch r) (h : HoldsVersions e sch db name m) :
    HoldsVersions e sch (applyChange e f db (toChange name r)).1 name (offer Row.date m r.key r) := by
  obtain ⟨t, present, rfl, kept, rfl⟩ := h
  have ids : ∀ s ∈ t.rows, s.cell "id" ≠ .null := fun s member => (kept s member).id.ne_null
  have id := good.id.ne_null
  have check : localUpdatedAt e db name (toChange name r).pk = (t.store r.key).bind Row.updatedAt := by
    rw [good.localUpdatedAt present, Schema.resolve_of_mem good.column, Option.bind_some, Table.find_eq_store binary id]
    rfl
  have read : readLocal e f db (toChange name r) = (t.store r.key).bind Row.updatedAt := by
    rw [readLocal, calm.select]
    exact check
  have dated : ∀ l, t.store r.key = some l → ∃ s, l.cell "updated_at" = .text s := fun l held =>
    (kept l (Table.store_some held).1).dated
  rcases stale_or_wins r dated with ⟨stale, keeps⟩ | ⟨fresh, wins⟩
  · rw [← good.remote, ← read] at stale
    have refused : ¬∃ u entries, Stores e f db (toChange name r) u entries :=
      not_stores_of_stale (toChange_data name r) stale
    rw [applyChange_rejects refused]
    refine ⟨t, present, rfl, kept, ?_⟩
    rw [offer, keeps, Function.update_eq_self]
  · rw [← good.remote, ← check] at fresh
    have stores := good.stores calm synced present fresh
    rw [applyChange_stores stores]
    refine ⟨stores.result, by simp [toChange], rfl, fun s member => ?_, ?_⟩
    · rcases stores.mem_result.mp member with ⟨old, _⟩ | rfl
      · exact kept s old
      · rw [good.incoming]
        exact good
    · have stored : stores.result.store =
          Function.update t.store (incomingRow e f.defaults t (entriesOf r)).key
            (some (incomingRow e f.defaults t (entriesOf r))) :=
        Table.store_put only_id binary ids (by rw [good.incoming]; exact id)
      rw [stored, good.incoming, offer, wins]

theorem applyChangesInner_offers {e : Engine} {fs : List Faults} {sch : Schema} {db : Database} {name : String}
    {m : Key → Option Row} {rows : List Row} {report : ApplyReport} (calm : ∀ f ∈ fs, f.Calm)
    (synced : name ∈ syncTables) (only_id : sch.uniques = []) (binary : sch.collation "id" = .binary)
    (good : ∀ r ∈ rows, Versioned e sch r) (h : HoldsVersions e sch db name m) :
    HoldsVersions e sch (applyChangesInner e fs db (rows.map (toChange name)) report).1 name
      (offers Row.date m (rows.map fun r => (r.key, r))) := by
  induction rows generalizing fs db m report with
  | nil => exact h
  | cons r rest ih =>
    have first := applyChange_offers (Faults.calm_headD calm) synced only_id binary (good r List.mem_cons_self) h
    exact ih (Faults.calm_tail calm) (fun s member => good s (List.mem_cons_of_mem _ member)) first

theorem lists_of_perm {t : Table} {rows : List Row} (perm : rows.Perm t.rows)
    (ids : ∀ r ∈ t.rows, r.cell "id" ≠ .null) : Library.Lists (rows.map fun r => (r.key, r)) t.store where
  distinct := by
    rw [List.map_map]
    refine ((perm.map _).nodup_iff).mpr (List.pairwise_map.mpr (t.distinct.imp_of_mem ?_))
    intro r s member _ apart same
    rw [Table.conflict_of_id (Schema.same_of_key (ids r member) same)] at apart
    cases apart
  mem_iff k r := by
    rw [Table.store_iff ids, List.mem_map]
    constructor
    · rintro ⟨s, listed, pair⟩
      obtain ⟨rfl, rfl⟩ := Prod.mk.inj pair
      exact ⟨perm.mem_iff.mp listed, rfl⟩
    · rintro ⟨member, rfl⟩
      exact ⟨r, perm.mem_iff.mpr member, rfl⟩

theorem apply_export_merges {e : Engine} {f : ApplyFaults} {sch : Schema} {src dst : Database} {name : String}
    {m n : Key → Option Row} {changes : List SyncChange} (calm : f.Calm) (synced : name ∈ syncTables)
    (only_id : sch.uniques = []) (binary : sch.collation "id" = .binary) (source : HoldsVersions e sch src name n)
    (target : HoldsVersions e sch dst name m) (exported : exportChangesSince e src name none = .ok changes) :
    HoldsVersions e sch (applyChanges e f dst changes).1 name fun k => merge Row.date (m k) (n k) := by
  obtain ⟨t, present, rfl, kept, rfl⟩ := source
  obtain ⟨rows, perm, rfl⟩ := export_none present exported
  rw [applyChanges_calm e calm]
  have ids : ∀ s ∈ t.rows, s.cell "id" ≠ .null := fun s member => (kept s member).id.ne_null
  have merged : HoldsVersions e t.schema (applyChangesInner e f.changes dst (rows.map (toChange name)) {}).1 name
      (offers Row.date m (rows.map fun r => (r.key, r))) :=
    applyChangesInner_offers calm.changes synced only_id binary (fun r listed => kept r (perm.mem_iff.mp listed)) target
  rwa [(lists_of_perm perm ids).offers_eq] at merged

/-! ### Text tables -/

/-- An INTEGER or TEXT primary key `id` compared byte by byte, a TEXT `updated_at`, every other column
TEXT, no other constraint than NOT NULL, and names an INSERT accepts. -/
structure TextSchema (sch : Schema) : Prop where
  id : ∃ c ∈ sch.columns, c.name = "id" ∧ (c.affinity = .integer ∨ c.affinity = .text)
  binary : sch.collation "id" = .binary
  dated : "updated_at" ∈ sch.names
  texts : ∀ c ∈ sch.columns, c.name ≠ "id" → c.affinity = .text
  only_id : sch.uniques = []
  safe : ∀ k ∈ sch.names, isSafeIdentifier k = true

/-- Every id is one that its column stores, every other cell a text. -/
structure TextRows (e : Engine) (t : Table) : Prop where
  ids : ∀ r ∈ t.rows, IsId (r.cell "id") ∧ ∀ c ∈ t.schema.columns, c.name = "id" → c.affinity.Holds e (r.cell "id")
  texts : ∀ r ∈ t.rows, ∀ k ∈ t.schema.names, k ≠ "id" → ∃ s, r.cell k = .text s

theorem TextRows.versioned {e : Engine} {t : Table} (schema : TextSchema t.schema) (rows : TextRows e t)
    {r : Row} (member : r ∈ t.rows) : Versioned e t.schema r := by
  obtain ⟨id, holds⟩ := rows.ids r member
  obtain ⟨d, id_column, id_name, affinity⟩ := schema.id
  have only_id_column : ∀ c ∈ t.schema.columns, c.name = "id" → c = d := fun c column name =>
    List.inj_on_of_nodup_map t.schema.distinct_names column id_column (name.trans id_name.symm)
  refine ⟨⟨t.shaped r member, t.accepted r member, schema.safe, fun c column => ?_, id, ?_⟩,
    rows.texts r member "updated_at" schema.dated (by decide)⟩
  · by_cases name : c.name = "id"
    · obtain rfl := only_id_column c column name
      rw [name]
      have stored := holds c column name
      rcases id with ⟨i, cell⟩ | ⟨s, cell⟩ <;> rw [cell] at stored ⊢ <;> rcases affinity with kind | kind <;>
        rw [kind] at stored ⊢
      · exact carries_integer e (.inl rfl) i
      · exact stored.elim
      · exact numericValue_text stored
      · exact carries_text e s
    · obtain ⟨s, cell⟩ := rows.texts r member c.name (List.mem_map_of_mem column) name
      rw [cell, schema.texts c column name]
      exact carries_text e s
  · exact Schema.idOperand_fixed fun c column name => (holds c column name).operand id

/-- Rows with one id and the same timestamp but different contents. -/
def Tied (r s : Row) : Prop := r.cell "id" = s.cell "id" ∧ r.stamp = s.stamp ∧ r ≠ s

theorem IsId.eq_of_key {v w : SqlValue} (hv : IsId v) (hw : IsId w) (h : v.key = w.key) : v = w := by
  rcases hv with ⟨i, rfl⟩ | ⟨s, rfl⟩ <;> rcases hw with ⟨j, rfl⟩ | ⟨u, rfl⟩
  · have same : (i.toInt : Rat) = j.toInt := Key.number.inj h
    rw [Int64.toInt.inj (Rat.intCast_inj.mp same)]
  · cases h
  · cases h
  · rw [Key.text.inj h]

theorem merged_rows {e : Engine} {sch : Schema} {t u t' u' : Table} (kept : ∀ r ∈ t'.rows, Versioned e sch r)
    (kept' : ∀ s ∈ u'.rows, Versioned e sch s)
    (store : t'.store = fun k => merge Row.date (t.store k) (u.store k))
    (store' : u'.store = fun k => merge Row.date (u.store k) (t.store k)) {r : Row} (member : r ∈ t'.rows) :
    ∃ s ∈ u'.rows, r.cell "id" = s.cell "id" ∧ (r = s ∨ r.stamp = s.stamp ∧ r ∈ t.rows ∧ s ∈ u.rows) := by
  have held := Table.store_eq member (kept r member).id.ne_null
  rw [store] at held
  obtain ⟨s, other, alike⟩ := merge_swap held
  obtain ⟨member', key⟩ := Table.store_some ((congrFun store' r.key).trans other)
  have id := (kept r member).id.eq_of_key (kept' s member').id key.symm
  refine ⟨s, member', id, alike.imp_right fun ⟨date, own, own'⟩ => ?_⟩
  exact ⟨by rw [(kept r member).stamp, (kept' s member').stamp, date], (Table.store_some own).1,
    (Table.store_some own').1⟩

/-- After each node has applied a full export of the other they hold the same ids, and the same row
for every id except those of a tie, where each keeps its own. The second export may be taken
before or after the first is applied. -/
theorem exchange_agrees {e : Engine} {f g : ApplyFaults} {a b b' : Database} {name : String} {t u : Table}
    (calm_a : f.Calm) (calm_b : g.Calm) (synced : name ∈ syncTables) (table_a : a.tables name = some t)
    (table_b : b.tables name = some u)
    (same_schema : u.schema = t.schema) (schema : TextSchema t.schema) (rows_a : TextRows e t)
    (rows_b : TextRows e u) {changes_a changes_b : List SyncChange}
    (export_a : exportChangesSince e a name none = .ok changes_a)
    (order : b' = b ∨ b' = (applyChanges e g b changes_a).1)
    (export_b : exportChangesSince e b' name none = .ok changes_b) :
    ∃ t' u', (applyChanges e f a changes_b).1.tables name = some t' ∧
      (applyChanges e g b changes_a).1.tables name = some u' ∧
      (∀ r ∈ t'.rows, ∃ s ∈ u'.rows, r.cell "id" = s.cell "id" ∧ (r = s ∨ Tied r s ∧ r ∈ t.rows ∧ s ∈ u.rows)) ∧
      (∀ s ∈ u'.rows, ∃ r ∈ t'.rows, r.cell "id" = s.cell "id" ∧ (r = s ∨ Tied r s ∧ r ∈ t.rows ∧ s ∈ u.rows)) ∧
      ∀ r ∈ t.rows, ∀ s ∈ u.rows, Tied r s → r ∈ t'.rows ∧ s ∈ u'.rows := by
  have start_a : HoldsVersions e t.schema a name t.store :=
    ⟨t, table_a, rfl, fun r member => rows_a.versioned schema member, rfl⟩
  have start_b : HoldsVersions e t.schema b name u.store := by
    refine ⟨u, table_b, same_schema, fun r member => ?_, rfl⟩
    rw [← same_schema] at schema ⊢
    exact rows_b.versioned schema member
  have merged_b := apply_export_merges calm_b synced schema.only_id schema.binary start_a start_b export_a
  have merged_a : HoldsVersions e t.schema (applyChanges e f a changes_b).1 name
      fun k => merge Row.date (t.store k) (u.store k) := by
    rcases order with rfl | rfl
    · exact apply_export_merges calm_a synced schema.only_id schema.binary start_b start_a export_b
    · have later := apply_export_merges calm_a synced schema.only_id schema.binary merged_b start_a export_b
      rwa [funext fun k => merge_merge (t.store k) (u.store k)] at later
  obtain ⟨t', present, _, kept, store⟩ := merged_a
  obtain ⟨u', present', _, kept', store'⟩ := merged_b
  refine ⟨t', u', present, present', fun r member => ?_, fun s member => ?_, ?_⟩
  · obtain ⟨s, member', id, alike⟩ := merged_rows kept kept' store store' member
    exact ⟨s, member', id, or_iff_not_imp_left.mpr fun apart =>
      have ⟨date, own⟩ := alike.resolve_left apart
      ⟨⟨id, date, apart⟩, own⟩⟩
  · obtain ⟨r, member', id, alike⟩ := merged_rows kept' kept store' store member
    exact ⟨r, member', id.symm, or_iff_not_imp_left.mpr fun apart =>
      have ⟨date, own, own'⟩ := alike.resolve_left (Ne.symm apart)
      ⟨⟨id.symm, date.symm, apart⟩, own', own⟩⟩
  · rintro r member s member' ⟨id, date, _⟩
    have version := rows_a.versioned schema member
    have version' : Versioned e u.schema s := by
      rw [← same_schema] at schema
      exact rows_b.versioned schema member'
    have same_date : r.date = s.date := by rw [Row.date, Row.date, date]
    have key : s.key = r.key := by rw [Row.key, Row.key, id]
    have own := Table.store_eq member version.id.ne_null
    have own' := Table.store_eq member' version'.id.ne_null
    rw [key] at own'
    constructor
    · refine (Table.store_some ((congrFun store r.key).trans ?_)).1
      rw [own, own', merge_tie same_date]
    · refine (Table.store_some ((congrFun store' r.key).trans ?_)).1
      rw [own, own', merge_tie same_date.symm]

theorem plansSchema_text : TextSchema plansSchema where
  id := ⟨_, List.mem_cons_self, rfl, .inl rfl⟩
  binary := rfl
  dated := by decide
  texts := by decide
  only_id := rfl
  safe := by decide

theorem plansTable_text (rows : List (Int64 × String × String))
    (distinct : (rows.map fun p => plan p.1 p.2.1 p.2.2).Pairwise fun r s => plansSchema.conflict r s = false) :
    TextRows sampleEngine (plansTable rows distinct) where
  ids r member := by
    obtain ⟨id, holds, _⟩ := planRows_holds r member
    exact ⟨id, fun c column name => name ▸ holds c column⟩
  texts r member k column other := by
    obtain ⟨⟨id, name, updatedAt⟩, _, rfl⟩ := List.mem_map.mp member
    have columns : k = "id" ∨ k = "name" ∨ k = "updated_at" := by
      simpa [plansTable, plansSchema, Schema.names] using column
    rcases columns with rfl | rfl | rfl
    · exact absurd rfl other
    · exact ⟨name, rfl⟩
    · exact ⟨updatedAt, rfl⟩

def aPlans : Table := plansTable [(1, "a", "2026-04-21 12:00:00"), (2, "old", "2026-04-21 08:00:00")] (by decide)

def bPlans : Table := plansTable [(2, "new", "2026-04-21T09:00:00"), (3, "b", "2026-04-21 10:00:00")] (by decide)

theorem aPlans_bPlans_agree : ∃ t' u',
    (applyChanges sampleEngine {} (plansDb aPlans) [planChange 1 1 "a" "2026-04-21 12:00:00",
      planChange 2 2 "new" "2026-04-21T09:00:00", planChange 3 3 "b" "2026-04-21 10:00:00"]).1.tables "plans" = some t' ∧
    (applyChanges sampleEngine {} (plansDb bPlans) [planChange 1 1 "a" "2026-04-21 12:00:00",
      planChange 2 2 "old" "2026-04-21 08:00:00"]).1.tables "plans" = some u' ∧
    (∀ r ∈ t'.rows, ∃ s ∈ u'.rows, r.cell "id" = s.cell "id" ∧
      (r = s ∨ Tied r s ∧ r ∈ aPlans.rows ∧ s ∈ bPlans.rows)) ∧
    (∀ s ∈ u'.rows, ∃ r ∈ t'.rows, r.cell "id" = s.cell "id" ∧
      (r = s ∨ Tied r s ∧ r ∈ aPlans.rows ∧ s ∈ bPlans.rows)) ∧
    ∀ r ∈ aPlans.rows, ∀ s ∈ bPlans.rows, Tied r s → r ∈ t'.rows ∧ s ∈ u'.rows := by
  have table_a : (plansDb aPlans).tables "plans" = some aPlans := rfl
  have table_b : (plansDb bPlans).tables "plans" = some bPlans := rfl
  exact exchange_agrees ApplyFaults.calm_none ApplyFaults.calm_none (by decide) table_a table_b rfl plansSchema_text
    (plansTable_text _ (by decide))
    (plansTable_text _ (by decide)) rfl (.inr rfl) rfl

def ExchangeAgrees (e : Engine) (a b : Database) (name : String) : Prop :=
  ∀ changes_a changes_b, exportChangesSince e a name none = .ok changes_a →
    exportChangesSince e b name none = .ok changes_b →
    ∃ t' u', (applyChanges e {} a changes_b).1.tables name = some t' ∧
      (applyChanges e {} b changes_a).1.tables name = some u' ∧ ∀ r, r ∈ t'.rows ↔ r ∈ u'.rows

def spacedSchema : Schema where
  columns := [{ name := "id", affinity := .integer }, { name := "full name", affinity := .text, notNull := true },
    { name := "updated_at", affinity := .text, notNull := true }]
  rowid := true
  distinct := by decide
  id_spelled := by decide
  rowid_integer := by decide

def spacedRow : Row :=
  [("id", .integer 1), ("full name", .text "a"), ("updated_at", .text "2026-04-21 12:00:00")]

def spacedDb (filled : Bool) : Database where
  tables := fun name => if name = "plans" then some ⟨spacedSchema, if filled then [spacedRow] else [], 0,
    by cases filled <;> decide, by cases filled <;> decide, by cases filled <;> simp⟩ else none
  syncMeta _ _ := none

def otherDb (t : Table) : Database where
  tables := fun name => if name = "other" then some t else none
  syncMeta _ _ := none

/-- Two versions of plan 1 from the same second stay apart, and a table with an unsafe column name
or outside `syncTables` is not replicated at all. -/
theorem exchange_leaves_ties_apart :
    ¬ExchangeAgrees sampleEngine (plansDb (plansTable [(1, "a", "2026-04-21 12:00:00")] (by decide)))
        (plansDb (plansTable [(1, "b", "2026-04-21 12:00:00")] (by decide))) "plans" ∧
      ¬ExchangeAgrees sampleEngine (spacedDb true) (spacedDb false) "plans" ∧
      ¬ExchangeAgrees sampleEngine (otherDb aPlans) (otherDb noPlans) "other" := by
  refine ⟨fun agrees => ?_, fun agrees => ?_, fun agrees => ?_⟩
  · obtain ⟨t', u', present, present', same⟩ := agrees _ _ rfl rfl
    obtain rfl := Option.some.inj present
    obtain rfl := Option.some.inj present'
    exact absurd ((same (plan 1 "a" "2026-04-21 12:00:00")).mp (by decide)) (by decide)
  · obtain ⟨t', u', present, present', same⟩ := agrees _ _ rfl rfl
    obtain rfl := Option.some.inj present
    obtain rfl := Option.some.inj present'
    exact absurd ((same spacedRow).mp (by decide)) (by decide)
  · obtain ⟨t', u', present, present', same⟩ := agrees _ _ rfl rfl
    obtain rfl := Option.some.inj present
    obtain rfl := Option.some.inj present'
    exact absurd ((same (plan 1 "a" "2026-04-21 12:00:00")).mp (by decide)) (by decide)

end ConvergioMesh
