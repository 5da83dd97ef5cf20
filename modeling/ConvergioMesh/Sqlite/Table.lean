import Mathlib.Data.List.Nodup
import ConvergioMesh.Sqlite.Value

/-!
# Tables and `INSERT OR REPLACE`

A table carries its schema and the facts SQLite maintains about its rows: they have the schema's
columns, satisfy its constraints, and no two share a key. The keys are the column `id` and the UNIQUE
columns, each compared by its own collation. Triggers, generated columns and indexes on expressions or
on part of the rows are not modelled, and foreign keys are switched off by every writer of this crate.
-/

namespace ConvergioMesh

/-- The DEFAULT of a column: a constant, or an expression like `datetime('now')` that every INSERT
evaluates anew. -/
inductive Default where
  | value (v : SqlValue)
  | expression

structure Column where
  name : String
  affinity : Affinity
  notNull : Bool := false
  dflt : Default := .value .null
  collation : Collation := .binary

/-- The cells of a row, by column name in the order of `SELECT *`. -/
abbrev Row := List (String × SqlValue)

def Row.names (r : Row) : List String := r.map (·.1)

def Row.cell (r : Row) (name : String) : SqlValue := (r.lookup name).getD .null

/-- The value of a column that an INSERT leaves out, given what its default expressions evaluate to. -/
def Column.defaultValue (c : Column) (computed : Row) : SqlValue :=
  match c.dflt with
  | .value v => v
  | .expression => computed.cell c.name

structure Schema where
  columns : List Column
  /-- The column `id` is an INTEGER PRIMARY KEY, that is the rowid. -/
  rowid : Bool
  /-- The rowid is declared AUTOINCREMENT. -/
  autoincrement : Bool := false
  uniques : List (List String) := []
  check : Row → Bool := fun _ => true
  distinct : (columns.map fun c => foldCase c.name).Nodup
  id_spelled : ∀ c ∈ columns, foldCase c.name = "id" → c.name = "id"
  rowid_integer : rowid = true → ∃ c ∈ columns, c.name = "id" ∧ c.affinity = .integer

namespace Schema

def names (sch : Schema) : List String := sch.columns.map (·.name)

/-- The column SQL takes a name for, whatever the case of its letters. -/
def resolve (sch : Schema) (name : String) : Option String := sch.names.find? (foldCase · == foldCase name)

def collation (sch : Schema) (name : String) : Collation :=
  (sch.columns.find? (·.name == name)).elim .binary (·.collation)

/-- `=` between a column and another value. -/
def same (sch : Schema) (name : String) (v w : SqlValue) : Bool :=
  ((sch.collation name).fold v).same ((sch.collation name).fold w)

/-- A bound parameter as `WHERE id = ?` compares it. -/
def idOperand (sch : Schema) (e : Engine) (v : SqlValue) : SqlValue :=
  (sch.columns.find? (·.name == "id")).elim v fun c => c.affinity.operand e v

/-- Two rows agree on the columns of one key. NULLs are distinct. -/
def conflict (sch : Schema) (r s : Row) : Bool :=
  (["id"] :: sch.uniques).any fun key => key.all fun c => sch.same c (r.cell c) (s.cell c)

def isInteger : SqlValue → Bool
  | .integer _ => true
  | _ => false

def accepts (sch : Schema) (r : Row) : Bool :=
  sch.columns.all (fun c => !c.notNull || r.cell c.name != .null) &&
    (!sch.rowid || isInteger (r.cell "id")) && sch.check r

/-- The row an INSERT of bound texts forms. A column it leaves out takes its default, the rowid
the value SQLite assigns. -/
def build (sch : Schema) (e : Engine) (auto : Option Int64) (computed : Row) (bound : List (String × String)) : Row :=
  sch.columns.map fun c => (c.name,
    match bound.lookup c.name with
    | some s => c.affinity.store e s
    | none => if sch.rowid && c.name == "id" then auto.elim .null .integer else c.defaultValue computed)

end Schema

structure Table where
  schema : Schema
  rows : List Row
  /-- The largest rowid ever given out, kept by AUTOINCREMENT in `sqlite_sequence`. -/
  sequence : Int64 := 0
  shaped : ∀ r ∈ rows, r.names = schema.names
  accepted : ∀ r ∈ rows, schema.accepts r = true
  distinct : rows.Pairwise fun r s => schema.conflict r s = false

namespace Table

/-- One more than the largest rowid. At the largest possible one SQLite draws unused candidates;
AUTOINCREMENT takes no rowid twice and gives up there. -/
def nextRowid (e : Engine) (t : Table) : Option Int64 :=
  let used := t.rows.filterMap fun r =>
    match r.cell "id" with
    | .integer i => some i.toInt
    | _ => none
  let next := used.max?.elim 1 (· + 1)
  if t.schema.autoincrement then toInt64? (max next (t.sequence.toInt + 1))
  else
    (toInt64? next).or
      ((e.pickRowid (t.rows.map fun r => (r.cell "id").key)).filter fun i => !used.contains i.toInt)

def sequenceAfter (t : Table) (r : Row) : Int64 :=
  match r.cell "id" with
  | .integer i => if t.sequence ≤ i then i else t.sequence
  | _ => t.sequence

theorem conflict_symm {sch : Schema} {r s : Row} (h : sch.conflict r s = true) :
    sch.conflict s r = true := by
  obtain ⟨key, member, all⟩ := List.any_eq_true.mp h
  refine List.any_eq_true.mpr ⟨key, member, List.all_eq_true.mpr fun c hc => ?_⟩
  exact SqlValue.same_symm (List.all_eq_true.mp all c hc)

theorem conflict_of_id {sch : Schema} {r s : Row} (h : sch.same "id" (r.cell "id") (s.cell "id") = true) :
    sch.conflict r s = true := by
  simp [Schema.conflict, h]

theorem conflict_of_no_uniques {sch : Schema} (only_id : sch.uniques = []) (r s : Row) :
    sch.conflict r s = sch.same "id" (r.cell "id") (s.cell "id") := by
  simp [Schema.conflict, only_id]

def put (t : Table) (r : Row) (shape : r.names = t.schema.names) (fits : t.schema.accepts r = true) :
    Table where
  schema := t.schema
  rows := t.rows.filter (fun s => !t.schema.conflict r s) ++ [r]
  sequence := t.sequenceAfter r
  shaped := by
    intro s member
    rcases List.mem_append.mp member with old | new
    · exact t.shaped s (List.mem_filter.mp old).1
    · rw [List.mem_singleton.mp new, shape]
  accepted := by
    intro s member
    rcases List.mem_append.mp member with old | new
    · exact t.accepted s (List.mem_filter.mp old).1
    · rw [List.mem_singleton.mp new, fits]
  distinct := by
    refine List.pairwise_append.mpr ⟨t.distinct.filter _, List.pairwise_singleton _ _, ?_⟩
    intro s old u new
    rw [List.mem_singleton.mp new]
    have free := (List.mem_filter.mp old).2
    simp only [Bool.not_eq_true'] at free
    by_contra clash
    rw [Bool.not_eq_false] at clash
    rw [conflict_symm clash] at free
    cases free

theorem mem_put {t : Table} {r s : Row} {shape : r.names = t.schema.names}
    {fits : t.schema.accepts r = true} :
    s ∈ (t.put r shape fits).rows ↔ (s ∈ t.rows ∧ t.schema.conflict r s = false) ∨ s = r := by
  simp [put]

theorem eq_of_conflict (t : Table) {r s : Row} (hr : r ∈ t.rows) (hs : s ∈ t.rows)
    (h : t.schema.conflict r s = true) : r = s := by
  have apart : ∀ x ∈ t.rows, ∀ y ∈ t.rows, x = y ∨ t.schema.conflict x y = false := by
    refine List.Pairwise.forall_of_forall_of_flip (fun _ _ => .inl rfl) (t.distinct.imp .inr) ?_
    refine t.distinct.imp fun {x y} free => .inr ?_
    by_contra clash
    rw [Bool.not_eq_false] at clash
    rw [conflict_symm clash] at free
    cases free
  rcases apart r hr s hs with same | free
  · exact same
  · rw [h] at free
    cases free

def find (t : Table) (v : SqlValue) : Option Row := t.rows.find? fun r => t.schema.same "id" (r.cell "id") v

theorem find_some {t : Table} {v : SqlValue} {r : Row} (h : t.find v = some r) :
    r ∈ t.rows ∧ t.schema.same "id" (r.cell "id") v = true := by
  have matched := List.find?_some h
  exact ⟨List.mem_of_find?_eq_some h, matched⟩

theorem find_eq {t : Table} {v : SqlValue} {r : Row} (member : r ∈ t.rows)
    (h : t.schema.same "id" (r.cell "id") v = true) : t.find v = some r := by
  cases found : t.find v with
  | none => exact absurd h (List.find?_eq_none.mp found r member)
  | some s =>
    obtain ⟨hs, same⟩ := find_some found
    have clash : t.schema.conflict s r = true :=
      conflict_of_id (SqlValue.same_trans same (SqlValue.same_symm h))
    rw [t.eq_of_conflict hs member clash]

theorem eq_of_id (t : Table) {r s : Row} (hr : r ∈ t.rows) (hs : s ∈ t.rows)
    (h : t.schema.same "id" (r.cell "id") (s.cell "id") = true) : r = s :=
  t.eq_of_conflict hr hs (conflict_of_id h)

/-! ### INSERT OR REPLACE -/

theorem names_build (sch : Schema) (e : Engine) (auto : Option Int64) (computed : Row)
    (bound : List (String × String)) : (sch.build e auto computed bound).names = sch.names := by
  simp [Schema.build, Row.names, Schema.names]

def incoming (e : Engine) (t : Table) (computed : Row) (bound : List (String × String)) : Row :=
  t.schema.build e (t.nextRowid e) computed bound

/-- `INSERT OR REPLACE`; a row that violates NOT NULL, CHECK or the rowid's type is refused. -/
def insertOrReplace (e : Engine) (t : Table) (computed : Row) (bound : List (String × String)) : Option Table :=
  if fits : t.schema.accepts (t.incoming e computed bound) = true then
    some (t.put (t.incoming e computed bound) (names_build ..) fits)
  else none

theorem insertOrReplace_some {e : Engine} {t u : Table} {computed : Row} {bound : List (String × String)}
    (h : t.insertOrReplace e computed bound = some u) :
    ∃ fits, u = t.put (t.incoming e computed bound) (names_build ..) fits := by
  unfold insertOrReplace at h
  split at h
  · rename_i fits
    exact ⟨fits, (Option.some.inj h).symm⟩
  · cases h

end Table

/-! ### Cells -/

theorem Row.cell_map {cols : List Column} (distinct : (cols.map (·.name)).Nodup) (f : Column → SqlValue)
    {c : Column} (member : c ∈ cols) : Row.cell (cols.map fun c => (c.name, f c)) c.name = f c := by
  induction cols with
  | nil => cases member
  | cons d rest ih =>
    obtain ⟨fresh, distinct⟩ := List.nodup_cons.mp distinct
    unfold Row.cell at ih ⊢
    rw [List.map_cons, List.lookup_cons]
    rcases List.mem_cons.mp member with rfl | member
    · simp
    · have different : (c.name == d.name) = false := by
        refine beq_false_of_ne fun same => fresh ?_
        exact List.mem_map.mpr ⟨c, member, same⟩
      rw [different]
      exact ih distinct member

theorem Row.cell_of_not_mem {r : Row} {name : String} (h : name ∉ r.names) : r.cell name = .null := by
  have absent : r.lookup name = none := by
    rw [List.lookup_eq_none_iff]
    intro p member
    refine bne_iff_ne.mpr fun same => h ?_
    exact same ▸ List.mem_map_of_mem member
  rw [Row.cell, absent]
  rfl

theorem Row.mem_names_of_cell {r : Row} {k : String} (h : r.cell k ≠ .null) : k ∈ r.names := by
  by_contra absent
  exact h (Row.cell_of_not_mem absent)

theorem Schema.distinct_names (sch : Schema) : sch.names.Nodup := by
  refine .of_map foldCase ?_
  rw [names, List.map_map]
  exact sch.distinct

theorem Schema.resolve_of_mem {sch : Schema} {name : String} (column : name ∈ sch.names) :
    sch.resolve name = some name := by
  have folded : (sch.names.map foldCase).Nodup := by
    rw [names, List.map_map]
    exact sch.distinct
  cases found : sch.resolve name with
  | none =>
    have different := List.find?_eq_none.mp found name column
    simp at different
  | some other =>
    have alike : foldCase other = foldCase name := by simpa using List.find?_some found
    rw [List.inj_on_of_nodup_map folded (List.mem_of_find?_eq_some found) column alike]

theorem Schema.cell_build_bound {sch : Schema} {e : Engine} {auto : Option Int64} {computed : Row}
    {bound : List (String × String)} {c : Column} {s : String} (member : c ∈ sch.columns)
    (h : bound.lookup c.name = some s) : (sch.build e auto computed bound).cell c.name = c.affinity.store e s := by
  rw [Schema.build, Row.cell_map sch.distinct_names _ member, h]

/-! ### The column `id` -/

theorem Schema.same_of_binary {sch : Schema} {name : String} (binary : sch.collation name = .binary) (v w : SqlValue) :
    sch.same name v w = v.same w := by
  rw [same, binary, Collation.fold_binary, Collation.fold_binary]

theorem Schema.same_of_key {sch : Schema} {name : String} {v w : SqlValue} (known : v ≠ .null) (same : v.key = w.key) :
    sch.same name v w = true :=
  SqlValue.same_iff.mpr ⟨mt Collation.fold_eq_null.mp known, Collation.key_fold same⟩

theorem Schema.same_null {sch : Schema} {name : String} {v w : SqlValue} (h : sch.same name v w = true) : v ≠ .null := by
  rintro rfl
  simp [same, SqlValue.same] at h

theorem Schema.find_id_column {sch : Schema} {c : Column} (column : c ∈ sch.columns) (name : c.name = "id") :
    sch.columns.find? (·.name == "id") = some c := by
  cases found : sch.columns.find? (·.name == "id") with
  | none =>
    have different := List.find?_eq_none.mp found c column
    simp [name] at different
  | some d =>
    have same : d.name = "id" := by simpa using List.find?_some found
    rw [List.inj_on_of_nodup_map sch.distinct_names (List.mem_of_find?_eq_some found) column (same.trans name.symm)]

theorem Schema.idOperand_column {sch : Schema} {e : Engine} {v : SqlValue} {c : Column} (column : c ∈ sch.columns)
    (name : c.name = "id") : sch.idOperand e v = c.affinity.operand e v := by
  rw [idOperand, find_id_column column name]
  rfl

theorem Schema.idOperand_fixed {sch : Schema} {e : Engine} {v : SqlValue}
    (fixed : ∀ c ∈ sch.columns, c.name = "id" → c.affinity.operand e v = v) : sch.idOperand e v = v := by
  unfold idOperand
  cases found : sch.columns.find? (·.name == "id") with
  | none => rfl
  | some c =>
    have name : c.name = "id" := by simpa using List.find?_some found
    exact fixed c (List.mem_of_find?_eq_some found) name

end ConvergioMesh
