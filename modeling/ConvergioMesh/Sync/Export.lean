import Mathlib.Data.List.Sort
import ConvergioMesh.Sync.Types

/-!
# Export

`exportChangesSince` reads the rows of a table whose timestamp is above a cursor and turns each
into a change record.
-/

namespace ConvergioMesh

def isNameChar (c : Char) : Bool := c.isAlphanum || c = '_'

def isSafeIdentifier (name : String) : Bool := !name.toList.isEmpty && name.toList.all isNameChar

/-- `detect_timestamp_column`: prefer `updated_at`, fall back to `created_at`. -/
def detectTimestampColumn (t : Table) : Option String :=
  if "updated_at" ∈ t.schema.names then some "updated_at"
  else if "created_at" ∈ t.schema.names then some "created_at"
  else none

/-- The base64 alphabet of `STANDARD`. -/
def base64Char (n : Nat) : Char :=
  if n < 26 then Char.ofNat (65 + n)
  else if n < 52 then Char.ofNat (71 + n)
  else if n < 62 then Char.ofNat (n - 4)
  else if n = 62 then '+' else '/'

def base64 : List UInt8 → List Char
  | [] => []
  | [a] => [base64Char (a.toNat / 4), base64Char (a.toNat % 4 * 16), '=', '=']
  | [a, b] =>
    [base64Char (a.toNat / 4), base64Char (a.toNat % 4 * 16 + b.toNat / 16),
      base64Char (b.toNat % 16 * 4), '=']
  | a :: b :: c :: rest =>
    base64Char (a.toNat / 4) :: base64Char (a.toNat % 4 * 16 + b.toNat / 16) ::
      base64Char (b.toNat % 16 * 4 + c.toNat / 64) :: base64Char (c.toNat % 64) :: base64 rest

def sqliteToJson : SqlValue → Json
  | .null => .null
  | .integer i => .number (.ofInt64 i)
  | .real f => if f.isFinite then .number (.float f) else .null
  | .text s => .string s
  | .blob bytes => .string (String.ofList (base64 bytes))

/-- The `pk` of an exported row: an integer or a text id, and 0 for any other. -/
def pkOf : SqlValue → Json
  | .integer i => .number (.ofInt64 i)
  | .text s => .string s
  | _ => .number (.posInt 0)

/-- The change record of a row. The map behind the object sorts its keys, which only permutes the
column list of the statement built from it. -/
def toChange (table : String) (r : Row) : SyncChange where
  tableName := table
  pk := pkOf (r.cell "id")
  data := .object (r.map fun cell => (cell.1, sqliteToJson cell.2))

/-- The WHERE clause: `REPLACE(col, 'T', ' ') > since` when there is both a cursor and a column. -/
def selects (e : Engine) (t : Table) (since : Option String) (r : Row) : Bool :=
  match since, detectTimestampColumn t with
  | some ts, some col => ((r.cell col).asText e).any fun s => replaceT ts < replaceT s
  | _, _ => true

def idOrder (sch : Schema) (r s : Row) : Prop :=
  (((sch.collation "id").fold (r.cell "id")).key.le ((sch.collation "id").fold (s.cell "id")).key) = true

instance (sch : Schema) : DecidableRel (idOrder sch) := fun _ _ => inferInstanceAs (Decidable (_ = true))

/-- `export_changes_since`: rows with a timestamp above `since`, every row without one. Without a
timestamp column the statement has no `?1` for the cursor that is bound all the same. -/
def exportChangesSince (e : Engine) (db : Database) (table : String) (since : Option String) :
    Except SqlError (List SyncChange) :=
  if !table.toList.all isNameChar then .error .invalidParameterName
  else
    match db.tables table with
    | none => .ok []
    | some t =>
      if "id" ∉ t.schema.names then .error .noSuchColumn
      else if since.isSome ∧ detectTimestampColumn t = none then .error .invalidParameterCount
      else .ok (((t.rows.filter (selects e t since)).insertionSort (idOrder t.schema)).map (toChange table))

theorem mem_export {e : Engine} {db : Database} {table : String} {since : Option String} {t : Table}
    {changes : List SyncChange} {c : SyncChange} (present : db.tables table = some t)
    (h : exportChangesSince e db table since = .ok changes) :
    c ∈ changes ↔ ∃ r ∈ t.rows, selects e t since r = true ∧ toChange table r = c := by
  unfold exportChangesSince at h
  rw [present] at h
  dsimp only at h
  split at h
  · cases h
  · split at h
    · cases h
    · split at h
      · cases h
      · obtain rfl := Except.ok.inj h
        simp [List.mem_insertionSort, and_assoc]

theorem export_ok {e : Engine} {db : Database} {table : String} {since : Option String} {t : Table}
    (present : db.tables table = some t) (name : table.toList.all isNameChar = true)
    (id : "id" ∈ t.schema.names) (dated : since.isSome → detectTimestampColumn t ≠ none) :
    exportChangesSince e db table since =
      .ok (((t.rows.filter (selects e t since)).insertionSort (idOrder t.schema)).map (toChange table)) := by
  have bound : ¬(since.isSome = true ∧ detectTimestampColumn t = none) := fun h => dated h.1 h.2
  unfold exportChangesSince
  rw [present]
  simp only [name, id, bound]
  rfl

theorem detectTimestampColumn_updatedAt {t : Table} (h : "updated_at" ∈ t.schema.names) :
    detectTimestampColumn t = some "updated_at" := if_pos h

theorem selects_stamp {e : Engine} {t : Table} {since : Option String} {r : Row} {s : String}
    (column : "updated_at" ∈ t.schema.names) (h : r.stamp = some s) :
    selects e t since r = true ↔ ∀ ts ∈ since, replaceT ts < s := by
  obtain ⟨raw, cell, _, rfl⟩ := Row.stamp_some h
  cases since with
  | none => simp [selects]
  | some ts => simp [selects, detectTimestampColumn_updatedAt column, cell, SqlValue.asText]

theorem mapT_lt {l m : List Char} (free : 'T' ∉ m) (h : l < m) : (l.map fun c => if c = 'T' then ' ' else c) < m := by
  induction m generalizing l with
  | nil => exact absurd h (List.not_lt_nil _)
  | cons d m ih =>
    cases l with
    | nil => exact List.nil_lt_cons ..
    | cons c l =>
      have other : d ≠ 'T' := fun same => free (same ▸ List.mem_cons_self)
      have free_rest : 'T' ∉ m := fun member => free (List.mem_cons_of_mem _ member)
      rw [List.map_cons, List.cons_lt_cons_iff]
      rcases List.cons_lt_cons_iff.mp h with smaller | ⟨rfl, rest⟩
      · left
        split
        · rename_i isT
          subst c
          exact lt_trans (by decide) smaller
        · exact smaller
      · right
        rw [if_neg other]
        exact ⟨rfl, ih free_rest rest⟩

theorem T_not_mem_replaceT (s : String) : 'T' ∉ (replaceT s).toList := by
  intro member
  rw [replaceT, String.toList_ofList] at member
  obtain ⟨c, _, same⟩ := List.mem_map.mp member
  split at same
  · exact absurd same (by decide)
  · rename_i other
    exact other same

theorem replaceT_lt {c s : String} (h : c < replaceT s) : replaceT c < replaceT s := by
  rw [String.lt_iff_toList_lt] at h ⊢
  rw [replaceT, String.toList_ofList]
  exact mapT_lt (T_not_mem_replaceT s) h

theorem selects_of_above {e : Engine} {t : Table} {r : Row} {since : Option String} (member : r ∈ t.rows)
    (dated : r.stamp = some r.date) (above : ∀ c, since = some c → c < r.date) : selects e t since r = true := by
  obtain ⟨raw, _, _, date⟩ := Row.stamp_some dated
  refine (selects_stamp (Row.stamp_column member dated) dated).mpr fun c read => ?_
  rw [date] at above ⊢
  exact replaceT_lt (above c read)

end ConvergioMesh
