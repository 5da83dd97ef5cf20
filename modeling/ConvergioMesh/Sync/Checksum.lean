import Mathlib.Data.List.Dedup
import Mathlib.Data.List.Sort
import ConvergioMesh.Library.Delimited
import ConvergioMesh.Sync.Types
import ConvergioMesh.Transport.Auth

/-!
# The convergence checksum

What `compute_local_checksum` hashes: for each of three tables its name and its statuses with their
counts. A status is free text, and may hold what separates statuses, counts and tables.
-/

namespace ConvergioMesh

open Library

def checksumTables : List String := ["plans", "tasks", "waves"]

/-- A status read as a `String`, empty for anything else. -/
def Key.statusText : Key → String
  | .text s => s
  | _ => ""

/-- `SELECT status, COUNT(*) … GROUP BY status ORDER BY status`. -/
def statusGroups (t : Table) : List (Key × Nat) :=
  let statuses := t.rows.map fun r => (r.cell "status").key
  (statuses.dedup.insertionSort fun k l => k.le l = true).map fun k => (k, statuses.count k)

def groupText (g : Key × Nat) : String := g.1.statusText ++ "=" ++ toString g.2 ++ ";"

/-- What a table adds to the hash; nothing if its statement cannot be prepared. -/
def hashedGroups (db : Database) (table : String) : String :=
  match db.tables table with
  | some t => if "status" ∈ t.schema.names then String.join ((statusGroups t).map groupText) else ""
  | none => ""

def checksumText (db : Database) : String :=
  String.join (checksumTables.map fun table => table ++ ":" ++ hashedGroups db table ++ "|")

def computeLocalChecksum (c : Crypto) (db : Database) : String := hexEncode (c.sha256 (utf8 (checksumText db)))

/-! ### What the checksum is meant to tell apart -/

/-- The rows of a table with a status. -/
def statusCount (db : Database) (table status : String) : Nat :=
  (db.tables table).elim 0 fun t => t.rows.countP fun r => r.cell "status" = .text status

def SameCounts (db db' : Database) : Prop :=
  ∀ table ∈ checksumTables, ∀ status, statusCount db table status = statusCount db' table status

/-- The table exists, and every status in it is text. -/
structure TextStatuses (db : Database) (table : String) (t : Table) : Prop where
  stored : db.tables table = some t
  column : "status" ∈ t.schema.names
  text : ∀ r ∈ t.rows, ∃ s, r.cell "status" = .text s

/-- All three tables exist, and every status in them is text. -/
def Tracked (db : Database) : Prop := ∀ table ∈ checksumTables, ∃ t, TextStatuses db table t

/-- A status of the second database begins with a whole group of the first. -/
def Continues (db db' : Database) (table : String) : Prop :=
  ∃ s s', 0 < statusCount db table s ∧ 0 < statusCount db' table s' ∧
    (s ++ "=" ++ toString (statusCount db table s) ++ ";").toList <+: s'.toList

/-- A status of either database begins with this text. -/
def BeginsWith (db db' : Database) (table text : String) : Prop :=
  ∃ s, (0 < statusCount db table s ∨ 0 < statusCount db' table s) ∧ text.toList <+: s.toList

/-- A status of one database holds a group of the other, or a separator of tables. -/
def Ambiguous (db db' : Database) : Prop :=
  (∃ table ∈ checksumTables, Continues db db' table ∨ Continues db' db table) ∨
    BeginsWith db db' "plans" "|tasks:" ∨ BeginsWith db db' "tasks" "|waves:"

variable {db db' : Database} {table : String} {t : Table}

def statusEntries (t : Table) : List (List Char × Nat) :=
  (statusGroups t).map fun g => (g.1.statusText.toList, g.2)

theorem groupText_toList (g : Key × Nat) : (groupText g).toList = entryText (g.1.statusText.toList, g.2) := by
  simp [groupText, entryText, decimal]

theorem TextStatuses.hashed (h : TextStatuses db table t) :
    (hashedGroups db table).toList = entriesText (statusEntries t) := by
  rw [hashedGroups, h.stored]
  dsimp only
  rw [if_pos h.column, String.toList_join, List.flatMap_map, entriesText, statusEntries, List.flatMap_map]
  simp only [groupText_toList]

theorem TextStatuses.count (h : TextStatuses db table t) (s : String) :
    (t.rows.map fun r => (r.cell "status").key).count (.text s) = statusCount db table s := by
  rw [statusCount, h.stored, Option.elim_some, List.count_eq_countP, List.countP_map]
  refine List.countP_congr fun r member => ?_
  obtain ⟨s', cell⟩ := h.text r member
  simp [cell, SqlValue.key]

theorem TextStatuses.mem_entries (h : TextStatuses db table t) {cs : List Char} {n : Nat} :
    (cs, n) ∈ statusEntries t ↔ 0 < n ∧ n = statusCount db table (String.ofList cs) := by
  rw [← h.count, statusEntries, statusGroups, List.map_map, List.mem_map]
  simp only [List.mem_insertionSort, List.mem_dedup, Function.comp_apply, Prod.mk.injEq]
  constructor
  · rintro ⟨k, member, rfl, rfl⟩
    refine ⟨List.count_pos_iff.mpr member, ?_⟩
    obtain ⟨r, isRow, rfl⟩ := List.mem_map.mp member
    obtain ⟨s, cell⟩ := h.text r isRow
    rw [cell]
    simp [SqlValue.key, Key.statusText]
  · rintro ⟨positive, rfl⟩
    exact ⟨_, List.count_pos_iff.mp positive, String.toList_ofList, rfl⟩

theorem TextStatuses.positive_of_mem (h : TextStatuses db table t) {e : List Char × Nat} (member : e ∈ statusEntries t) :
    0 < statusCount db table (String.ofList e.1) := by
  obtain ⟨positive, count⟩ := h.mem_entries.mp member
  rwa [← count]

variable {t' : Table}

theorem counts_of_entries (h : TextStatuses db table t) (h' : TextStatuses db' table t')
    (same : statusEntries t = statusEntries t') (s : String) : statusCount db table s = statusCount db' table s := by
  have transfer {d d' : Database} {u u' : Table} (h : TextStatuses d table u) (h' : TextStatuses d' table u')
      (same : statusEntries u = statusEntries u') (positive : 0 < statusCount d table s) :
      statusCount d table s = statusCount d' table s := by
    have member : (s.toList, statusCount d table s) ∈ statusEntries u :=
      h.mem_entries.mpr ⟨positive, by rw [String.ofList_toList]⟩
    rw [same] at member
    simpa using (h'.mem_entries.mp member).2
  rcases Nat.eq_zero_or_pos (statusCount db table s) with zero | positive
  · rcases Nat.eq_zero_or_pos (statusCount db' table s) with zero' | positive
    · rw [zero, zero']
    · exact (transfer h' h same.symm positive).symm
  · exact transfer h h' same positive

theorem continues_of_label (h : TextStatuses db table t) (h' : TextStatuses db' table t') {e e' : List Char × Nat}
    (member : e ∈ statusEntries t) (member' : e' ∈ statusEntries t') (begins : entryText e <+: e'.1) :
    Continues db db' table := by
  obtain ⟨_, count⟩ := h.mem_entries.mp member
  refine ⟨String.ofList e.1, String.ofList e'.1, h.positive_of_mem member, h'.positive_of_mem member', ?_⟩
  rw [← count, String.toList_ofList]
  simpa [entryText, decimal] using begins

theorem continues_of_absorbs (h : TextStatuses db table t) (h' : TextStatuses db' table t')
    (absorbs : Absorbs (statusEntries t) (statusEntries t')) : Continues db db' table ∨ Continues db' db table := by
  obtain ⟨e, member, e', member', begins | begins⟩ := absorbs
  · exact .inl (continues_of_label h h' member member' begins)
  · exact .inr (continues_of_label h' h member' member begins)

theorem beginsWith_of_label (h : TextStatuses db table t) (h' : TextStatuses db' table t') {text : String}
    (begins : ∃ e, (e ∈ statusEntries t ∨ e ∈ statusEntries t') ∧ text.toList <+: e.1) :
    BeginsWith db db' table text := by
  obtain ⟨e, member, begins⟩ := begins
  refine ⟨String.ofList e.1, member.imp h.positive_of_mem h'.positive_of_mem, ?_⟩
  rwa [String.toList_ofList]

theorem checksumText_toList (db : Database) :
    (checksumText db).toList = "plans:".toList ++ ((hashedGroups db "plans").toList ++ ("|tasks:".toList ++
      ((hashedGroups db "tasks").toList ++ ("|waves:".toList ++ ((hashedGroups db "waves").toList ++ ['|']))))) := by
  simp [checksumText, checksumTables]

/-- If no status holds a group of the other database or a separator of tables, equal texts are made of equal
counts. -/
theorem counts_of_text (tracked : Tracked db) (tracked' : Tracked db') (plain : ¬Ambiguous db db')
    (same : checksumText db = checksumText db') : SameCounts db db' := by
  obtain ⟨plans, isPlans⟩ := tracked "plans" (by decide)
  obtain ⟨plans', isPlans'⟩ := tracked' "plans" (by decide)
  obtain ⟨tasks, isTasks⟩ := tracked "tasks" (by decide)
  obtain ⟨tasks', isTasks'⟩ := tracked' "tasks" (by decide)
  obtain ⟨waves, isWaves⟩ := tracked "waves" (by decide)
  obtain ⟨waves', isWaves'⟩ := tracked' "waves" (by decide)
  have texts := congrArg String.toList same
  rw [checksumText_toList, checksumText_toList, List.append_cancel_left_eq, isPlans.hashed, isPlans'.hashed,
    isTasks.hashed, isTasks'.hashed, isWaves.hashed, isWaves'.hashed] at texts
  have noAbsorb {table : String} {t t' : Table} (listed : table ∈ checksumTables) (h : TextStatuses db table t)
      (h' : TextStatuses db' table t') : ¬Absorbs (statusEntries t) (statusEntries t') :=
    fun absorbs => plain (.inl ⟨table, listed, continues_of_absorbs h h' absorbs⟩)
  rcases entriesText_before_delimiter (by decide) texts with ⟨samePlans, texts⟩ | absorbs | begins
  · rcases entriesText_before_delimiter (by decide) texts with ⟨sameTasks, texts⟩ | absorbs | begins
    · rcases entriesText_at_end (List.append_cancel_right texts) with sameWaves | absorbs
      · intro table listed
        simp only [checksumTables, List.mem_cons, List.not_mem_nil, or_false] at listed
        rcases listed with rfl | rfl | rfl
        · exact counts_of_entries isPlans isPlans' samePlans
        · exact counts_of_entries isTasks isTasks' sameTasks
        · exact counts_of_entries isWaves isWaves' sameWaves
      · exact absurd absorbs (noAbsorb (by decide) isWaves isWaves')
    · exact absurd absorbs (noAbsorb (by decide) isTasks isTasks')
    · exact absurd (.inr (.inr (beginsWith_of_label isTasks isTasks' begins))) plain
  · exact absurd absorbs (noAbsorb (by decide) isPlans isPlans')
  · exact absurd (.inr (.inl (beginsWith_of_label isPlans isPlans' begins))) plain

theorem text_of_checksum {c : Crypto} (collisionFree : Function.Injective c.sha256)
    (same : computeLocalChecksum c db = computeLocalChecksum c db') : checksumText db = checksumText db' :=
  utf8_injective (collisionFree (hexEncode_injective same))

end ConvergioMesh
