import Mathlib.Data.List.Count
import ConvergioMesh.Sync.Checksum

/-!
# Collisions of the checksum

Any list of statuses with positive counts, in ascending order, is what some table hashes. Two groups
of a table hash like one group whose status holds the first, so a table with two statuses never
has a checksum of its own.
-/

namespace ConvergioMesh

open Library

/-- Statuses in ascending order, each with a positive count. -/
structure StatusList (es : List (String × Nat)) : Prop where
  ascending : es.Pairwise fun e e' => e.1 < e'.1
  positive : ∀ e ∈ es, 0 < e.2

instance (es : List (String × Nat)) : Decidable (StatusList es) :=
  decidable_of_iff ((es.Pairwise fun e e' => e.1 < e'.1) ∧ ∀ e ∈ es, 0 < e.2)
    ⟨fun h => ⟨h.1, h.2⟩, fun h => ⟨h.ascending, h.positive⟩⟩

theorem statusList_nil : StatusList [] := ⟨.nil, by simp⟩

theorem statusList_singleton (s : String) : StatusList [(s, 1)] := ⟨List.pairwise_singleton _ _, by simp⟩

def statusSchema : Schema where
  columns := [{ name := "status", affinity := .text }]
  rowid := false
  distinct := by decide
  id_spelled := by decide
  rowid_integer := by decide

def statusRow (s : String) : Row := [("status", .text s)]

theorem statusRow_cell (s : String) : (statusRow s).cell "status" = .text s := rfl

def statusRows (es : List (String × Nat)) : List Row := es.flatMap fun e => List.replicate e.2 (statusRow e.1)

theorem mem_statusRows {es : List (String × Nat)} {r : Row} (member : r ∈ statusRows es) : ∃ s, r = statusRow s := by
  obtain ⟨e, _, copy⟩ := List.mem_flatMap.mp member
  exact ⟨e.1, List.eq_of_mem_replicate copy⟩

/-- A table with these statuses, each in that many rows. -/
def statusTable (es : List (String × Nat)) : Table where
  schema := statusSchema
  rows := statusRows es
  shaped := by
    intro r member
    obtain ⟨s, rfl⟩ := mem_statusRows member
    rfl
  accepted := by
    intro r member
    obtain ⟨s, rfl⟩ := mem_statusRows member
    rfl
  distinct := by
    refine List.pairwise_of_forall_mem_list fun r member r' member' => ?_
    obtain ⟨s, rfl⟩ := mem_statusRows member
    obtain ⟨s', rfl⟩ := mem_statusRows member'
    rfl

theorem dedup_replicate_append {α : Type} [DecidableEq α] {a : α} {n : Nat} (positive : 0 < n) {l : List α}
    (absent : a ∉ l) : (List.replicate n a ++ l).dedup = a :: l.dedup := by
  induction n with
  | zero => cases positive
  | succ n ih =>
    rw [List.replicate_succ, List.cons_append]
    cases n with
    | zero => exact List.dedup_cons_of_notMem absent
    | succ n =>
      rw [List.dedup_cons_of_mem (by simp [List.replicate_succ]), ih (Nat.succ_pos n)]

theorem statuses_statusTable (es : List (String × Nat)) :
    (statusTable es).rows.map (fun r => (r.cell "status").key) =
      es.flatMap fun e => List.replicate e.2 (Key.text e.1) := by
  simp [statusTable, statusRows, List.map_flatMap, statusRow_cell, SqlValue.key]

theorem absent_of_above {s : String} {es : List (String × Nat)} (above : ∀ e ∈ es, s < e.1) :
    Key.text s ∉ es.flatMap fun e => List.replicate e.2 (Key.text e.1) := by
  intro member
  obtain ⟨e, listed, copy⟩ := List.mem_flatMap.mp member
  have same : s = e.1 := Key.text.inj (List.eq_of_mem_replicate copy)
  exact absurd (above e listed) (same ▸ lt_irrefl _)

theorem dedup_statuses {es : List (String × Nat)} (h : StatusList es) :
    (es.flatMap fun e => List.replicate e.2 (Key.text e.1)).dedup = es.map fun e => Key.text e.1 := by
  obtain ⟨ascending, positive⟩ := h
  induction ascending with
  | nil => rfl
  | @cons e es above _ ih =>
    rw [List.flatMap_cons, List.map_cons, dedup_replicate_append (positive e List.mem_cons_self) (absent_of_above above),
      ih fun e' later => positive e' (List.mem_cons_of_mem _ later)]

theorem count_statuses {es : List (String × Nat)} (h : StatusList es) {e : String × Nat} (member : e ∈ es) :
    (es.flatMap fun e => List.replicate e.2 (Key.text e.1)).count (Key.text e.1) = e.2 := by
  obtain ⟨ascending, positive⟩ := h
  induction ascending with
  | nil => cases member
  | @cons f es above _ ih =>
    rw [List.flatMap_cons, List.count_append, List.count_replicate]
    rcases List.mem_cons.mp member with rfl | later
    · simp [List.count_eq_zero.mpr (absent_of_above above)]
    · have other : (Key.text f.1 == Key.text e.1) = false := by
        simpa using (above e later).ne
      rw [other, ih later fun e' listed => positive e' (List.mem_cons_of_mem _ listed)]
      simp

theorem statusGroups_statusTable {es : List (String × Nat)} (h : StatusList es) :
    statusGroups (statusTable es) = es.map fun e => (Key.text e.1, e.2) := by
  have sorted : (es.map fun e => Key.text e.1).Pairwise fun k l => k.le l = true := by
    rw [List.pairwise_map]
    exact h.ascending.imp fun below => decide_eq_true below.le
  unfold statusGroups
  dsimp only
  rw [statuses_statusTable, dedup_statuses h, sorted.insertionSort_eq, List.map_map]
  refine List.map_congr_left fun e member => ?_
  exact Prod.ext rfl (count_statuses h member)

def textEntries (es : List (String × Nat)) : List (List Char × Nat) := es.map fun e => (e.1.toList, e.2)

theorem statusEntries_statusTable {es : List (String × Nat)} (h : StatusList es) :
    statusEntries (statusTable es) = textEntries es := by
  rw [statusEntries, statusGroups_statusTable h, List.map_map]
  rfl

/-! ### The groups of a table of texts -/

def statusTexts (t : Table) : List String := t.rows.map fun r => (r.cell "status").key.statusText

def listedStatuses (t : Table) : List (String × Nat) :=
  ((statusTexts t).dedup.insertionSort (· ≤ ·)).map fun s => (s, (statusTexts t).count s)

variable {db : Database} {table : String} {t : Table}

theorem TextStatuses.groups (h : TextStatuses db table t) :
    statusGroups t = (listedStatuses t).map fun e => (Key.text e.1, e.2) := by
  have injective : Function.Injective Key.text := fun _ _ => Key.text.inj
  have keys : t.rows.map (fun r => (r.cell "status").key) = (statusTexts t).map Key.text := by
    rw [statusTexts, List.map_map]
    refine List.map_congr_left fun r member => ?_
    obtain ⟨s, cell⟩ := h.text r member
    simp [cell, SqlValue.key, Key.statusText]
  have sorted := List.map_insertionSort (r := (· ≤ ·)) (s := fun k l => Key.le k l = true) Key.text
    (statusTexts t).dedup fun s _ s' _ => (decide_eq_true_iff (p := s ≤ s')).symm
  unfold statusGroups
  dsimp only
  rw [keys, List.dedup_map_of_injective injective, ← sorted, listedStatuses, List.map_map, List.map_map]
  refine List.map_congr_left fun s _ => ?_
  exact Prod.ext rfl (List.count_map_of_injective _ _ injective s)

theorem listedStatuses_ok (t : Table) : StatusList (listedStatuses t) := by
  constructor
  · rw [listedStatuses, List.pairwise_map]
    have distinct : ((statusTexts t).dedup.insertionSort (· ≤ ·)).Nodup :=
      (List.perm_insertionSort _ _).nodup_iff.mpr (List.nodup_dedup _)
    exact ((List.pairwise_insertionSort _ _).and distinct).imp fun both => lt_of_le_of_ne both.1 both.2
  · intro e member
    obtain ⟨s, listed, rfl⟩ := List.mem_map.mp member
    rw [List.mem_insertionSort, List.mem_dedup] at listed
    exact List.count_pos_iff.mpr listed

theorem TextStatuses.entries (h : TextStatuses db table t) : statusEntries t = textEntries (listedStatuses t) := by
  rw [statusEntries, h.groups, List.map_map]
  rfl

/-- A list with the entries of a table holds its counts. -/
theorem TextStatuses.mem_of_entries (h : TextStatuses db table t) {es : List (String × Nat)}
    (entries : statusEntries t = textEntries es) {s : String} {n : Nat} :
    (s, n) ∈ es ↔ 0 < n ∧ n = statusCount db table s := by
  have entry : (s.toList, n) ∈ statusEntries t ↔ _ := h.mem_entries
  rw [String.ofList_toList, entries] at entry
  rw [← entry, textEntries, List.mem_map]
  constructor
  · exact fun member => ⟨_, member, rfl⟩
  · rintro ⟨e, member, same⟩
    obtain ⟨label, rfl⟩ := Prod.mk.inj same
    rwa [← String.toList_inj.mp label]

theorem TextStatuses.mem_listed (h : TextStatuses db table t) {s : String} {n : Nat} :
    (s, n) ∈ listedStatuses t ↔ 0 < n ∧ n = statusCount db table s := h.mem_of_entries h.entries

/-! ### One group for two -/

/-- The status that holds a whole group before the status of the next. -/
def joined (e e' : String × Nat) : String × Nat := (e.1 ++ "=" ++ toString e.2 ++ ";" ++ e'.1, e'.2)

theorem entriesText_joined (es : List (String × Nat)) (e e' : String × Nat) :
    entriesText (textEntries (es ++ [joined e e'])) = entriesText (textEntries (es ++ [e, e'])) := by
  have absorbed := entryText_absorb (e.1.toList, e.2) (e'.1.toList, e'.2)
  have label : (joined e e').1.toList = entryText (e.1.toList, e.2) ++ e'.1.toList := by
    simp [joined, entryText, decimal]
  have whole : entryText ((joined e e').1.toList, (joined e e').2) =
      entryText (e.1.toList, e.2) ++ entryText (e'.1.toList, e'.2) := by
    rw [← absorbed, label]
    rfl
  simp [textEntries, entriesText, whole]

theorem StatusList.join {es : List (String × Nat)} {e e' : String × Nat} (h : StatusList (es ++ [e, e'])) :
    StatusList (es ++ [joined e e']) := by
  obtain ⟨ascending, positive⟩ := h
  obtain ⟨front, _, below⟩ := List.pairwise_append.mp ascending
  constructor
  · refine List.pairwise_append.mpr ⟨front, List.pairwise_singleton _ _, fun f member f' last => ?_⟩
    rw [List.mem_singleton.mp last]
    have begins : e.1.toList <+: (joined e e').1.toList := by
      simp only [joined, String.toList_append, List.append_assoc]
      exact List.prefix_append _ _
    have longer : e.1 ≤ (joined e e').1 := begins.le
    exact (below f member e List.mem_cons_self).trans_le longer
  · intro f member
    rcases List.mem_append.mp member with earlier | last
    · exact positive f (List.mem_append_left _ earlier)
    · rw [List.mem_singleton.mp last]
      exact positive e' (by simp)

theorem statusTable_text {es : List (String × Nat)} (stored : db.tables table = some (statusTable es)) :
    TextStatuses db table (statusTable es) := by
  refine ⟨stored, List.mem_singleton_self _, fun r member => ?_⟩
  obtain ⟨s, rfl⟩ := mem_statusRows member
  exact ⟨s, rfl⟩

theorem statusCount_of_listed {es : List (String × Nat)} (ok : StatusList es)
    (stored : db.tables table = some (statusTable es)) {s : String} {n : Nat} :
    (s, n) ∈ es ↔ 0 < n ∧ n = statusCount db table s :=
  (statusTable_text stored).mem_of_entries (statusEntries_statusTable ok)

theorem Tracked.setStatuses (tracked : Tracked db) (es : List (String × Nat)) :
    Tracked (db.setTable table (statusTable es)) := by
  intro other listed
  by_cases here : other = table
  · subst other
    exact ⟨_, statusTable_text (db.setTable_tables_same table _)⟩
  · obtain ⟨t, stored, column, text⟩ := tracked other listed
    exact ⟨t, (db.setTable_tables_other _ here).trans stored, column, text⟩

/-- A table that hashes alike leaves the text of the database. -/
theorem checksumText_setStatuses (h : TextStatuses db table t) {es : List (String × Nat)} (ok : StatusList es)
    (same : entriesText (statusEntries t) = entriesText (textEntries es)) :
    checksumText (db.setTable table (statusTable es)) = checksumText db := by
  refine congrArg String.join (List.map_congr_left fun other _ => ?_)
  have groups : hashedGroups (db.setTable table (statusTable es)) other = hashedGroups db other := by
    by_cases here : other = table
    · subst other
      have stored := statusTable_text (db.setTable_tables_same table (statusTable es))
      apply String.toList_inj.mp
      rw [stored.hashed, h.hashed, same, statusEntries_statusTable ok]
    · rw [hashedGroups, hashedGroups, db.setTable_tables_other _ here]
  rw [groups]

theorem exists_last_two {α : Type} {l : List α} {a b : α} (first : a ∈ l) (second : b ∈ l) (different : a ≠ b) :
    ∃ front x y, l = front ++ [x, y] := by
  rcases List.eq_nil_or_concat l with rfl | ⟨front, y, rfl⟩
  · cases first
  rcases List.eq_nil_or_concat front with rfl | ⟨front, x, rfl⟩
  · rw [List.mem_singleton.mp first, List.mem_singleton.mp second] at different
    exact absurd rfl different
  · exact ⟨front, x, y, by simp⟩

/-- A database with two different statuses in one table shares its checksum with a database of other counts. -/
theorem exists_collision (c : Crypto) (tracked : Tracked db) (listed : table ∈ checksumTables) {s s' : String}
    (different : s ≠ s') (present : 0 < statusCount db table s) (present' : 0 < statusCount db table s') :
    ∃ db', Tracked db' ∧ computeLocalChecksum c db = computeLocalChecksum c db' ∧ ¬SameCounts db db' := by
  obtain ⟨t, h⟩ := tracked table listed
  have member := h.mem_listed.mpr ⟨present, rfl⟩
  have member' := h.mem_listed.mpr ⟨present', rfl⟩
  obtain ⟨front, e, e', split⟩ := exists_last_two member member' fun same => different (Prod.mk.inj same).1
  have ok := listedStatuses_ok t
  have entries := h.entries
  rw [split] at ok entries
  have texts := checksumText_setStatuses h ok.join (by rw [entries, entriesText_joined])
  refine ⟨db.setTable table (statusTable (front ++ [joined e e'])), tracked.setStatuses _, ?_, fun counts => ?_⟩
  · rw [computeLocalChecksum, computeLocalChecksum, texts]
  · have own : (e.1, e.2) ∈ listedStatuses t := split ▸ List.mem_append_right front List.mem_cons_self
    have stored := h.mem_listed.mp own
    rw [counts table listed, ← statusCount_of_listed ok.join (db.setTable_tables_same table _)] at stored
    rcases List.mem_append.mp stored with earlier | last
    · have below := (List.pairwise_append.mp ok.ascending).2.2 _ earlier e List.mem_cons_self
      exact absurd below (lt_irrefl _)
    · have label := congrArg (fun f => f.1.length) (List.mem_singleton.mp last)
      have mark : ";".length = 1 := rfl
      simp [joined] at label
      omega

/-! ### Alphabets -/

/-- All statuses of the database are made of these characters. -/
structure Over (allowed : Char → Prop) (db : Database) : Prop where
  tracked : Tracked db
  plain : ∀ table ∈ checksumTables, ∀ s, 0 < statusCount db table s → ∀ c ∈ s.toList, allowed c

/-- Neither a count between its marks nor a separator of tables can be written. -/
structure SafeAlphabet (allowed : Char → Prop) : Prop where
  counts : ¬(allowed '=' ∧ allowed ';' ∧ ∃ d ∈ "123456789".toList, allowed d)
  tasks : ¬∀ c ∈ "|tasks:".toList, allowed c
  waves : ¬∀ c ∈ "|waves:".toList, allowed c

theorem exists_nonzero_digit {n : Nat} (positive : 0 < n) : ∃ d ∈ decimal n, d ∈ "123456789".toList := by
  induction n using Nat.strongRecOn with
  | ind n ih =>
    by_cases small : n < 10
    · have one : decimal n = [Nat.digitChar n] := Nat.toDigits_of_lt_base small
      have listed : ∀ m < 10, 0 < m → Nat.digitChar m ∈ "123456789".toList := by decide
      exact ⟨_, one ▸ List.mem_singleton_self _, listed n small positive⟩
    · have split : decimal n = decimal (n / 10) ++ [Nat.digitChar (n % 10)] :=
        Nat.toDigits_of_base_le (by decide) (by omega)
      obtain ⟨d, member, nonzero⟩ := ih (n / 10) (by omega) (by omega)
      exact ⟨d, split ▸ List.mem_append_left _ member, nonzero⟩

variable {allowed : Char → Prop} {db' : Database}

theorem not_continues (safe : SafeAlphabet allowed) (inside' : Over allowed db') (listed : table ∈ checksumTables) :
    ¬Continues db db' table := by
  rintro ⟨s, s', present, present', begins⟩
  have written {c : Char} (member : c ∈ (s ++ "=" ++ toString (statusCount db table s) ++ ";").toList) : allowed c :=
    inside'.plain table listed s' present' c (begins.subset member)
  obtain ⟨d, digit, nonzero⟩ := exists_nonzero_digit present
  refine safe.counts ⟨written (by simp), written (by simp), d, nonzero, written ?_⟩
  simp only [String.toList_append, List.mem_append]
  exact .inl (.inr (by simpa [decimal] using digit))

theorem not_ambiguous (safe : SafeAlphabet allowed) (inside : Over allowed db) (inside' : Over allowed db') :
    ¬Ambiguous db db' := by
  have plain {table text : String} (listed : table ∈ checksumTables) (begins : BeginsWith db db' table text) :
      ∀ c ∈ text.toList, allowed c := by
    obtain ⟨s, present | present, begins⟩ := begins
    · exact fun c member => inside.plain table listed s present c (begins.subset member)
    · exact fun c member => inside'.plain table listed s present c (begins.subset member)
  rintro (⟨table, listed, continues | continues⟩ | begins | begins)
  · exact not_continues safe inside' listed continues
  · exact not_continues safe inside listed continues
  · exact safe.tasks (plain (by decide) begins)
  · exact safe.waves (plain (by decide) begins)

def statusDb (plans tasks waves : List (String × Nat)) : Database where
  tables name :=
    if name = "plans" then some (statusTable plans)
    else if name = "tasks" then some (statusTable tasks)
    else if name = "waves" then some (statusTable waves)
    else none
  syncMeta _ _ := none

theorem statusDb_stored (plans tasks waves : List (String × Nat)) (listed : table ∈ checksumTables) :
    ∃ es ∈ [plans, tasks, waves], (statusDb plans tasks waves).tables table = some (statusTable es) := by
  simp only [checksumTables, List.mem_cons, List.not_mem_nil, or_false] at listed
  rcases listed with rfl | rfl | rfl
  · exact ⟨plans, by simp, rfl⟩
  · exact ⟨tasks, by simp, rfl⟩
  · exact ⟨waves, by simp, rfl⟩

theorem statusDb_over (allowed : Char → Prop) {plans tasks waves : List (String × Nat)}
    (ok : ∀ es ∈ [plans, tasks, waves], StatusList es)
    (plain : ∀ es ∈ [plans, tasks, waves], ∀ e ∈ es, ∀ c ∈ e.1.toList, allowed c) :
    Over allowed (statusDb plans tasks waves) := by
  constructor
  · intro table listed
    obtain ⟨es, _, stored⟩ := statusDb_stored plans tasks waves listed
    exact ⟨_, statusTable_text stored⟩
  · intro table listed s present
    obtain ⟨es, part, stored⟩ := statusDb_stored plans tasks waves listed
    exact plain es part _ ((statusCount_of_listed (ok es part) stored).mpr ⟨present, rfl⟩)

/-- The checksum separates all databases with statuses over an alphabet. -/
def Separates (c : Crypto) (allowed : Char → Prop) : Prop :=
  ∀ db db', Over allowed db → Over allowed db' → computeLocalChecksum c db = computeLocalChecksum c db' →
    SameCounts db db'

theorem not_separates {c : Crypto} (plans tasks waves plans' tasks' waves' : List (String × Nat))
    (ok : ∀ es ∈ [plans, tasks, waves], StatusList es) (ok' : ∀ es ∈ [plans', tasks', waves'], StatusList es)
    (plain : ∀ es ∈ [plans, tasks, waves], ∀ e ∈ es, ∀ c ∈ e.1.toList, allowed c)
    (plain' : ∀ es ∈ [plans', tasks', waves'], ∀ e ∈ es, ∀ c ∈ e.1.toList, allowed c)
    (same : checksumText (statusDb plans tasks waves) = checksumText (statusDb plans' tasks' waves'))
    (different : ¬SameCounts (statusDb plans tasks waves) (statusDb plans' tasks' waves')) : ¬Separates c allowed := by
  intro separates
  refine different (separates _ _ (statusDb_over allowed ok plain) (statusDb_over allowed ok' plain') ?_)
  rw [computeLocalChecksum, computeLocalChecksum, same]

/-- A status in as many rows as a digit says, and another one: with a status that holds both, the text is the same. -/
theorem digit_collides : ∀ n < 10, 0 < n →
    StatusList [("", n), ("=", 1)] ∧
    checksumText (statusDb [("", n), ("=", 1)] [] []) = checksumText (statusDb [joined ("", n) ("=", 1)] [] []) ∧
    statusCount (statusDb [("", n), ("=", 1)] [] []) "plans" "=" ≠
      statusCount (statusDb [joined ("", n) ("=", 1)] [] []) "plans" "=" := by
  decide +kernel

theorem digit_of_nonzero {d : Char} (nonzero : d ∈ "123456789".toList) : ∃ n, 0 < n ∧ n < 10 ∧ Nat.digitChar n = d := by
  have listed : "123456789".toList = (List.range' 1 9).map Nat.digitChar := by decide
  rw [listed] at nonzero
  obtain ⟨n, member, rfl⟩ := List.mem_map.mp nonzero
  rw [List.mem_range'_1] at member
  exact ⟨n, member.1, member.2, rfl⟩

theorem safe_of_separates {c : Crypto} (separates : Separates c allowed) : SafeAlphabet allowed := by
  have letters {text : String} (written : ∀ c ∈ text.toList, allowed c) {lists : List (List (String × Nat))}
      (labels : ∀ es ∈ lists, ∀ e ∈ es, e.1 = "" ∨ e.1 = text) :
      ∀ es ∈ lists, ∀ e ∈ es, ∀ c ∈ e.1.toList, allowed c := by
    intro es part e member
    rcases labels es part e member with empty | same
    · simp [empty]
    · rwa [same]
  constructor
  · rintro ⟨equals, semicolon, d, nonzero, digit⟩
    obtain ⟨n, positive, small, rfl⟩ := digit_of_nonzero nonzero
    obtain ⟨ok, texts, counts⟩ := digit_collides n small positive
    have mark : ∀ c ∈ "=".toList, allowed c := by simpa using equals
    have one : Nat.toDigits 10 n = [Nat.digitChar n] := Nat.toDigits_of_lt_base small
    refine not_separates [("", n), ("=", 1)] [] [] [joined ("", n) ("=", 1)] [] []
      (by simp [ok, statusList_nil]) (by simp [joined, statusList_singleton, statusList_nil]) (letters mark ?_)
      (by simp [joined, one, equals, digit, semicolon]) texts ?_ separates
    · simp only [List.forall_mem_cons, List.not_mem_nil, false_imp_iff, implies_true, and_self, true_or, or_true]
    · exact fun same => counts (same "plans" (by decide) "=")
  · intro written
    refine not_separates [("|tasks:", 1)] [("", 1)] [] [] [("", 1), ("|tasks:", 1)] [] (by decide) (by decide)
      (letters written (by decide)) (letters written (by decide)) (by decide +kernel) (fun same => ?_) separates
    exact absurd (same "plans" (by decide) "|tasks:") (by decide)
  · intro written
    refine not_separates [] [("|waves:", 1)] [("", 1)] [] [] [("", 1), ("|waves:", 1)] (by decide) (by decide)
      (letters written (by decide)) (letters written (by decide)) (by decide +kernel) (fun same => ?_) separates
    exact absurd (same "tasks" (by decide) "|waves:") (by decide)

/-- The checksum separates two databases of which no status holds a group of the other or a separator of tables. Over
an alphabet it separates all databases exactly if neither can be written, and a database with two statuses in one
table always shares its checksum with another. -/
theorem checksum_separates_iff {c : Crypto} (collisionFree : Function.Injective c.sha256) :
    (∀ db db', Tracked db → Tracked db' → ¬Ambiguous db db' →
      computeLocalChecksum c db = computeLocalChecksum c db' → SameCounts db db') ∧
    (∀ allowed, Separates c allowed ↔ SafeAlphabet allowed) ∧
    ∀ db table s s', Tracked db → table ∈ checksumTables → s ≠ s' → 0 < statusCount db table s →
      0 < statusCount db table s' →
      ∃ db', Tracked db' ∧ computeLocalChecksum c db = computeLocalChecksum c db' ∧ ¬SameCounts db db' := by
  refine ⟨fun db db' tracked tracked' plain same => ?_, fun allowed => ⟨safe_of_separates, fun safe => ?_⟩, ?_⟩
  · exact counts_of_text tracked tracked' plain (text_of_checksum collisionFree same)
  · intro db db' inside inside' same
    have plain := not_ambiguous safe inside inside'
    exact counts_of_text inside.tracked inside'.tracked plain (text_of_checksum collisionFree same)
  · intro db table s s' tracked listed different present present'
    exact exists_collision c tracked listed different present present'

def twoStatuses : Database := statusDb [("a", 1), ("b", 1)] [] []

/-- Digests that agree with the real ones on the text of `twoStatuses`. -/
def twoStatusesCrypto : Crypto where
  sha256 body :=
    if body = utf8 "plans:a=1;b=1;|tasks:|waves:|" then
      [151, 150, 180, 34, 29, 216, 134, 187, 156, 58, 73, 202, 87, 136, 164, 251, 143, 38, 53, 21, 246, 189,
        203, 239, 162, 46, 20, 20, 96, 182, 127, 203]
    else body ++ List.replicate 33 0
  hmac _ _ := []
  verifySlice _ _ _ := false

theorem twoStatusesCrypto_collisionFree : Function.Injective twoStatusesCrypto.sha256 := digest_injective _ _ rfl

theorem letters_separate : Separates twoStatusesCrypto fun c => c.isAlpha = true :=
  ((checksum_separates_iff twoStatusesCrypto_collisionFree).2.1 _).mpr
    ⟨fun marks => absurd marks.1 (by decide), fun all => absurd (all '|' (by simp)) (by decide),
      fun all => absurd (all '|' (by simp)) (by decide)⟩

/-- Two plans with statuses a and b, and one plan with status a=1;b. -/
theorem twoStatuses_collide :
    Function.Injective twoStatusesCrypto.sha256 ∧ Tracked twoStatuses ∧ Tracked (statusDb [("a=1;b", 1)] [] []) ∧
    computeLocalChecksum twoStatusesCrypto twoStatuses =
      "9796b4221dd886bb9c3a49ca5788a4fb8f263515f6bdcbefa22e141460b67fcb" ∧
    computeLocalChecksum twoStatusesCrypto (statusDb [("a=1;b", 1)] [] []) =
      "9796b4221dd886bb9c3a49ca5788a4fb8f263515f6bdcbefa22e141460b67fcb" ∧
    ¬SameCounts twoStatuses (statusDb [("a=1;b", 1)] [] []) := by
  refine ⟨twoStatusesCrypto_collisionFree, ?_, ?_, by decide +kernel, by decide +kernel, fun same => ?_⟩
  · exact (statusDb_over (fun _ => True) (by decide) (by simp)).tracked
  · exact (statusDb_over (fun _ => True) (by decide) (by simp)).tracked
  · exact absurd (same "plans" (by decide) "a") (by decide)

end ConvergioMesh
