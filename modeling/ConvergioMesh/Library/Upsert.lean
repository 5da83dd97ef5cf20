import Mathlib.Algebra.GroupWithZero.Nat
import Mathlib.Data.List.Dedup
import Mathlib.Data.List.Induction
import Mathlib.Data.List.Nodup
import Mathlib.Data.List.Sort

/-!
# Keyed rows

Rows of which no two have the same key: a table with a unique constraint, or a map. An upsert
changes the row of its key, and appends one if there is none.
-/

namespace ConvergioMesh.Library

structure KeyedRows {R K : Type} (key : R → K) where
  rows : List R
  distinct : (rows.map key).Nodup

namespace KeyedRows

variable {R K : Type} [DecidableEq K] {key : R → K} {t : KeyedRows key}

def empty : KeyedRows key := ⟨[], List.nodup_nil⟩

def find (t : KeyedRows key) (k : K) : Option R := t.rows.find? fun r => key r = k

omit [DecidableEq K] in
theorem eq_of_key {r s : R} (hr : r ∈ t.rows) (hs : s ∈ t.rows) (same : key r = key s) : r = s :=
  List.inj_on_of_nodup_map t.distinct hr hs same

theorem find_eq_some {k : K} {r : R} : t.find k = some r ↔ r ∈ t.rows ∧ key r = k := by
  constructor
  · intro found
    have matched := List.find?_some found
    exact ⟨List.mem_of_find?_eq_some found, of_decide_eq_true matched⟩
  · rintro ⟨member, rfl⟩
    cases found : t.find (key r) with
    | none =>
      have different := List.find?_eq_none.mp found r member
      simp at different
    | some s =>
      have matched := List.find?_some found
      rw [t.eq_of_key (List.mem_of_find?_eq_some found) member (of_decide_eq_true matched)]

theorem find_eq_none {k : K} : t.find k = none ↔ ∀ r ∈ t.rows, key r ≠ k := by
  simp [find]

/-- The row of a key after an upsert of `fresh`. -/
def upsertRow (key : R → K) (fresh : R) (update : R → R) (r : R) : R :=
  if key r = key fresh then update r else r

theorem key_upsertRow {fresh : R} {update : R → R} (keeps : ∀ r, key r = key fresh → key (update r) = key fresh)
    (r : R) : key (upsertRow key fresh update r) = key r := by
  unfold upsertRow
  split
  · rename_i same
    rw [keeps r same, same]
  · rfl

/-- `INSERT … ON CONFLICT (key) DO UPDATE`, and `entry(key).and_modify(…).or_insert(…)`. -/
def upsert (t : KeyedRows key) (fresh : R) (update : R → R)
    (keeps : ∀ r, key r = key fresh → key (update r) = key fresh) : KeyedRows key where
  rows := if t.rows.any (key · = key fresh) then t.rows.map (upsertRow key fresh update) else t.rows ++ [fresh]
  distinct := by
    split
    · rw [List.map_map, show key ∘ upsertRow key fresh update = key from funext (key_upsertRow keeps)]
      exact t.distinct
    · rename_i absent
      rw [List.map_append, List.nodup_append]
      refine ⟨t.distinct, List.nodup_singleton _, ?_⟩
      rintro k member _ last rfl
      obtain ⟨r, here, same⟩ := List.mem_map.mp member
      refine absent (List.any_eq_true.mpr ⟨r, here, decide_eq_true ?_⟩)
      rw [same, List.mem_singleton.mp last]

variable {fresh : R} {update : R → R} {keeps : ∀ r, key r = key fresh → key (update r) = key fresh}

theorem rows_upsert_of_find {s : R} (found : t.find (key fresh) = some s) :
    (t.upsert fresh update keeps).rows = t.rows.map (upsertRow key fresh update) := by
  obtain ⟨member, same⟩ := find_eq_some.mp found
  exact if_pos (List.any_eq_true.mpr ⟨s, member, decide_eq_true same⟩)

theorem rows_upsert_of_absent (absent : t.find (key fresh) = none) :
    (t.upsert fresh update keeps).rows = t.rows ++ [fresh] := by
  refine if_neg fun present => ?_
  obtain ⟨r, member, same⟩ := List.any_eq_true.mp present
  exact find_eq_none.mp absent r member (of_decide_eq_true same)

theorem find_upsert_same : (t.upsert fresh update keeps).find (key fresh) =
    some ((t.find (key fresh)).elim fresh update) := by
  cases found : t.find (key fresh) with
  | none =>
    rw [find_eq_some, rows_upsert_of_absent found]
    exact ⟨List.mem_append_right _ (List.mem_singleton_self _), rfl⟩
  | some s =>
    obtain ⟨member, same⟩ := find_eq_some.mp found
    rw [find_eq_some, rows_upsert_of_find found]
    refine ⟨List.mem_map.mpr ⟨s, member, if_pos same⟩, keeps s same⟩

theorem find_upsert_other {k : K} (other : k ≠ key fresh) : (t.upsert fresh update keeps).find k = t.find k := by
  apply Option.ext
  intro r
  rw [find_eq_some, find_eq_some]
  refine and_congr_left fun same => ?_
  subst same
  cases found : t.find (key fresh) with
  | none =>
    rw [rows_upsert_of_absent found, List.mem_append, List.mem_singleton]
    refine or_iff_left ?_
    rintro rfl
    exact other rfl
  | some s =>
    rw [rows_upsert_of_find found, List.mem_map]
    constructor
    · rintro ⟨u, member, rfl⟩
      rw [key_upsertRow keeps] at other
      rwa [upsertRow, if_neg other]
    · exact fun member => ⟨r, member, if_neg other⟩

/-- What the fresh row has and the update keeps, every row has. -/
theorem forall_upsert {P : R → Prop} (before : ∀ r ∈ t.rows, P r) (new : P fresh) (kept : ∀ r, P r → P (update r)) :
    ∀ r ∈ (t.upsert fresh update keeps).rows, P r := by
  intro r member
  cases found : t.find (key fresh) with
  | none =>
    rw [rows_upsert_of_absent found, List.mem_append, List.mem_singleton] at member
    rcases member with old | rfl
    · exact before r old
    · exact new
  | some s =>
    rw [rows_upsert_of_find found, List.mem_map] at member
    obtain ⟨u, old, rfl⟩ := member
    unfold upsertRow
    split
    · exact kept u (before u old)
    · exact before u old

theorem map_upsertRow_of_absent {rows : List R} (absent : key fresh ∉ rows.map key) :
    rows.map (upsertRow key fresh update) = rows := by
  refine (List.map_congr_left fun r member => ?_).trans (List.map_id _)
  refine if_neg fun same => absent ?_
  rw [← same]
  exact List.mem_map_of_mem member

/-- An update that adds what the fresh row has: the sum grows by it, whether the key is new or not. -/
theorem sum_upsert (f : R → Nat) (adds : ∀ r, key r = key fresh → f (update r) = f r + f fresh) :
    ((t.upsert fresh update keeps).rows.map f).sum = (t.rows.map f).sum + f fresh := by
  cases found : t.find (key fresh) with
  | none =>
    rw [rows_upsert_of_absent found]
    simp
  | some s =>
    obtain ⟨member, same⟩ := find_eq_some.mp found
    obtain ⟨before, after, rows⟩ := List.append_of_mem member
    have distinct := t.distinct
    rw [rows, List.map_append, List.map_cons, List.nodup_middle, List.nodup_cons, same, List.mem_append, not_or] at distinct
    obtain ⟨⟨absent, absent'⟩, _⟩ := distinct
    have here : upsertRow key fresh update s = update s := if_pos same
    rw [rows_upsert_of_find found, rows, List.map_append, List.map_cons, map_upsertRow_of_absent absent,
      map_upsertRow_of_absent absent', here]
    simp only [List.map_append, List.map_cons, List.sum_append, List.sum_cons, adds s same]
    omega

/-- Rows that are told by their key and do not have the upserted one stay as they are. -/
theorem filter_upsert {p : K → Bool} (other : p (key fresh) = false) :
    (t.upsert fresh update keeps).rows.filter (p ∘ key) = t.rows.filter (p ∘ key) := by
  cases found : t.find (key fresh) with
  | none =>
    rw [rows_upsert_of_absent found, List.filter_append]
    simp [other]
  | some s =>
    rw [rows_upsert_of_find found, List.filter_map]
    have keys : (p ∘ key) ∘ upsertRow key fresh update = p ∘ key := by
      funext r
      exact congrArg p (key_upsertRow keeps r)
    rw [keys]
    refine (List.map_congr_left fun r member => ?_).trans (List.map_id _)
    have kept : p (key r) = true := (List.mem_filter.mp member).2
    refine if_neg fun same => ?_
    rw [same, other] at kept
    cases kept

/-- A run of steps of which only the selected elements change the entry of a key. -/
theorem find_foldl_inv {A : Type} (step : KeyedRows key → A → KeyedRows key) (selects : A → Bool) (k : K)
    (P : List A → Option R → Prop) (start : P [] (t.find k))
    (own : ∀ t a as, selects a = true → P as (t.find k) → P (as ++ [a]) ((step t a).find k))
    (other : ∀ t a, selects a = false → (step t a).find k = t.find k) (as : List A) :
    P (as.filter selects) ((as.foldl step t).find k) := by
  induction as using List.reverseRecOn with
  | nil => exact start
  | append_singleton as a ih =>
    rw [List.foldl_append, List.foldl_cons, List.foldl_nil, List.filter_append, List.filter_singleton]
    cases selected : selects a with
    | true => exact own _ a _ selected ih
    | false =>
      rw [other _ a selected]
      simpa using ih

/-- `DELETE … WHERE`. -/
def delete (t : KeyedRows key) (p : R → Bool) : KeyedRows key where
  rows := t.rows.filter fun r => !p r
  distinct := t.distinct.sublist (List.filter_sublist.map key)

theorem find_delete {p : R → Bool} {k : K} : (t.delete p).find k = (t.find k).filter fun r => !p r := by
  apply Option.ext
  intro r
  rw [find_eq_some, Option.filter_eq_some_iff, find_eq_some, delete, List.mem_filter, and_right_comm]

/-! ### Last writes -/

/-- The last of the rows with this key. -/
def lastOf (key : R → K) (k : K) (rs : List R) : Option R := (rs.filter fun r => key r = k).getLast?

theorem lastOf_eq_some {k : K} {rs : List R} {r : R} (last : lastOf key k rs = some r) : r ∈ rs ∧ key r = k := by
  have member := List.mem_filter.mp (List.mem_of_getLast? last)
  exact ⟨member.1, of_decide_eq_true member.2⟩

theorem isSome_lastOf {k : K} {rs : List R} : (lastOf key k rs).isSome ↔ k ∈ rs.map key := by
  rw [lastOf, List.getLast?_isSome, ne_eq, List.filter_eq_nil_iff, List.mem_map]
  simp

/-- A run whose steps overwrite a whole row or change nothing: the table holds the last row written of each key. -/
theorem find_foldl_overwrite {A : Type} (step : KeyedRows key → A → KeyedRows key) (writes : A → Option R)
    (own : ∀ t a r, writes a = some r → (step t a).find (key r) = some r)
    (other : ∀ t a r, writes a = some r → ∀ k, k ≠ key r → (step t a).find k = t.find k)
    (skips : ∀ t a, writes a = none → step t a = t) (as : List A) (k : K) :
    (as.foldl step t).find k = (lastOf key k (as.filterMap writes)).or (t.find k) := by
  induction as using List.reverseRecOn with
  | nil => rfl
  | append_singleton as a ih =>
    rw [List.foldl_append, List.foldl_cons, List.foldl_nil, List.filterMap_append]
    cases written : writes a with
    | none =>
      rw [skips _ a written, ih]
      simp [written]
    | some r =>
      by_cases same : key r = k
      · subst same
        rw [own _ a r written]
        simp [written, lastOf]
      · rw [other _ a r written k (Ne.symm same), ih]
        simp [written, lastOf, same]

/-! ### Keys -/

theorem keys_perm {ks : List K} (same : ∀ k, (t.find k).isSome ↔ k ∈ ks) : (t.rows.map key).Perm ks.dedup := by
  refine (List.perm_ext_iff_of_nodup t.distinct (List.nodup_dedup ks)).mpr fun k => ?_
  rw [List.mem_dedup, ← same, List.mem_map, Option.isSome_iff_exists]
  exact exists_congr fun r => find_eq_some.symm

theorem countP_rows (p : R → Bool) : t.rows.countP p = (t.rows.map key).countP fun k => (t.find k).any p := by
  rw [List.countP_map]
  refine List.countP_congr fun r member => ?_
  rw [Function.comp_apply, find_eq_some.mpr ⟨member, rfl⟩, Option.any_some]

/-- `ORDER BY` the key. -/
theorem sorted_rows {K : Type} [LinearOrder K] {key : R → K} (t : KeyedRows key) :
    (t.rows.insertionSort fun r s => key r ≤ key s).Pairwise (key · < key ·) := by
  have perm := List.perm_insertionSort (fun r s => key r ≤ key s) t.rows
  have distinct : (t.rows.insertionSort fun r s => key r ≤ key s).Pairwise (key · ≠ key ·) :=
    List.pairwise_map.mp ((perm.map key).nodup_iff.mpr t.distinct)
  have sorted := List.pairwise_insertionSort (fun r s => key r ≤ key s) t.rows
  exact (sorted.and distinct).imp fun both => lt_of_le_of_ne both.1 both.2

end KeyedRows

end ConvergioMesh.Library
