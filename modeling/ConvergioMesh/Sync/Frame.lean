import ConvergioMesh.Sync.Incoming
import ConvergioMesh.Sync.Plans

/-!
# What a single change may touch

The LWW check looks up the row named by `pk`, while `INSERT OR REPLACE` writes the id of the data
and removes every row that shares a key with it.
-/

namespace ConvergioMesh

/-- The row is the one `pk` names, as `WHERE id = ?1` compares it. -/
def named (e : Engine) (t : Table) (pk : Json) (r : Row) : Bool :=
  (pkParam pk).any fun v => t.schema.same "id" (r.cell "id") (t.schema.idOperand e v)

/-- The id of the row is `pk`, whether or not the code can look it up: numbers are equal by value, and
by their texts in a TEXT column. -/
def hasId (e : Engine) (t : Table) (pk : Json) (r : Row) : Bool :=
  match pk with
  | .string s => t.schema.same "id" (r.cell "id") (t.schema.idOperand e (.text s))
  | .number n =>
    if t.schema.columns.any fun c => c.name == "id" && c.affinity == .text then
      t.schema.same "id" (r.cell "id") (.text (Json.printNumber e.showReal n))
    else (r.cell "id").key == .number n.toRat
  | _ => false

/-- Every row with another id than `pk` is there after the call exactly if it was before. -/
def TouchesOnlyNamed (e : Engine) (db db' : Database) (c : SyncChange) : Prop :=
  ∀ name ∈ syncTables, ∀ t, db.tables name = some t → ∃ t', db'.tables name = some t' ∧
    ∀ r, hasId e t c.pk r = false → (r ∈ t'.rows ↔ r ∈ t.rows)

/-- The row to be stored is there already, or its id and that of every row it displaces is `pk`. -/
def Confined (e : Engine) (t : Table) (pk : Json) (r : Row) : Prop :=
  r ∈ t.rows ∨ (hasId e t pk r = true ∧ ∀ s ∈ t.rows, t.schema.conflict r s = true → hasId e t pk s = true)

theorem applyChangesDetailed_single (e : Engine) (f : ApplyFaults) (db : Database) (c : SyncChange) :
    (applyChangesDetailed e f db [c]).1 =
      if f.pragmaOff then db else (applyChange e (f.changes.headD {}) db c).1 := by
  unfold applyChangesDetailed
  cases f.pragmaOff <;> rfl

theorem touchesOnlyNamed_refl (e : Engine) (db : Database) (c : SyncChange) : TouchesOnlyNamed e db db c :=
  fun _ _ t present => ⟨t, present, fun _ _ => Iff.rfl⟩

theorem Table.mem_put_of_mem {t : Table} {r s : Row} {shape : r.names = t.schema.names}
    {fits : t.schema.accepts r = true} (present : r ∈ t.rows) :
    s ∈ (t.put r shape fits).rows ↔ s ∈ t.rows := by
  rw [mem_put]
  constructor
  · rintro (⟨old, _⟩ | rfl)
    · exact old
    · exact present
  · intro old
    cases clash : t.schema.conflict r s with
    | false => exact .inl ⟨old, rfl⟩
    | true => exact .inr (t.eq_of_conflict present old clash).symm

theorem touchesOnlyNamed_setTable {e : Engine} {db : Database} {c : SyncChange} {t u : Table}
    (synced : c.tableName ∈ syncTables) (present : db.tables c.tableName = some t) :
    TouchesOnlyNamed e db (db.setTable c.tableName u) c ↔
      ∀ r, hasId e t c.pk r = false → (r ∈ u.rows ↔ r ∈ t.rows) := by
  constructor
  · intro touches
    obtain ⟨u', stored, same⟩ := touches _ synced t present
    obtain rfl : u = u' := by simpa using stored
    exact same
  · intro same name _ s there
    by_cases here : name = c.tableName
    · subst name
      obtain rfl : t = s := Option.some.inj (present.symm.trans there)
      exact ⟨u, by simp, same⟩
    · exact ⟨s, by rw [Database.setTable_tables_other _ _ here, there], fun _ _ => Iff.rfl⟩

theorem put_touchesOnly_iff {e : Engine} {t : Table} {pk : Json} {r : Row}
    {shape : r.names = t.schema.names} {fits : t.schema.accepts r = true} :
    (∀ s, hasId e t pk s = false → (s ∈ (t.put r shape fits).rows ↔ s ∈ t.rows)) ↔ Confined e t pk r := by
  constructor
  · intro same
    by_cases present : r ∈ t.rows
    · exact .inl present
    refine .inr ⟨?_, fun s member clash => ?_⟩
    · by_contra other
      rw [Bool.not_eq_true] at other
      exact present ((same r other).mp (Table.mem_put.mpr (.inr rfl)))
    · by_contra other
      rw [Bool.not_eq_true] at other
      rcases Table.mem_put.mp ((same s other).mpr member) with ⟨_, free⟩ | rfl
      · rw [clash] at free
        cases free
      · exact present member
  · rintro (present | ⟨own, displaced⟩) s other
    · exact Table.mem_put_of_mem present
    · rw [Table.mem_put]
      constructor
      · rintro (⟨old, _⟩ | rfl)
        · exact old
        · rw [own] at other
          cases other
      · intro old
        refine .inl ⟨old, ?_⟩
        by_contra clash
        rw [Bool.not_eq_false] at clash
        rw [displaced s old clash] at other
        cases other

/-- Exactly when a call with one change leaves every row but the named one alone: it stores
nothing, or the row it stores is confined to the named one. -/
theorem applyChangesDetailed_touches_iff (e : Engine) (f : ApplyFaults) (db : Database) (c : SyncChange) :
    TouchesOnlyNamed e db (applyChangesDetailed e f db [c]).1 c ↔
      (f.pragmaOff = false → ∀ t entries, Stores e (f.changes.headD {}) db c t entries →
        Confined e t c.pk (incomingRow e (f.changes.headD {}).defaults t entries)) := by
  rw [applyChangesDetailed_single]
  cases f.pragmaOff with
  | true => simp [touchesOnlyNamed_refl]
  | false =>
    simp only [Bool.false_eq_true, if_false, true_implies]
    rcases applyChange_cases e (f.changes.headD {}) db c with ⟨t, entries, stores⟩ | ⟨none_stored, why, done⟩
    · rw [applyChange_stores stores, touchesOnlyNamed_setTable stores.admitted.synced stores.admitted.table]
      refine put_touchesOnly_iff.trans ⟨fun confined t' entries' stores' => ?_, fun h => h t entries stores⟩
      obtain rfl : t = t' := Option.some.inj (stores.admitted.table.symm.trans stores'.admitted.table)
      obtain rfl : entries = entries' := Json.object.inj (stores.admitted.data.symm.trans stores'.admitted.data)
      exact confined
    · rw [done]
      exact ⟨fun _ t entries stores => absurd ⟨t, entries, stores⟩ none_stored,
        fun _ => touchesOnlyNamed_refl e db c⟩

/-- A change for plan 1 whose data names plan 2 replaces plan 2. -/
theorem change_replaces_other_row :
    ¬TouchesOnlyNamed sampleEngine (plansDb (plansTable [(2, "b", "2026-04-21 08:00:00")] (by decide)))
      (applyChangesDetailed sampleEngine {}
        (plansDb (plansTable [(2, "b", "2026-04-21 08:00:00")] (by decide)))
        [planChange 1 2 "x" "2026-04-21 07:00:00"]).1
      (planChange 1 2 "x" "2026-04-21 07:00:00") := by
  intro touches
  obtain ⟨t', stored, same⟩ := touches "plans" (by decide) _ rfl
  have kept := (same (plan 2 "b" "2026-04-21 08:00:00") (by decide)).mpr (by decide)
  obtain rfl := Option.some.inj stored
  exact absurd kept (by decide)

end ConvergioMesh
