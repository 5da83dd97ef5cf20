import ConvergioMesh.Sync.Overwrite
import ConvergioMesh.Sync.Writers

/-!
# Last writer wins under concurrency

Between the SELECT of a change and its INSERT any other writer may commit. What a pending INSERT
relies on is that the version its check read is still the newest of its id.
-/

namespace ConvergioMesh

open Library

/-- A change that carries `pk` as its id, and a string `updated_at`. -/
def SyncChange.Regular (c : SyncChange) : Prop :=
  ∃ entries u, c.data = .object entries ∧ entries.lookup "id" = some c.pk ∧
    entries.lookup "updated_at" = some (.string u)

/-- An INTEGER or TEXT `id` compared byte by byte, and a TEXT `updated_at`. -/
structure StampedSchema (sch : Schema) : Prop where
  id : ∃ c ∈ sch.columns, c.name = "id" ∧ (c.affinity = .integer ∨ c.affinity = .text)
  binary : sch.collation "id" = .binary
  dated : ∃ c ∈ sch.columns, c.name = "updated_at" ∧ c.affinity = .text

/-- As `StampedSchema`, with a NUMERIC `id` allowed too. -/
structure KeyedSchema (sch : Schema) : Prop where
  id : ∃ c ∈ sch.columns, c.name = "id" ∧ (c.affinity = .integer ∨ c.affinity = .numeric ∨ c.affinity = .text)
  binary : sch.collation "id" = .binary
  dated : ∃ c ∈ sch.columns, c.name = "updated_at" ∧ c.affinity = .text

theorem StampedSchema.keyed {sch : Schema} (h : StampedSchema sch) : KeyedSchema sch where
  id := by
    obtain ⟨c, column, name, kind⟩ := h.id
    exact ⟨c, column, name, kind.imp_right .inr⟩
  binary := h.binary
  dated := h.dated

namespace SyncChange.Regular

variable {e : Engine} {computed : Row} {c : SyncChange} {entries : List (String × Json)} {t : Table}

theorem cell_id (regular : c.Regular) (schema : KeyedSchema t.schema) (data : c.data = .object entries)
    {v : SqlValue} (param : pkParam c.pk = some v) :
    (incomingRow e computed t entries).cell "id" = t.schema.idOperand e v := by
  obtain ⟨entries', u, data', id, _⟩ := regular
  obtain rfl : entries = entries' := Json.object.inj (data.symm.trans data')
  obtain ⟨d, column, name, kind⟩ := schema.id
  rw [← name] at id ⊢
  rw [incomingRow_cell column id, store_pk_eq_operand kind param, Schema.idOperand_column column name]

theorem stamp (regular : c.Regular) (schema : KeyedSchema t.schema) (data : c.data = .object entries) :
    ∃ u, remoteUpdatedAt entries = some u ∧ (incomingRow e computed t entries).stamp = some u := by
  obtain ⟨entries', u, data', _, dated⟩ := regular
  obtain rfl : entries = entries' := Json.object.inj (data.symm.trans data')
  obtain ⟨d, column, name, kind⟩ := schema.dated
  refine ⟨replaceT u, by simp [remoteUpdatedAt, dated, Json.asStr], Row.stamp_of_cell ?_⟩
  rw [← name] at dated ⊢
  rw [incomingRow_cell column dated, kind]
  rfl

theorem named (regular : c.Regular) (schema : KeyedSchema t.schema) (data : c.data = .object entries)
    {v : SqlValue} (param : pkParam c.pk = some v) {s : Row} (same : s.key = (incomingRow e computed t entries).key) :
    ConvergioMesh.named e t c.pk s = true := by
  have cell : (incomingRow e computed t entries).cell "id" = t.schema.idOperand e v :=
    regular.cell_id schema data param
  obtain ⟨d, column, name, kind⟩ := schema.id
  have plain : ((incomingRow e computed t entries).cell "id").Plain := by
    obtain ⟨entries', u, data', id, _⟩ := regular
    obtain rfl : entries = entries' := Json.object.inj (data.symm.trans data')
    rw [← name] at id ⊢
    rw [incomingRow_cell column id]
    exact d.affinity.store_plain e _
  rw [ConvergioMesh.named, param, Option.any_some, ← cell, Schema.same_of_binary schema.binary]
  refine SqlValue.same_symm (SqlValue.same_iff.mpr ⟨plain.ne_null, same.symm⟩)

end SyncChange.Regular

/-! ### The race -/

/-- Storing `r` leaves the pending INSERT with an older version of the same id, whatever its defaults
evaluate to. -/
def Overtakes (e : Engine) (t : Table) (r : Row) (p : Pending) : Prop :=
  ∀ computed, r.key = (p.row e computed t).key ∧
    ∃ l u, r.stamp = some l ∧ (p.row e computed t).stamp = some u ∧ u < l

def OvertakesNone (e : Engine) (name : String) (w : Writers) (t : Table) (r : Row) : Prop :=
  ∀ c ∈ w.calls, ∀ p, c.pending = some p → p.tableName = name → ¬Overtakes e t r p

/-- The statements that are considered: changes are regular, and a local write stamps a larger
`updated_at` than the row it replaces has. -/
def Admissible (name : String) (w : Writers) : Statement → Prop
  | .start changes => ∀ c ∈ changes, c.tableName = name → c.Regular
  | .run _ _ => True
  | .write table r => table = name → ∀ t, w.db.tables name = some t →
      ∃ u, r.stamp = some u ∧ ∀ s ∈ t.rows, s.key = r.key → ∀ l, s.stamp = some l → l < u

/-- Every `pk` is a 64-bit integer or a string, the SELECT of a check succeeds, an INSERT displaces
no row of another id, and nothing that is stored overtakes a pending INSERT. -/
def RaceFree (e : Engine) (name : String) (w : Writers) : Statement → Prop
  | .start changes => ∀ c ∈ changes, c.tableName = name → (pkParam c.pk).isSome
  | .run i f => ∀ c, w.calls[i]? = some c →
      (c.pending = none → f.select = false) ∧
      ∀ p t, c.pending = some p → p.tableName = name → w.db.tables name = some t →
        (∀ s ∈ t.rows, t.schema.conflict (p.row e f.defaults t) s = true → s.key = (p.row e f.defaults t).key) ∧
          OvertakesNone e name w t (p.row e f.defaults t)
  | .write table r => table = name → ∀ t, w.db.tables name = some t → OvertakesNone e name w t r

/-- No id loses its row or has its stamp lowered. -/
def Keeps (name : String) (db db' : Database) : Prop :=
  ∀ t, db.tables name = some t → ∃ t', db'.tables name = some t' ∧
    ∀ r ∈ t.rows, ∀ l, r.stamp = some l → ∃ r' ∈ t'.rows, r'.key = r.key ∧ ∃ l', r'.stamp = some l' ∧ l ≤ l'

theorem Keeps.refl (name : String) (db : Database) : Keeps name db db :=
  fun t present => ⟨t, present, fun r member l dated => ⟨r, member, rfl, l, dated, le_rfl⟩⟩

theorem Keeps.trans {name : String} {db db' db'' : Database} (first : Keeps name db db')
    (second : Keeps name db' db'') : Keeps name db db'' := by
  intro t present
  obtain ⟨t', present', kept⟩ := first t present
  obtain ⟨t'', present'', kept'⟩ := second t' present'
  refine ⟨t'', present'', fun r member l dated => ?_⟩
  obtain ⟨r', member', same, l', dated', grows⟩ := kept r member l dated
  obtain ⟨r'', member'', same', l'', dated'', grows'⟩ := kept' r' member' l' dated'
  exact ⟨r'', member'', same'.trans same, l'', dated'', grows.trans grows'⟩

/-- The pending INSERT stores a fixed id and stamp, and no row of that id is newer. -/
def Current (e : Engine) (t : Table) (p : Pending) : Prop :=
  ∃ k u, (∀ (computed : Row) (t' : Table), t'.schema = t.schema →
      (p.row e computed t').key = k ∧ (p.row e computed t').stamp = some u) ∧
    ∀ s ∈ t.rows, s.key = k → ∀ l, s.stamp = some l → l ≤ u

/-- The invariant of a call: its changes are regular, and its pending INSERT is current. -/
structure GuardedCall (e : Engine) (name : String) (t : Table) (c : ApplyCall) : Prop where
  regular : ∀ change ∈ c.rest, change.tableName = name → change.Regular ∧ (pkParam change.pk).isSome
  current : ∀ p, c.pending = some p → p.tableName = name → Current e t p

def Guarded (e : Engine) (name : String) (sch : Schema) (w : Writers) : Prop :=
  ∃ t, w.db.tables name = some t ∧ t.schema = sch ∧ ∀ c ∈ w.calls, GuardedCall e name t c

theorem Current.put {e : Engine} {t : Table} {p : Pending} {r : Row} {shape : r.names = t.schema.names}
    {fits : t.schema.accepts r = true} (h : Current e t p) (slow : ¬Overtakes e t r p) :
    Current e (t.put r shape fits) p := by
  obtain ⟨k, u, fixed, newest⟩ := h
  refine ⟨k, u, fixed, fun s member same l dated => ?_⟩
  rcases Table.mem_put.mp member with ⟨old, _⟩ | rfl
  · exact newest s old same l dated
  · by_contra newer
    exact slow fun computed => ⟨same.trans (fixed computed t rfl).1.symm, l, u, dated, (fixed computed t rfl).2,
      not_le.mp newer⟩

/-- What `r` displaces has its id and is no newer. -/
def DisplacesOlder (t : Table) (r : Row) : Prop :=
  ∀ s ∈ t.rows, t.schema.conflict r s = true →
    s.key = r.key ∧ ∀ l, s.stamp = some l → ∃ u, r.stamp = some u ∧ l ≤ u

theorem DisplacesOlder.keeps {db : Database} {name : String} {t : Table} {r : Row} {shape : r.names = t.schema.names}
    {fits : t.schema.accepts r = true} (present : db.tables name = some t) (h : DisplacesOlder t r) :
    Keeps name db (db.setTable name (t.put r shape fits)) := by
  intro u there
  obtain rfl : t = u := Option.some.inj (present.symm.trans there)
  refine ⟨_, Database.setTable_tables_same _ _ _, fun s member l stamped => ?_⟩
  cases clash : t.schema.conflict r s with
  | false => exact ⟨s, Table.mem_put.mpr (.inl ⟨member, clash⟩), rfl, l, stamped, le_rfl⟩
  | true =>
    obtain ⟨same, older⟩ := h s member clash
    exact ⟨r, Table.mem_put.mpr (.inr rfl), same.symm, older l stamped⟩

theorem checkChange_current {e : Engine} {f : Faults} {db : Database} {c : SyncChange} {p : Pending} {t : Table}
    (regular : c.Regular) (param : (pkParam c.pk).isSome) (schema : StampedSchema t.schema)
    (present : db.tables c.tableName = some t) (read : f.select = false) (h : checkChange e f db c = .ok p) :
    p.tableName = c.tableName ∧ Current e t p := by
  obtain ⟨_, t', entries, admitted, fresh, rfl⟩ := checkChange_ok.mp h
  obtain rfl : t = t' := Option.some.inj (present.symm.trans admitted.table)
  obtain ⟨v, param⟩ := Option.isSome_iff_exists.mp param
  obtain ⟨u, remote, stamp⟩ : ∃ u, remoteUpdatedAt entries = some u ∧ (incomingRow e [] t entries).stamp = some u :=
    regular.stamp schema.keyed admitted.data
  refine ⟨rfl, (incomingRow e [] t entries).key, u, fun computed t' same => ?_, fun s member key l dated => ?_⟩
  · rw [pendingOf_row e computed c entries same]
    have schema' : KeyedSchema t'.schema := same ▸ schema.keyed
    obtain ⟨u', remote', stamp'⟩ : ∃ u', remoteUpdatedAt entries = some u' ∧
        (incomingRow e computed t' entries).stamp = some u' := regular.stamp schema' admitted.data
    rw [remote] at remote'
    obtain rfl := Option.some.inj remote'
    refine ⟨?_, stamp'⟩
    rw [Row.key, Row.key, regular.cell_id schema' admitted.data param, regular.cell_id schema.keyed admitted.data param,
      same]
  · rw [remote] at fresh
    exact (lt_of_not_stale present member read (regular.named schema.keyed admitted.data param key) dated fresh).le

theorem GuardedCall.put {e : Engine} {name : String} {t : Table} {c : ApplyCall} {r : Row}
    {shape : r.names = t.schema.names} {fits : t.schema.accepts r = true} (h : GuardedCall e name t c)
    (slow : ∀ p, c.pending = some p → p.tableName = name → ¬Overtakes e t r p) :
    GuardedCall e name (t.put r shape fits) c where
  regular := h.regular
  current p waiting here := (h.current p waiting here).put (slow p waiting here)

theorem step_guarded {e : Engine} {name : String} {sch : Schema} {w w' : Writers} {a : Statement}
    (schema : StampedSchema sch) (inv : Guarded e name sch w) (admissible : Admissible name w a)
    (free : RaceFree e name w a) (h : w.step e a = some w') : Guarded e name sch w' ∧ Keeps name w.db w'.db := by
  obtain ⟨t, present, rfl, calls⟩ := inv
  have same_table {w' : Writers} (still : w'.db.tables name = some t) : Keeps name w.db w'.db := by
    intro u there
    obtain rfl : t = u := Option.some.inj (present.symm.trans there)
    exact ⟨t, still, fun r member l dated => ⟨r, member, rfl, l, dated, le_rfl⟩⟩
  cases Writers.step_cases h with
  | start changes =>
    refine ⟨⟨t, present, rfl, forall_append calls ⟨fun change listed here => ?_, fun p waiting => nomatch waiting⟩⟩,
      same_table present⟩
    exact ⟨admissible change listed here, free change listed here⟩
  | run i f c n call next =>
    have member : c ∈ w.calls := List.mem_of_getElem? call
    obtain ⟨read, insert⟩ := free c call
    cases next with
    | rejected change rest why idle first checked =>
      refine ⟨⟨t, present, rfl, forall_set calls ⟨fun d listed => ?_, fun p waiting => nomatch waiting⟩⟩,
        same_table present⟩
      exact (calls c member).regular d (first ▸ List.mem_cons_of_mem _ listed)
    | checked change rest p idle first checked =>
      refine ⟨⟨t, present, rfl, forall_set calls ⟨fun d listed => ?_, fun q waiting here => ?_⟩⟩,
        same_table present⟩
      · exact (calls c member).regular d (first ▸ List.mem_cons_of_mem _ listed)
      · obtain rfl := Option.some.inj waiting
        have table : p.tableName = change.tableName := by
          obtain ⟨_, t', entries, _, _, rfl⟩ := checkChange_ok.mp checked
          rfl
        have here' := table.symm.trans here
        obtain ⟨regular, param⟩ := (calls c member).regular change (first ▸ List.mem_cons_self) here'
        exact (checkChange_current regular param schema (here' ▸ present) (read idle) checked).2
    | failed p waiting refused =>
      exact ⟨⟨t, present, rfl, forall_set calls ⟨(calls c member).regular, fun p waiting => nomatch waiting⟩⟩,
        same_table present⟩
    | stored p u waiting there writes fits =>
      by_cases here : p.tableName = name
      · subst name
        obtain rfl : t = u := Option.some.inj (present.symm.trans there)
        obtain ⟨displaced, slow⟩ := insert p t waiting rfl present
        obtain ⟨k, d, fixed, newest⟩ := (calls c member).current p waiting rfl
        obtain ⟨key, stamp⟩ := fixed f.defaults t rfl
        have kept : ∀ c ∈ w.calls,
            GuardedCall e p.tableName (t.put (p.row e f.defaults t) (Table.names_build ..) fits) c :=
          fun d member => (calls d member).put fun q waiting here => slow d member q waiting here
        refine ⟨⟨_, Database.setTable_tables_same _ _ _, rfl,
          forall_set kept ⟨(calls c member).regular, fun p waiting => nomatch waiting⟩⟩, ?_⟩
        refine DisplacesOlder.keeps present fun s held clash => ?_
        have same := displaced s held clash
        exact ⟨same, fun l dated => ⟨d, stamp, newest s held (same.trans key) l dated⟩⟩
      · have still : (w.db.setTable p.tableName
            (u.put (p.row e f.defaults u) (Table.names_build ..) fits)).tables name = some t := by
          rw [Database.setTable_tables_other _ _ (Ne.symm here), present]
        exact ⟨⟨t, still, rfl, forall_set calls ⟨(calls c member).regular, fun p waiting => nomatch waiting⟩⟩,
          same_table still⟩
  | write table r u shape fits there own =>
    by_cases here : table = name
    · subst name
      obtain rfl : t = u := Option.some.inj (present.symm.trans there)
      obtain ⟨d, stamp, larger⟩ := admissible rfl t present
      refine ⟨⟨_, Database.setTable_tables_same _ _ _, rfl, fun c member => ?_⟩, ?_⟩
      · exact (calls c member).put fun q waiting here => free rfl t present c member q waiting here
      · refine DisplacesOlder.keeps present fun s held clash => ?_
        have id := own s held clash
        rw [Schema.same_of_binary schema.binary] at id
        have same : s.key = r.key := (SqlValue.same_iff.mp id).2.symm
        exact ⟨same, fun l dated => ⟨d, stamp, (larger s held same l dated).le⟩⟩
    · have still : (w.db.setTable table (u.put r shape fits)).tables name = some t := by
        rw [Database.setTable_tables_other _ _ (Ne.symm here), present]
      exact ⟨⟨t, still, rfl, calls⟩, same_table still⟩

/-- In every run of admissible statements without a race, from no call in progress, no id loses its
row or has its stamp lowered between any two states. -/
theorem stamps_never_decrease {e : Engine} {name : String} {w₀ w w' : Writers} {t : Table}
    (table : w₀.db.tables name = some t) (schema : StampedSchema t.schema) (idle : w₀.calls = [])
    (before : Run (Writers.step e) (fun w a => Admissible name w a ∧ RaceFree e name w a) w₀ w)
    (after : Run (Writers.step e) (fun w a => Admissible name w a ∧ RaceFree e name w a) w w') :
    Keeps name w.db w'.db := by
  have preserve : ∀ w a w', Guarded e name t.schema w → Admissible name w a ∧ RaceFree e name w a →
      w.step e a = some w' → Guarded e name t.schema w' :=
    fun _ _ _ inv ok h => (step_guarded schema inv ok.1 ok.2 h).1
  have start : Guarded e name t.schema w₀ := ⟨t, table, rfl, by simp [idle]⟩
  exact after.relates (fun w w' => Keeps name w.db w'.db) (fun _ => .refl _ _) (fun _ _ _ => .trans) preserve
    (fun _ _ _ inv ok h => (step_guarded schema inv ok.1 ok.2 h).2) (before.invariant preserve start)

theorem planChange_regular (id : Int64) (name updatedAt : String) : (planChange id id name updatedAt).Regular :=
  ⟨_, updatedAt, rfl, rfl, rfl⟩

theorem plansSchema_stamped : StampedSchema plansSchema where
  id := ⟨_, List.mem_cons_self, rfl, .inl rfl⟩
  binary := rfl
  dated := ⟨_, List.mem_of_getElem? (i := 2) rfl, rfl, rfl⟩

def eightOClock : Writers := ⟨plansDb (plansTable [(1, "a", "2026-04-21 08:00:00")] (by decide)), []⟩

/-- A statement of the only call, on a table whose only key is the id. -/
def onlyCall (name : String) (w : Writers) : Statement → Bool
  | .run i f => i = 0 && !f.select && w.calls.length = 1 &&
      (w.db.tables name).all fun t => t.schema.uniques.isEmpty && t.schema.collation "id" == .binary
  | _ => true

theorem raceFree_onlyCall {e : Engine} {name : String} {w : Writers} {i : Nat} {f : Faults}
    (only : onlyCall name w (.run i f) = true) : RaceFree e name w (.run i f) := by
  simp only [onlyCall, Bool.and_eq_true, decide_eq_true_eq, Bool.not_eq_true'] at only
  obtain ⟨⟨⟨rfl, reads⟩, one⟩, keys⟩ := only
  obtain ⟨c, alone⟩ := List.length_eq_one_iff.mp one
  intro d call
  refine ⟨fun _ => reads, fun p t waiting _ present => ⟨fun s _ clash => ?_, fun d' member q waiting' _ => ?_⟩⟩
  · have only_id : t.schema.uniques = [] ∧ t.schema.collation "id" = .binary := by simpa [present] using keys
    rw [Table.conflict_of_no_uniques only_id.1, Schema.same_of_binary only_id.2] at clash
    exact (SqlValue.same_iff.mp clash).2.symm
  · rw [alone] at call member
    obtain rfl : c = d := Option.some.inj call
    obtain rfl := List.mem_singleton.mp member
    obtain rfl := Option.some.inj (waiting.symm.trans waiting')
    intro overtakes
    obtain ⟨_, l, u, stamp, stamp', newer⟩ := overtakes f.defaults
    obtain rfl := Option.some.inj (stamp.symm.trans stamp')
    exact lt_irrefl _ newer

theorem eightOClock_keeps : ∃ w : Writers, (w.db.tables "plans").map (·.rows) = some [plan 1 "b" "2026-04-21 09:00:00"] ∧
    Keeps "plans" eightOClock.db w.db := by
  obtain ⟨w, ran, rows⟩ : ∃ w, replay (Writers.step sampleEngine) (onlyCall "plans") eightOClock
      [.start [planChange 1 1 "b" "2026-04-21 09:00:00"], .run 0 {}, .run 0 {}] = some w ∧
        (w.db.tables "plans").map (·.rows) = some [plan 1 "b" "2026-04-21 09:00:00"] := ⟨_, rfl, by decide⟩
  have table : eightOClock.db.tables "plans" = some (plansTable [(1, "a", "2026-04-21 08:00:00")] (by decide)) := rfl
  have run : Run (Writers.step sampleEngine) (fun w a => Admissible "plans" w a ∧ RaceFree sampleEngine "plans" w a)
      eightOClock w := by
    refine (replay_run ran).weaken ?_
    rintro w a ⟨listed, only⟩
    cases a with
    | start changes =>
      obtain rfl : changes = [planChange 1 1 "b" "2026-04-21 09:00:00"] := by simpa using listed
      constructor <;> intro c member _ <;> obtain rfl := List.mem_singleton.mp member
      · exact planChange_regular 1 "b" "2026-04-21 09:00:00"
      · rfl
    | run i f => exact ⟨trivial, raceFree_onlyCall only⟩
    | write name r => simp at listed
  exact ⟨w, rows, stamps_never_decrease table plansSchema_stamped rfl (.refl _) run⟩

/-- The INSERT of an older version, checked first, lands after that of a newer one. -/
theorem newer_version_overwritten : ∃ w w', Run (Writers.step sampleEngine) (Admissible "plans") eightOClock w ∧
    Run (Writers.step sampleEngine) (Admissible "plans") w w' ∧ ¬Keeps "plans" w.db w'.db := by
  obtain ⟨w, first, rows, w', second, rows'⟩ : ∃ w,
      replay (Writers.step sampleEngine) (fun _ _ => true) eightOClock
        [.start [planChange 1 1 "b" "2026-04-21 09:00:00"], .start [planChange 1 1 "c" "2026-04-21 10:00:00"],
          .run 0 {}, .run 1 {}, .run 1 {}] = some w ∧
      (w.db.tables "plans").map (·.rows) = some [plan 1 "c" "2026-04-21 10:00:00"] ∧
      ∃ w', replay (Writers.step sampleEngine) (fun _ _ => true) w [.run 0 {}] = some w' ∧
        (w'.db.tables "plans").map (·.rows) = some [plan 1 "b" "2026-04-21 09:00:00"] :=
    ⟨_, rfl, by decide, _, rfl, by decide⟩
  refine ⟨w, w', (replay_run first).weaken ?_, (replay_run second).weaken ?_, fun keeps => ?_⟩
  · rintro w a ⟨listed, _⟩
    simp only [List.mem_cons, List.not_mem_nil, or_false] at listed
    rcases listed with rfl | rfl | rfl | rfl | rfl <;> try trivial
    · intro c member _
      obtain rfl := List.mem_singleton.mp member
      exact planChange_regular 1 "b" "2026-04-21 09:00:00"
    · intro c member _
      obtain rfl := List.mem_singleton.mp member
      exact planChange_regular 1 "c" "2026-04-21 10:00:00"
  · rintro w a ⟨listed, _⟩
    obtain rfl := List.mem_singleton.mp listed
    trivial
  · obtain ⟨t, present, held⟩ := Option.map_eq_some_iff.mp rows
    obtain ⟨t', present', held'⟩ := Option.map_eq_some_iff.mp rows'
    obtain ⟨u, there, kept⟩ := keeps t present
    obtain rfl := Option.some.inj (present'.symm.trans there)
    obtain ⟨r', member, _, l', dated, grows⟩ := kept (plan 1 "c" "2026-04-21 10:00:00") (by rw [held]; decide) _ rfl
    rw [held'] at member
    obtain rfl := List.mem_singleton.mp member
    obtain rfl := Option.some.inj dated
    exact absurd grows (by decide)

end ConvergioMesh
