import ConvergioMesh.Sync.Discipline
import ConvergioMesh.Sync.Exchange
import ConvergioMesh.Sync.Handler

/-!
# Quiescence

A round between two nodes that work without error, and nobody else writes. What the first round has
exchanged is behind its cursor on both sides.
-/

namespace ConvergioMesh

open Library

/-- The peer applies the batch it receives and answers the fetch from what it holds then. -/
def honestIo (e : Engine) (f g : ApplyFaults) (b : Database) (table startAt : String) (batch : List SyncChange) :
    RoundIo where
  roundStartAt := startAt
  send _ := .ok ()
  fetch since :=
    match exportChangesSince e (applyChanges e g b (overWire e batch)).1 table since with
    | .ok changes => .ok (overWire e changes)
    | .error _ => .error "changes parse failed: invalid type: null, expected a sequence"
  applyFaults := f

/-- A round from `a` to `b`: both databases afterwards, and (sent, received, applied). -/
def pairRound (e : Engine) (f g : ApplyFaults) (a b : Database) (peer table startAt : String) :
    (Database × Database) × Nat × Nat × Nat :=
  match exportChangesSince e a table (a.syncMeta peer table) with
  | .error _ => ((a, b), 0, 0, 0)
  | .ok batch =>
    let done := syncTableWithPeer e (honestIo e f g b table startAt batch) a peer table
    ((done.1, (applyChanges e g b (overWire e batch)).1), done.2)

/-- A round exports nothing, fetches nothing and leaves both databases as they are. -/
structure Quiet (e : Engine) (a b : Database) (peer table : String) : Prop where
  exports : exportChangesSince e a table (a.syncMeta peer table) = .ok []
  fetches : exportChangesSince e b table (a.syncMeta peer table) = .ok []
  round : ∀ f g startAt, pairRound e f g a b peer table startAt = ((a, b), 0, 0, 0)

/-- The nodes are quiet once this round is over. -/
def QuietAfter (e : Engine) (f g : ApplyFaults) (a b : Database) (peer table startAt : String) : Prop :=
  let done := pairRound e f g a b peer table startAt
  Quiet e done.1.1 done.1.2 peer table

/-- No key but the id, and no CHECK. -/
structure QuietSchema (name : String) (sch : Schema) : Prop extends SyncedSchema name sch where
  only_id : sch.uniques = []
  unchecked : ∀ r, sch.check r = true

theorem Database.setMeta_same {db : Database} {peer table c : String} (stored : db.syncMeta peer table = some c) :
    db.setMeta peer table c = db := by
  unfold setMeta
  congr 1
  funext p n
  split
  · rename_i same
    rw [same.1, same.2, stored]
  · rfl

variable {e : Engine} {name : String}

theorem Relayable.selects_iff {t : Table} {r : Row} {since : Option String} (h : Relayable e t.schema r)
    (schema : StampedSchema t.schema) (normalised : ∀ c, since = some c → 'T' ∉ c.toList) :
    selects e t since r = true ↔ Below since r.date := by
  obtain ⟨c, column, isDated, _⟩ := schema.dated
  rw [selects_stamp (isDated ▸ List.mem_map_of_mem column) h.stamp]
  refine forall_congr' fun ts => imp_congr_right fun read => ?_
  rw [replaceT_of_free (normalised ts read)]

theorem syncTables_names : ∀ name ∈ syncTables, name.toList.all isNameChar = true := by decide

theorem exported_relayable {db : Database} {t : Table} {since : Option String} (schema : SyncedSchema name t.schema)
    (present : db.tables name = some t) (kept : ∀ r ∈ t.rows, Relayable e t.schema r)
    (normalised : ∀ c, since = some c → 'T' ∉ c.toList) :
    ∃ rows : List Row, exportChangesSince e db name since = .ok (rows.map (toChange name)) ∧
      ∀ r, r ∈ rows ↔ r ∈ t.rows ∧ Below since r.date := by
  obtain ⟨c, column, isId, _⟩ := schema.id
  have dated : since.isSome → detectTimestampColumn t ≠ none := fun _ => by
    simp [detectTimestampColumn_updatedAt schema.column]
  refine ⟨_, export_ok present (syncTables_names name schema.synced) (isId ▸ List.mem_map_of_mem column) dated,
    fun r => ?_⟩
  rw [List.mem_insertionSort, List.mem_filter]
  exact and_congr_right fun member => (kept r member).selects_iff schema.toStampedSchema normalised

/-- A table that took a row takes the row its change describes: every column is bound a text. -/
theorem Relayable.incoming_accepted {t : Table} {r : Row} (h : Relayable e t.schema r)
    (schema : QuietSchema name t.schema) (accepted : t.schema.accepts r = true) (computed : Row) :
    t.schema.accepts (incomingRow e computed t (wiredEntriesOf e r)) = true := by
  have key : (incomingRow e computed t (wiredEntriesOf e r)).cell "id" = r.cell "id" := by
    have regular : (wiredChange e name r).Regular := h.regular
    rw [regular.cell_id schema.keyed (wiredChange_data ..) h.param, h.operand]
  simp only [Schema.accepts, Bool.and_eq_true] at accepted ⊢
  refine ⟨⟨List.all_eq_true.mpr fun c column => ?_, ?_⟩, schema.unchecked _⟩
  · have carried : c.name ∈ r.names := h.shape ▸ List.mem_map_of_mem column
    have entry := (lookup_wiredEntriesOf e r c.name).trans (congrArg _ (lookup_entriesOf_mem carried))
    rw [incomingRow_cell column entry]
    simp [(c.affinity.store_plain e _).ne_null]
  · rw [key]
    exact accepted.1.2

/-- One exported row at the other node: either a row of its id is as new already, or the row its
change describes is stored. -/
theorem Relayable.apply {f : Faults} (calm : f.Calm) {db : Database} {t : Table} {r : Row}
    (h : Relayable e t.schema r) (schema : QuietSchema name t.schema) (accepted : t.schema.accepts r = true)
    (present : db.tables name = some t) :
    HeldAt db name r ∧ (applyChange e f db (wiredChange e name r)).1 = db ∨
      ∃ shape fits, applyChange e f db (wiredChange e name r) =
        (db.setTable name (t.put (incomingRow e f.defaults t (wiredEntriesOf e r)) shape fits), .stored (some r.date)) ∧
        DisplacesOlder t (incomingRow e f.defaults t (wiredEntriesOf e r)) := by
  have admitted := h.admitted schema.toSyncedSchema present
  have fits := h.incoming_accepted schema accepted f.defaults
  obtain ⟨_, key, stamp⟩ := h.incoming schema.toStampedSchema f.defaults
  cases fresh : isStale (remoteUpdatedAt (wiredEntriesOf e r)) (readLocal e f db (wiredChange e name r)) with
  | false =>
    have stores : Stores e f db (wiredChange e name r) t (wiredEntriesOf e r) :=
      ⟨admitted, calm.tableInfo, fresh, calm.insert, fits⟩
    refine .inr ⟨incomingRow_names .., fits, (applyChange_stores stores).trans ?_, fun s member clash => ?_⟩
    · rw [h.remote]
      rfl
    · have same := Table.key_of_conflict schema.only_id schema.binary clash
      refine ⟨same, fun l dated => ⟨r.date, stamp, ?_⟩⟩
      have regular : (wiredChange e name r).Regular := h.regular
      have names := regular.named schema.keyed (wiredChange_data ..) h.param same
      rw [h.remote] at fresh
      exact (lt_of_not_stale present member calm.select names dated fresh).le
  | true =>
    left
    have rejected := not_stores_of_stale (wiredChange_data e name r) fresh
    refine ⟨(h.check schema.toSyncedSchema present calm).resolve_right fun passes => ?_, applyChange_rejects rejected⟩
    obtain ⟨_, u, entries, admitted', not_stale, _⟩ := checkChange_ok.mp passes
    obtain rfl : wiredEntriesOf e r = entries := Json.object.inj admitted'.data
    rw [not_stale] at fresh
    cases fresh

/-- Exported rows at the other node: each row held afterwards was there before or has the timestamp
of a stored one, and each exported row is held in a version that is no older. -/
theorem applyChangesInner_exported {fs : List Faults} (calm : ∀ f ∈ fs, f.Calm) {db : Database} {t : Table}
    {rows : List Row} (report : ApplyReport) (schema : QuietSchema name t.schema) (present : db.tables name = some t)
    (kept : ∀ r ∈ t.rows, Relayable e t.schema r)
    (exported : ∀ r ∈ rows, Relayable e t.schema r ∧ t.schema.accepts r = true) :
    let done := (applyChangesInner e fs db (rows.map (wiredChange e name)) report).1
    let outcomes := (iterations e fs db (rows.map (wiredChange e name))).map (·.outcome e)
    ∃ t', done.tables name = some t' ∧ t'.schema = t.schema ∧ (∀ r ∈ t'.rows, Relayable e t.schema r) ∧
      (∀ s ∈ t'.rows, s ∈ t.rows ∨ .stored (some s.date) ∈ outcomes ∧ ∃ r ∈ rows, s.date = r.date) ∧
      Keeps name db done ∧ ∀ r ∈ rows, HeldAt done name r := by
  induction rows generalizing fs db t report with
  | nil =>
    exact ⟨t, present, rfl, kept, fun s member => .inl member, .refl _ _, fun r listed => nomatch listed⟩
  | cons r rest ih =>
    obtain ⟨good, accepted⟩ := exported r List.mem_cons_self
    have later := fun s listed => exported s (List.mem_cons_of_mem _ listed)
    have calm_first := Faults.calm_headD calm
    have calm_rest := Faults.calm_tail calm
    rcases good.apply calm_first schema accepted present with ⟨held, same⟩ | ⟨shape, fits, stored, displaces⟩
    · obtain ⟨t', final, schema', kept', sources, keeps, all⟩ :=
        ih calm_rest (report.record (applyChange e (fs.headD {}) db (wiredChange e name r)).2) schema present kept later
      simp only [List.map_cons, applyChangesInner, iterations, same]
      refine ⟨t', final, schema', kept', fun s member => (sources s member).imp_right ?_, keeps, fun s listed => ?_⟩
      · rintro ⟨out, x, listed, date⟩
        exact ⟨List.mem_cons_of_mem _ out, x, List.mem_cons_of_mem _ listed, date⟩
      · rcases List.mem_cons.mp listed with rfl | listed
        · exact keeps.held held
        · exact all s listed
    · set incoming := incomingRow e (fs.headD {}).defaults t (wiredEntriesOf e r)
      obtain ⟨relayable, key, stamp⟩ : Relayable e t.schema incoming ∧ incoming.key = r.key ∧
          incoming.stamp = some r.date := good.incoming schema.toStampedSchema _
      have present' := Database.setTable_tables_same db name (t.put incoming shape fits)
      have first : Keeps name db (db.setTable name (t.put incoming shape fits)) := displaces.keeps present
      have kept' : ∀ s ∈ (t.put incoming shape fits).rows, Relayable e t.schema s := by
        intro s member
        rcases Table.mem_put.mp member with ⟨old, _⟩ | rfl
        · exact kept s old
        · exact relayable
      obtain ⟨t', final, schema', kept', sources, keeps, all⟩ :=
        ih calm_rest (report.record (.stored (some r.date))) (t := t.put incoming shape fits) schema present' kept' later
      have outcome : Iteration.outcome e ⟨db, fs.headD {}, wiredChange e name r⟩ = .stored (some r.date) :=
        congrArg Prod.snd stored
      have date : incoming.date = r.date := Row.date_of_stamp stamp
      simp only [List.map_cons, applyChangesInner, iterations, stored, outcome]
      refine ⟨t', final, schema', kept', fun s member => ?_, first.trans keeps, fun s listed => ?_⟩
      · rcases sources s member with before | ⟨out, x, listed, same⟩
        · rcases Table.mem_put.mp before with ⟨old, _⟩ | rfl
          · exact .inl old
          · exact .inr ⟨date ▸ List.mem_cons_self, r, List.mem_cons_self, date⟩
        · exact .inr ⟨List.mem_cons_of_mem _ out, x, List.mem_cons_of_mem _ listed, same⟩
      · rcases List.mem_cons.mp listed with rfl | listed
        · have held : HeldAt (db.setTable name (t.put incoming shape fits)) name s :=
            ⟨_, present', _, Table.mem_put.mpr (.inr rfl), key, s.date, stamp, le_rfl⟩
          exact keeps.held held
        · exact all s listed

/-! ### The cursor after a round -/

theorem applyChangesDetailed_calm (e : Engine) {f : ApplyFaults} (calm : f.Calm) (db : Database)
    (changes : List SyncChange) : applyChangesDetailed e f db changes =
      ((applyChangesInner e f.changes db changes {}).1, .ok (applyChangesInner e f.changes db changes {}).2) := by
  cases changes with
  | nil => rfl
  | cons => simp [applyChangesDetailed, calm.pragmaOff, calm.pragmaOn]

theorem not_below_of_exchanged {since : Option String} {l : List SyncChange} {outcomes : List Outcome}
    {startAt u : String} (early : u ≤ startAt)
    (exchanged : (∃ c ∈ l, c.date = some u) ∨ .stored (some u) ∈ outcomes) :
    ¬Below (computeNewCursor since (maxUpdatedAt l) (outcomes.foldl ApplyReport.record {}).appliedMaxUpdatedAt startAt)
      u := by
  rw [computeNewCursor_below, maxUpdatedAt_below, report_below]
  rintro ⟨_, started | ⟨exported, _, stored⟩⟩
  · exact absurd started (not_lt.mpr early)
  · rcases exchanged with ⟨c, listed, dated⟩ | out
    · exact lt_irrefl u (exported c listed u dated)
    · exact lt_irrefl u (stored u out)

theorem capAt_of_le {startAt u : String} (early : u ≤ startAt) : capAt startAt u = u := by
  unfold capAt
  split
  · rfl
  · rename_i late
    exact le_antisymm (not_lt.mp late) early

theorem computeNewCursor_normalised {since exportedMax appliedMax : Option String} {startAt c : String}
    (previous : ∀ p, since = some p → 'T' ∉ p.toList)
    (exchanged : ∀ u, exportedMax = some u ∨ appliedMax = some u → u ≤ startAt ∧ 'T' ∉ u.toList)
    (h : computeNewCursor since exportedMax appliedMax startAt = some c) : 'T' ∉ c.toList := by
  rcases computeNewCursor_cases since exportedMax appliedMax startAt with
    ⟨_, kept⟩ | ⟨u, candidate, ⟨_, taken⟩ | ⟨p, prev, _, kept⟩⟩
  · exact previous c (kept.symm.trans h)
  · obtain ⟨early, free⟩ := exchanged u (cursorCandidate_mem candidate)
    rw [capAt_of_le early] at taken
    exact Option.some.inj (taken.symm.trans h) ▸ free
  · exact Option.some.inj (kept.symm.trans h) ▸ previous p prev

theorem pairRound_eq {f g : ApplyFaults} (calm : f.Calm) (calm' : g.Calm) {a b : Database} {peer startAt : String}
    {l r : List SyncChange} (exported : exportChangesSince e a name (a.syncMeta peer name) = .ok l)
    (fetched : exportChangesSince e (applyChangesInner e g.changes b (overWire e l) {}).1 name (a.syncMeta peer name) =
      .ok r) :
    pairRound e f g a b peer name startAt =
      ((upsertSyncMeta false (applyChangesInner e f.changes a (overWire e r) {}).1 peer name
          (computeNewCursor (a.syncMeta peer name) (maxUpdatedAt l)
            (applyChangesInner e f.changes a (overWire e r) {}).2.appliedMaxUpdatedAt startAt),
        (applyChangesInner e g.changes b (overWire e l) {}).1), l.length, r.length,
        (applyChangesInner e f.changes a (overWire e r) {}).2.applied) := by
  have completes : Completes e (honestIo e f g b name startAt l) a peer name l (overWire e r)
      (applyChangesInner e f.changes a (overWire e r) {}).2 := by
    refine ⟨⟨rfl, exported, fun _ => rfl, ?_⟩, congrArg Prod.snd (applyChangesDetailed_calm e calm a (overWire e r))⟩
    simp only [honestIo, getSyncMeta, Bool.false_eq_true, if_false, applyChanges_calm e calm', fetched]
  unfold pairRound
  rw [exported]
  dsimp only
  rw [syncTableWithPeer_completes completes, applyChanges_calm e calm']
  simp only [honestIo, applyChangesDetailed_calm e calm, overWire, List.length_map]
  rfl

theorem quiet_of_below {a b : Database} {peer : String} (exports : exportChangesSince e a name (a.syncMeta peer name) = .ok [])
    (fetches : exportChangesSince e b name (a.syncMeta peer name) = .ok []) : Quiet e a b peer name where
  exports := exports
  fetches := fetches
  round f g startAt := by
    have completes : Completes e (honestIo e f g b name startAt []) a peer name [] [] {} := by
      refine ⟨⟨rfl, exports, fun _ => rfl, ?_⟩, rfl⟩
      change (match exportChangesSince e b name (a.syncMeta peer name) with
        | .ok changes => Except.ok (overWire e changes)
        | .error _ => .error "changes parse failed: invalid type: null, expected a sequence") = .ok []
      rw [fetches]
      rfl
    have kept : computeNewCursor (a.syncMeta peer name) (maxUpdatedAt []) none startAt = a.syncMeta peer name := by
      rcases computeNewCursor_cases (a.syncMeta peer name) (maxUpdatedAt []) none startAt with
        ⟨_, kept⟩ | ⟨u, candidate, _⟩
      · exact kept
      · cases candidate
    have done : syncTableWithPeer e (honestIo e f g b name startAt []) a peer name = (a, 0, 0, 0) := by
      rw [syncTableWithPeer_completes completes]
      change (upsertSyncMeta false a peer name
        (computeNewCursor (a.syncMeta peer name) (maxUpdatedAt []) none startAt), 0, 0, 0) = (a, 0, 0, 0)
      rw [kept]
      cases stored : a.syncMeta peer name with
      | none => rfl
      | some c => rw [upsertSyncMeta, if_neg Bool.false_ne_true, Database.setMeta_same stored]
    unfold pairRound
    rw [exports]
    dsimp only
    rw [done]
    rfl

theorem toChange_date {r : Row} {sch : Schema} (h : Relayable e sch r) : (toChange name r).date = some r.date :=
  (remoteUpdatedAt_wiredEntriesOf e r).symm.trans h.remote

theorem overWire_toChange (rows : List Row) : overWire e (rows.map (toChange name)) = rows.map (wiredChange e name) :=
  List.map_map

/-- Rows a node holds with the schema `sch`, all of them relayable and accepted, and none newer than `bound`. -/
structure Holding (e : Engine) (name : String) (sch : Schema) (bound : String) (db : Database) (t : Table) : Prop where
  present : db.tables name = some t
  schema : t.schema = sch
  rows : ∀ r ∈ t.rows, Relayable e sch r
  early : ∀ r ∈ t.rows, r.date ≤ bound

theorem Holding.apply {fs : List Faults} (calm : ∀ f ∈ fs, f.Calm) {sch : Schema} {bound : String} {db : Database}
    {t : Table} {rows : List Row} (schema : QuietSchema name sch) (h : Holding e name sch bound db t)
    (exported : ∀ r ∈ rows, Relayable e sch r ∧ sch.accepts r = true ∧ r.date ≤ bound) :
    ∃ t', Holding e name sch bound (applyChangesInner e fs db (rows.map (wiredChange e name)) {}).1 t' ∧
      (∀ s ∈ t'.rows, s ∈ t.rows ∨
        .stored (some s.date) ∈ (iterations e fs db (rows.map (wiredChange e name))).map (·.outcome e)) ∧
      ∀ r ∈ rows, ∃ s ∈ t'.rows, r.date ≤ s.date := by
  obtain rfl := h.schema
  obtain ⟨t', final, same, kept, sources, _, held⟩ := applyChangesInner_exported calm {} schema h.present h.rows
    fun r listed => ⟨(exported r listed).1, (exported r listed).2.1⟩
  refine ⟨t', ⟨final, same, kept, fun s member => ?_⟩, fun s member => (sources s member).imp_right And.left,
    fun r listed => ?_⟩
  · rcases sources s member with old | ⟨_, r, listed, date⟩
    · exact h.early s old
    · exact date ▸ (exported r listed).2.2
  · obtain ⟨u, there, s, member, _, l, dated, newer⟩ := held r listed
    obtain rfl : t' = u := Option.some.inj (final.symm.trans there)
    exact ⟨s, member, Row.date_of_stamp dated ▸ newer⟩

theorem Holding.exports_nil {sch : Schema} {bound : String} {db : Database} {t : Table} {since : Option String}
    (schema : QuietSchema name sch) (h : Holding e name sch bound db t)
    (normalised : ∀ c, since = some c → 'T' ∉ c.toList) (none_above : ∀ r ∈ t.rows, ¬Below since r.date) :
    exportChangesSince e db name since = .ok [] := by
  obtain rfl := h.schema
  obtain ⟨rows, exported, mem_rows⟩ := exported_relayable schema.toSyncedSchema h.present h.rows normalised
  have empty : rows = [] := List.eq_nil_iff_forall_not_mem.mpr fun r listed => by
    obtain ⟨member, above⟩ := (mem_rows r).mp listed
    exact none_above r member above
  rw [exported, empty]
  rfl

theorem Holding.dates {sch : Schema} {bound : String} {db : Database} {t : Table} (h : Holding e name sch bound db t)
    {r : Row} (member : r ∈ t.rows) : r.date ≤ bound ∧ 'T' ∉ r.date.toList :=
  have date : (toChange name r).date = some r.date := toChange_date (h.rows r member)
  ⟨h.early r member, date_normalised date⟩

theorem wiredChange_date {r : Row} {sch : Schema} (h : Relayable e sch r) : (wiredChange e name r).date = some r.date :=
  h.remote

/-- After one round the next one exchanges nothing and changes nothing. -/
theorem pairRound_quiet {sch : Schema} {f g : ApplyFaults} (calm : f.Calm) (calm' : g.Calm) {a b : Database}
    {t u : Table} {peer startAt : String} (schema : QuietSchema name sch) (here : Holding e name sch startAt a t)
    (there : Holding e name sch startAt b u)
    (cursor : ∀ c, a.syncMeta peer name = some c → 'T' ∉ c.toList) :
    QuietAfter e f g a b peer name startAt := by
  have accepted : ∀ (db : Database) (v : Table), Holding e name sch startAt db v → ∀ r ∈ v.rows, sch.accepts r = true :=
    fun db v holding r member => holding.schema ▸ v.accepted r member
  have export_of : ∀ (db : Database) (v : Table), Holding e name sch startAt db v →
      ∃ rows : List Row, exportChangesSince e db name (a.syncMeta peer name) = .ok (rows.map (toChange name)) ∧
        ∀ r, r ∈ rows ↔ r ∈ v.rows ∧ Below (a.syncMeta peer name) r.date := by
    intro db v holding
    obtain rfl := holding.schema
    exact exported_relayable schema.toSyncedSchema holding.present holding.rows cursor
  obtain ⟨sent, exported, mem_sent⟩ := export_of a t here
  obtain ⟨u', there', _, _⟩ := there.apply calm'.changes schema fun r listed => by
    have member := ((mem_sent r).mp listed).1
    exact ⟨here.rows r member, accepted a t here r member, here.early r member⟩
  rw [← overWire_toChange] at there'
  obtain ⟨received, fetched, mem_received⟩ := export_of _ u' there'
  obtain ⟨t', here', sources, dominated⟩ := here.apply calm.changes schema fun r listed => by
    have member := ((mem_received r).mp listed).1
    exact ⟨there'.rows r member, accepted _ u' there' r member, there'.early r member⟩
  unfold QuietAfter
  rw [pairRound_eq calm calm' exported fetched, overWire_toChange received]
  set since := a.syncMeta peer name
  set outcomes := (iterations e f.changes a (received.map (wiredChange e name))).map (·.outcome e)
  have report : (applyChangesInner e f.changes a (received.map (wiredChange e name)) {}).2 =
      outcomes.foldl ApplyReport.record {} := applyChangesInner_report ..
  rw [report]
  set next := computeNewCursor since (maxUpdatedAt (sent.map (toChange name)))
    (outcomes.foldl ApplyReport.record {}).appliedMaxUpdatedAt startAt with next_eq
  have stored : (upsertSyncMeta false (applyChangesInner e f.changes a (received.map (wiredChange e name)) {}).1 peer name
      next).syncMeta peer name = next := by
    rw [upsertSyncMeta_same, applyChangesInner_syncMeta, next_eq]
    exact computeNewCursor_or ..
  have below_a : ∀ r ∈ t'.rows, ¬Below next r.date := by
    intro r member above
    have above' : Below since r.date := ((computeNewCursor_below ..).mp above).1
    refine not_below_of_exchanged (here'.early r member) ?_ above
    rcases sources r member with old | out
    · have listed := (mem_sent r).mpr ⟨old, above'⟩
      exact .inl ⟨toChange name r, List.mem_map_of_mem listed, toChange_date (here.rows r old)⟩
    · exact .inr out
  have below_b : ∀ r ∈ u'.rows, ¬Below next r.date := by
    intro r member above
    have above' : Below since r.date := ((computeNewCursor_below ..).mp above).1
    obtain ⟨s, held, newer⟩ := dominated r ((mem_received r).mpr ⟨member, above'⟩)
    exact below_a s held fun c reached => (above c reached).trans_le newer
  have normalised : ∀ c, next = some c → 'T' ∉ c.toList := by
    intro c reached
    refine computeNewCursor_normalised cursor (fun v exchanged => ?_) reached
    rcases exchanged with largest | largest
    · rw [maxUpdatedAt_eq] at largest
      obtain ⟨change, listed, dated⟩ := List.mem_filterMap.mp (List.max?_eq_some_iff.mp largest).1
      obtain ⟨r, source, rfl⟩ := List.mem_map.mp listed
      have member := ((mem_sent r).mp source).1
      obtain rfl := Option.some.inj ((toChange_date (here.rows r member)).symm.trans dated)
      exact here.dates member
    · obtain ⟨i, member, out⟩ := List.mem_map.mp ((report_mem largest).resolve_left fun none => nomatch none)
      obtain ⟨r, source, change⟩ := List.mem_map.mp (change_mem_of_iteration member)
      have held := ((mem_received r).mp source).1
      have dated := i.outcome_date out
      rw [← change, wiredChange_date (there'.rows r held)] at dated
      obtain rfl := Option.some.inj dated
      exact there'.dates held
  refine quiet_of_below ?_ ?_
  · rw [stored]
    have kept : Holding e name sch startAt (upsertSyncMeta false
        (applyChangesInner e f.changes a (received.map (wiredChange e name)) {}).1 peer name next) t' :=
      { here' with present := by rw [upsertSyncMeta_tables, here'.present] }
    exact kept.exports_nil schema normalised below_a
  · rw [stored]
    exact there'.exports_nil schema normalised below_b

theorem plansTable_holding {rows : List (Int64 × String × String)}
    {distinct : (rows.map fun p => plan p.1 p.2.1 p.2.2).Pairwise fun r s => plansSchema.conflict r s = false}
    {bound : String} (early : ∀ r ∈ (plansTable rows distinct).rows, r.date ≤ bound) :
    Holding sampleEngine "plans" plansSchema bound (plansDb (plansTable rows distinct)) (plansTable rows distinct) where
  present := rfl
  schema := rfl
  rows r member := by
    obtain ⟨p, _, rfl⟩ := List.mem_map.mp member
    exact plan_relayable p.1 p.2.1 p.2.2
  early := early

def aTwelve : Database := plansDb aPlans

def bTwelve : Database :=
  plansDb (plansTable [(1, "b", "2026-04-21T12:00:00"), (2, "new", "2026-04-21 09:00:00")] (by decide))

theorem twelve_quiet :
    (pairRound sampleEngine {} {} aTwelve bTwelve "peer-b" "plans" "2026-04-21 13:00:00").2 = (2, 2, 1) ∧
      QuietAfter sampleEngine {} {} aTwelve bTwelve "peer-b" "plans" "2026-04-21 13:00:00" := by
  have schema : QuietSchema "plans" plansSchema := ⟨plansSchema_synced, rfl, fun _ => rfl⟩
  exact ⟨by decide, pairRound_quiet ApplyFaults.calm_none ApplyFaults.calm_none schema
    (plansTable_holding (by decide)) (plansTable_holding (by decide))
    fun _ none => nomatch none⟩

/-- A row with an unsafe column name is fetched and rejected in every round; and after a round from a
cursor with a `T` the same rows are exported again. -/
theorem rounds_never_quiet :
    ¬QuietAfter sampleEngine {} {} (spacedDb false) (spacedDb true) "peer-b" "plans" "2026-04-21 13:00:00" ∧
      ¬QuietAfter sampleEngine {} {} (aTwelve.setMeta "peer-b" "plans" "2026-04-21T11:00:00") bTwelve "peer-b" "plans"
        "2026-04-21 13:00:00" := by
  constructor <;> intro quiet
  · have counts := congrArg Prod.snd (quiet.round {} {} "2026-04-21 14:00:00")
    exact absurd counts (by decide)
  · have counts := congrArg Prod.snd (quiet.round {} {} "2026-04-21 14:00:00")
    exact absurd counts (by decide)

end ConvergioMesh
