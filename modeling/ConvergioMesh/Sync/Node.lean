import ConvergioMesh.Sync.Clock
import ConvergioMesh.Sync.Round
import ConvergioMesh.Sync.Writers

/-!
# A node and its peers

A node that syncs one table: local writes, its clock, imports from other nodes and the steps of its
rounds, in any order. Rounds follow one another, as the sync loop runs them. The peers' databases
change by the statements of their handlers, and otherwise freely.
-/

namespace ConvergioMesh

open Library

/-- How far a round has got: the cursor it read, the batch it exported. -/
inductive Phase where
  | opened
  | read (since : Option String)
  /-- The send is in flight; the peer's handler has got this far. -/
  | sending (since : Option String) (batch : List SyncChange) (handler : ApplyCall)
  | sent (since : Option String) (batch : List SyncChange)
  /-- The fetched changes are applied by this call. -/
  | applying (since : Option String) (batch : List SyncChange) (call : Nat)

structure Round where
  peer : String
  startAt : String
  phase : Phase

/-- Where a version of a row was last stored from. -/
inductive Origin where
  | here
  | peer (name : String)
  deriving DecidableEq

/-- The node, its peers, and a history that no step reads: the origin of every version, who sent the
changes of each call, what was sent successfully, and what was stored since the last export. -/
structure World where
  writers : Writers
  clock : UtcSecond
  round : Option Round := none
  peers : String → Database
  origins : List (Row × Origin) := []
  callers : List String := []
  sent : List (String × SyncChange) := []
  late : List Row := []

inductive Event where
  | tick (now : UtcSecond)
  /-- A local insert or update. -/
  | write (r : Row)
  /-- An import request arrives. -/
  | receive (peer : String) (changes : List SyncChange)
  /-- The next statement of a call. -/
  | run (call : Nat) (f : Faults)
  | openRound (peer : String)
  | readMeta (fault : Bool)
  | export
  /-- The next statement of the peer's handler. -/
  | deliver (f : Faults)
  | sendOk
  | fetch (changes : List SyncChange)
  | store
  /-- Export, send, fetch or upsert fails, or `applyChangesDetailed` returns an error. -/
  | abort
  | peerStep (peer : String) (db : Database)

/-- The row that the next statement of a call stores in a table. -/
def ApplyCall.stores (e : Engine) (f : Faults) (db : Database) (name : String) (c : ApplyCall) : Option Row :=
  c.pending.bind fun p =>
    if p.tableName = name ∧ f.insert = false then
      (db.tables name).bind fun t =>
        if t.schema.accepts (p.row e f.defaults t) then some (p.row e f.defaults t) else none
    else none

namespace World

abbrev db (w : World) : Database := w.writers.db

def origin (w : World) (r : Row) : Option Origin := w.origins.lookup r

def record (w : World) (r : Row) (o : Origin) : World :=
  { w with origins := (r, o) :: w.origins, late := r :: w.late }

def setPhase (w : World) (round : Round) (phase : Phase) : World :=
  { w with round := some { round with phase := phase } }

def setPeer (w : World) (peer : String) (db : Database) : World :=
  { w with peers := fun p => if p = peer then db else w.peers p }

@[simp] theorem setPhase_peers (w : World) (round : Round) (phase : Phase) : (w.setPhase round phase).peers = w.peers :=
  rfl

@[simp] theorem setPeer_peers_same (w : World) (peer : String) (db : Database) : (w.setPeer peer db).peers peer = db :=
  if_pos rfl

theorem setPeer_peers_other (w : World) {peer other : String} (db : Database) (different : other ≠ peer) :
    (w.setPeer peer db).peers other = w.peers other := if_neg different

def startCall (w : World) (peer : String) (changes : List SyncChange) : World :=
  { w with
    writers := ⟨w.db, w.writers.calls ++ [⟨changes, none, {}⟩]⟩
    callers := w.callers ++ [peer] }

def newCursor (startAt : String) (since : Option String) (batch : List SyncChange) (call : ApplyCall) : Option String :=
  computeNewCursor since (maxUpdatedAt batch) call.report.appliedMaxUpdatedAt startAt

def storeCursor (w : World) (table : String) (round : Round) (cursor : Option String) : World :=
  { w with writers := ⟨upsertSyncMeta false w.db round.peer table cursor, w.writers.calls⟩, round := none }

def step (e : Engine) (table : String) (w : World) : Event → Option World
  | .tick now => if w.clock ≤ now then some { w with clock := now } else none
  | .write r =>
    if r.cell "updated_at" = .text w.clock.format then
      (w.writers.step e (.write table r)).map fun ws => { w with writers := ws }.record r .here
    else none
  | .receive peer changes => some (w.startCall peer changes)
  | .run i f =>
    (w.writers.calls[i]?).bind fun c =>
      (w.writers.step e (.run i f)).map fun ws =>
        match c.stores e f w.db table with
        | some r => { w with writers := ws }.record r (.peer (w.callers.getD i ""))
        | none => { w with writers := ws }
  | .openRound peer =>
    match w.round with
    | none => some { w with round := some ⟨peer, w.clock.format, .opened⟩ }
    | some _ => none
  | .readMeta fault => w.round.bind fun round =>
    match round.phase with
    | .opened => some (w.setPhase round (.read (getSyncMeta fault w.db round.peer table)))
    | _ => none
  | .export => w.round.bind fun round =>
    match round.phase with
    | .read since =>
      match exportChangesSince e w.db table since with
      | .ok batch => some { w.setPhase round (.sending since batch ⟨overWire e batch, none, {}⟩) with late := [] }
      | .error _ => none
    | _ => none
  | .deliver f => w.round.bind fun round =>
    match round.phase with
    | .sending since batch handler =>
      (handler.next e f (w.peers round.peer)).map fun n =>
        (w.setPeer round.peer n.1).setPhase round (.sending since batch n.2)
    | _ => none
  | .sendOk => w.round.bind fun round =>
    match round.phase with
    | .sending since batch _ =>
      some { w.setPhase round (.sent since batch) with sent := batch.map (round.peer, ·) ++ w.sent }
    | _ => none
  | .fetch changes => w.round.bind fun round =>
    match round.phase with
    | .sent since batch =>
      some ((w.startCall round.peer changes).setPhase round (.applying since batch w.writers.calls.length))
    | _ => none
  | .store => w.round.bind fun round =>
    match round.phase with
    | .applying since batch i =>
      (w.writers.calls[i]?).bind fun call =>
        if call.finished then
          some (w.storeCursor table round (newCursor round.startAt since batch call))
        else none
    | _ => none
  | .abort => w.round.bind fun round =>
    match round.phase with
    | .applying _ _ i =>
      if (w.writers.calls[i]?).all (·.finished) then some { w with round := none } else none
    | _ => some { w with round := none }
  | .peerStep peer db => some (w.setPeer peer db)

inductive Step (e : Engine) (table : String) (w : World) : Event → World → Prop where
  | tick (now : UtcSecond) (later : w.clock ≤ now) : Step e table w (.tick now) { w with clock := now }
  | write (r : Row) (t : Table) (shape : r.names = t.schema.names) (fits : t.schema.accepts r = true)
      (present : w.db.tables table = some t) (stamped : r.cell "updated_at" = .text w.clock.format)
      (own : ∀ s ∈ t.rows, t.schema.conflict r s = true → t.schema.same "id" (r.cell "id") (s.cell "id") = true) :
      Step e table w (.write r)
        ({ w with writers := ⟨w.db.setTable table (t.put r shape fits), w.writers.calls⟩ }.record r .here)
  | receive (peer : String) (changes : List SyncChange) :
      Step e table w (.receive peer changes) (w.startCall peer changes)
  | quiet (i : Nat) (f : Faults) (c : ApplyCall) (n : Database × ApplyCall) (call : w.writers.calls[i]? = some c)
      (next : ApplyCall.Next e f w.db c n) (same : n.1.tables table = w.db.tables table) :
      Step e table w (.run i f) { w with writers := ⟨n.1, w.writers.calls.set i n.2⟩ }
  | stored (i : Nat) (f : Faults) (c : ApplyCall) (p : Pending) (t : Table) (call : w.writers.calls[i]? = some c)
      (stores : c.stores e f w.db table = some (p.row e f.defaults t)) (present : w.db.tables table = some t)
      (fits : t.schema.accepts (p.row e f.defaults t) = true) :
      Step e table w (.run i f)
        ({ w with writers := ⟨w.db.setTable table (t.put (p.row e f.defaults t) (Table.names_build ..) fits),
            w.writers.calls.set i ⟨c.rest, none, c.report.record (.stored p.updatedAt)⟩⟩ }.record (p.row e f.defaults t)
          (.peer (w.callers.getD i "")))
  | openRound (peer : String) (idle : w.round = none) :
      Step e table w (.openRound peer) { w with round := some ⟨peer, w.clock.format, .opened⟩ }
  | readMeta (fault : Bool) (round : Round) (active : w.round = some round) (phase : round.phase = .opened) :
      Step e table w (.readMeta fault) (w.setPhase round (.read (getSyncMeta fault w.db round.peer table)))
  | export (round : Round) (since : Option String) (batch : List SyncChange) (active : w.round = some round)
      (phase : round.phase = .read since) (exported : exportChangesSince e w.db table since = .ok batch) :
      Step e table w .export { w.setPhase round (.sending since batch ⟨overWire e batch, none, {}⟩) with late := [] }
  | deliver (f : Faults) (round : Round) (since : Option String) (batch : List SyncChange) (handler : ApplyCall)
      (n : Database × ApplyCall) (active : w.round = some round) (phase : round.phase = .sending since batch handler)
      (next : ApplyCall.Next e f (w.peers round.peer) handler n) :
      Step e table w (.deliver f) ((w.setPeer round.peer n.1).setPhase round (.sending since batch n.2))
  | sendOk (round : Round) (since : Option String) (batch : List SyncChange) (handler : ApplyCall)
      (active : w.round = some round) (phase : round.phase = .sending since batch handler) :
      Step e table w .sendOk
        { w.setPhase round (.sent since batch) with sent := batch.map (round.peer, ·) ++ w.sent }
  | fetch (changes : List SyncChange) (round : Round) (since : Option String) (batch : List SyncChange)
      (active : w.round = some round) (phase : round.phase = .sent since batch) :
      Step e table w (.fetch changes)
        ((w.startCall round.peer changes).setPhase round (.applying since batch w.writers.calls.length))
  | store (round : Round) (since : Option String) (batch : List SyncChange) (i : Nat) (call : ApplyCall)
      (active : w.round = some round) (phase : round.phase = .applying since batch i)
      (done : w.writers.calls[i]? = some call) (finished : call.finished = true) :
      Step e table w .store
        (w.storeCursor table round (newCursor round.startAt since batch call))
  | abort (round : Round) (active : w.round = some round) : Step e table w .abort { w with round := none }
  | peerStep (peer : String) (db : Database) : Step e table w (.peerStep peer db) (w.setPeer peer db)

end World

namespace ApplyCall

variable {e : Engine} {f : Faults} {db : Database} {name : String} {c : ApplyCall}

theorem stores_idle (idle : c.pending = none) : c.stores e f db name = none := by
  rw [stores, idle, Option.bind_none]

theorem stores_failed {p : Pending} (waiting : c.pending = some p)
    (refused : execInsert e f db p = (db, .rejected .insertFailed)) : c.stores e f db name = none := by
  rw [stores, waiting, Option.bind_some]
  split
  · rename_i aims
    obtain ⟨rfl, writes⟩ := aims
    cases present : db.tables p.tableName with
    | none => rfl
    | some t =>
      rw [Option.bind_some, if_neg]
      intro fits
      rw [execInsert_fits writes present fits] at refused
      cases (Prod.mk.inj refused).2
  · rfl

theorem stores_other {p : Pending} (waiting : c.pending = some p) (other : p.tableName ≠ name) :
    c.stores e f db name = none := by
  rw [stores, waiting, Option.bind_some, if_neg fun aims => other aims.1]

theorem stores_some {p : Pending} {t : Table} (waiting : c.pending = some p) (writes : f.insert = false)
    (present : db.tables p.tableName = some t) (fits : t.schema.accepts (p.row e f.defaults t) = true) :
    c.stores e f db p.tableName = some (p.row e f.defaults t) := by
  rw [stores, waiting, Option.bind_some, if_pos ⟨rfl, writes⟩, present, Option.bind_some, if_pos fits]

theorem stores_eq_some {r : Row} (h : c.stores e f db name = some r) :
    ∃ p t, c.pending = some p ∧ p.tableName = name ∧ db.tables name = some t ∧ r = p.row e f.defaults t := by
  obtain ⟨p, waiting, h⟩ := Option.bind_eq_some_iff.mp h
  split at h
  · rename_i aims
    obtain ⟨t, present, h⟩ := Option.bind_eq_some_iff.mp h
    split at h
    · exact ⟨p, t, waiting, aims.1, present, (Option.some.inj h).symm⟩
    · cases h
  · cases h

end ApplyCall

namespace World

theorem step_cases {e : Engine} {table : String} {w w' : World} {a : Event} (h : w.step e table a = some w') :
    Step e table w a w' := by
  cases a with
  | tick now =>
    dsimp only [step] at h
    split at h
    · rename_i later
      obtain rfl := Option.some.inj h
      exact .tick now later
    · cases h
  | write r =>
    dsimp only [step] at h
    split at h
    · rename_i stamped
      obtain ⟨ws, written, rfl⟩ := Option.map_eq_some_iff.mp h
      cases Writers.step_cases written with
      | write _ _ t shape fits present own => exact .write r t shape fits present stamped own
    · cases h
  | receive peer changes =>
    obtain rfl := Option.some.inj h
    exact .receive peer changes
  | run i f =>
    obtain ⟨c, call, h⟩ := Option.bind_eq_some_iff.mp h
    obtain ⟨ws, ran, rfl⟩ := Option.map_eq_some_iff.mp h
    cases Writers.step_cases ran with
    | run _ _ c' n call' next =>
      obtain rfl : c = c' := Option.some.inj (call.symm.trans call')
      cases next with
      | rejected change rest why idle first checked =>
        rw [ApplyCall.stores_idle idle]
        exact .quiet i f c _ call (.rejected change rest why idle first checked) rfl
      | checked change rest p idle first checked =>
        rw [ApplyCall.stores_idle idle]
        exact .quiet i f c _ call (.checked change rest p idle first checked) rfl
      | failed p waiting refused =>
        rw [ApplyCall.stores_failed waiting refused]
        exact .quiet i f c _ call (.failed p waiting refused) rfl
      | stored p t waiting present writes fits =>
        by_cases aims : p.tableName = table
        · subst table
          have stores := ApplyCall.stores_some waiting writes present fits
          rw [stores]
          exact .stored i f c p t call stores present fits
        · rw [ApplyCall.stores_other waiting aims]
          exact .quiet i f c _ call (.stored p t waiting present writes fits)
            (Database.setTable_tables_other _ _ (Ne.symm aims))
  | openRound peer =>
    dsimp only [step] at h
    split at h
    · rename_i idle
      obtain rfl := Option.some.inj h
      exact .openRound peer idle
    · cases h
  | readMeta fault =>
    obtain ⟨round, active, h⟩ := Option.bind_eq_some_iff.mp h
    split at h
    · rename_i phase
      obtain rfl := Option.some.inj h
      exact .readMeta fault round active phase
    · cases h
  | «export» =>
    obtain ⟨round, active, h⟩ := Option.bind_eq_some_iff.mp h
    split at h
    · rename_i since phase
      split at h
      · rename_i batch exported
        obtain rfl := Option.some.inj h
        exact .export round since batch active phase exported
      · cases h
    · cases h
  | deliver f =>
    obtain ⟨round, active, h⟩ := Option.bind_eq_some_iff.mp h
    split at h
    · rename_i since batch handler phase
      obtain ⟨n, next, rfl⟩ := Option.map_eq_some_iff.mp h
      exact .deliver f round since batch handler n active phase (ApplyCall.next_cases next)
    · cases h
  | sendOk =>
    obtain ⟨round, active, h⟩ := Option.bind_eq_some_iff.mp h
    split at h
    · rename_i since batch handler phase
      obtain rfl := Option.some.inj h
      exact .sendOk round since batch handler active phase
    · cases h
  | fetch changes =>
    obtain ⟨round, active, h⟩ := Option.bind_eq_some_iff.mp h
    split at h
    · rename_i since batch phase
      obtain rfl := Option.some.inj h
      exact .fetch changes round since batch active phase
    · cases h
  | store =>
    obtain ⟨round, active, h⟩ := Option.bind_eq_some_iff.mp h
    split at h
    · rename_i since batch i phase
      obtain ⟨call, done, h⟩ := Option.bind_eq_some_iff.mp h
      split at h
      · rename_i finished
        obtain rfl := Option.some.inj h
        exact .store round since batch i call active phase done finished
      · cases h
    · cases h
  | abort =>
    obtain ⟨round, active, h⟩ := Option.bind_eq_some_iff.mp h
    split at h
    · split at h
      · obtain rfl := Option.some.inj h
        exact .abort round active
      · cases h
    · obtain rfl := Option.some.inj h
      exact .abort round active
  | peerStep peer db =>
    obtain rfl := Option.some.inj h
    exact .peerStep peer db

/-! ### A round that nothing interrupts -/

theorem run_call {e : Engine} (table : String) {i : Nat} {s t : Database × ApplyCall}
    (ran : Run (ApplyCall.alone e) (fun _ _ => True) s t) {w : World} (db : w.db = s.1)
    (call : w.writers.calls[i]? = some s.2) :
    ∃ w', Run (World.step e table) (fun _ _ => True) w w' ∧ w'.db = t.1 ∧ w'.writers.calls[i]? = some t.2 ∧
      w'.round = w.round := by
  induction ran with
  | refl => exact ⟨w, .refl w, db, call, rfl⟩
  | @snoc t u f _ _ next ih =>
    obtain ⟨w₁, before, db₁, call₁, round₁⟩ := ih
    have moved : w₁.writers.step e (.run i f) = some ⟨u.1, w₁.writers.calls.set i u.2⟩ := by
      rw [Writers.step, call₁, Option.bind_some, show w₁.writers.db = t.1 from db₁, show t.2.next e f t.1 = some u from next, Option.map_some]
    have inside : i < w₁.writers.calls.length := (List.getElem?_eq_some_iff.mp call₁).1
    have stepped : ∃ w₂, w₁.step e table (.run i f) = some w₂ ∧ w₂.writers = ⟨u.1, w₁.writers.calls.set i u.2⟩ ∧
        w₂.round = w₁.round := by
      cases stores : t.2.stores e f w₁.db table <;>
        simp [step, call₁, moved, stores, record]
    obtain ⟨w₂, step₂, writers₂, round₂⟩ := stepped
    refine ⟨w₂, before.snoc trivial step₂, by rw [World.db, writers₂], ?_, round₂.trans round₁⟩
    rw [writers₂, List.getElem?_set_self inside]

/-- A round that completes is a run of the node. -/
theorem syncTableWithPeer_run {e : Engine} {table : String} {w : World} {io : RoundIo} {peer : String}
    {l r : List SyncChange} {report : ApplyReport} (h : Completes e io w.db peer table l r report)
    (idle : w.round = none) (start : io.roundStartAt = w.clock.format) :
    ∃ w', Run (World.step e table) (fun _ _ => True) w w' ∧ w'.round = none ∧
      w'.db = (syncTableWithPeer e io w.db peer table).1 := by
  obtain ⟨w₁, opened, round₁, writers₁⟩ : ∃ w₁, w.step e table (.openRound peer) = some w₁ ∧
      w₁.round = some ⟨peer, io.roundStartAt, .opened⟩ ∧ w₁.writers = w.writers :=
    ⟨{ w with round := some ⟨peer, w.clock.format, .opened⟩ }, by rw [step, idle], by rw [start], rfl⟩
  have since : getSyncMeta io.metaFault w₁.db peer table = getSyncMeta io.metaFault w.db peer table := by
    rw [db, writers₁]
  obtain ⟨w₂, read, round₂, writers₂⟩ : ∃ w₂, w₁.step e table (.readMeta io.metaFault) = some w₂ ∧
      w₂.round = some ⟨peer, io.roundStartAt, .read (getSyncMeta io.metaFault w.db peer table)⟩ ∧
      w₂.writers = w.writers := by
    rw [step, round₁, Option.bind_some]
    exact ⟨_, rfl, by rw [← since]; rfl, writers₁⟩
  have selected : exportChangesSince e w₂.db table (getSyncMeta io.metaFault w.db peer table) = .ok l := by
    rw [db, writers₂, h.exported]
  obtain ⟨w₃, exported, round₃, writers₃⟩ : ∃ w₃, w₂.step e table .export = some w₃ ∧
      w₃.round = some ⟨peer, io.roundStartAt, .sending (getSyncMeta io.metaFault w.db peer table) l ⟨overWire e l, none, {}⟩⟩ ∧
      w₃.writers = w.writers := by
    simp only [step, round₂, Option.bind_some, selected]
    exact ⟨_, rfl, rfl, writers₂⟩
  obtain ⟨w₄, sent, round₄, writers₄⟩ : ∃ w₄, w₃.step e table .sendOk = some w₄ ∧
      w₄.round = some ⟨peer, io.roundStartAt, .sent (getSyncMeta io.metaFault w.db peer table) l⟩ ∧
      w₄.writers = w.writers := by
    rw [step, round₃, Option.bind_some]
    exact ⟨_, rfl, rfl, writers₃⟩
  obtain ⟨w₅, fetched, round₅, writers₅⟩ : ∃ w₅, w₄.step e table (.fetch r) = some w₅ ∧
      w₅.round = some ⟨peer, io.roundStartAt,
        .applying (getSyncMeta io.metaFault w.db peer table) l w.writers.calls.length⟩ ∧
      w₅.writers = ⟨w.db, w.writers.calls ++ [⟨r, none, {}⟩]⟩ := by
    rw [step, round₄, Option.bind_some, ← writers₄]
    exact ⟨_, rfl, rfl, by rw [show w.db = w₄.db by rw [db, db, writers₄]]; rfl⟩
  have loop := ApplyCall.alone_run e io.applyFaults.changes w.db r {}
  rw [applyChangesDetailed_inner h.applied] at loop
  obtain ⟨w₆, applied, db₆, call₆, round₆⟩ := run_call table loop
    (show w₅.db = w.db by rw [db, writers₅])
    (show w₅.writers.calls[w.writers.calls.length]? = some _ by rw [writers₅, List.getElem?_concat_length])
  have before : Run (World.step e table) (fun _ _ => True) w w₆ :=
    ((((Run.single trivial opened).snoc trivial read).snoc trivial exported).snoc trivial sent).snoc trivial fetched
      |>.trans applied
  have active := round₆.trans round₅
  rw [syncTableWithPeer_completes h]
  cases fault : io.upsertFault with
  | false =>
    refine ⟨_, before.snoc trivial (a := .store) (by
      simp only [step, active, Option.bind_some, call₆, ApplyCall.finished, List.isEmpty_nil, Option.isNone_none,
        Bool.and_self, if_true]; rfl), rfl, ?_⟩
    rw [storeCursor, db, ← db₆]
    rfl
  | true =>
    refine ⟨_, before.snoc trivial (a := .abort) (by
      simp only [step, active, Option.bind_some, call₆, ApplyCall.finished, List.isEmpty_nil, Option.isNone_none,
        Bool.and_self, Option.all_some, if_true]; rfl), rfl, ?_⟩
    unfold upsertSyncMeta
    split <;> exact db₆

end World

end ConvergioMesh
