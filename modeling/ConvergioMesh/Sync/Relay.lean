import ConvergioMesh.Sync.Handler
import ConvergioMesh.Sync.Handover
import ConvergioMesh.Sync.Plans

/-!
# Relayed rows

Rows that arrived from a third node keep the timestamp of their writer, while the cursor of a peer
only counts what was exchanged with that peer.
-/

namespace ConvergioMesh

open Library

namespace World

/-- A row whose current version was stored from a node other than this peer. -/
structure ThirdRow (w : World) (table peer : String) (r : Row) : Prop where
  holds : w.Holds table r
  third : ∃ name, name ≠ peer ∧ w.origin r = some (.peer name)

def HeldBy (w : World) (table peer : String) (r : Row) : Prop := HeldAt (w.peers peer) table r

/-- Every row from a third node is held by the peer, or selected by the next export to it. -/
def Relayed (e : Engine) (w : World) (table peer : String) : Prop :=
  ∀ r, w.ThirdRow table peer r → w.HeldBy table peer r ∨
    ∀ t, w.db.tables table = some t → selects e t (w.db.syncMeta peer table) r = true

/-- Honest peers, and no transport or database error: a fetch returns the export of the peer as the wire carries
it, an import carries exported rows, a send succeeds once the handler has applied the batch, no constraint refuses
what the handler stores, and otherwise the peer keeps its ids and never goes back to an older version. -/
def Honest (e : Engine) (sch : Schema) (table peer : String) (w : World) : Event → Prop
  | .receive _ changes => Exported e sch table ⟨changes, none, {}⟩
  | .run _ f => f.Calm
  | .readMeta fault => fault = false
  | .deliver f => f.Calm ∧ ∀ name startAt since batch handler,
      w.round = some ⟨name, startAt, .sending since batch handler⟩ → Accepted e f table (w.peers name) handler
  | .sendOk => ∀ name startAt since batch handler,
      w.round = some ⟨name, startAt, .sending since batch handler⟩ → handler.finished = true
  | .fetch changes => Exported e sch table ⟨changes, none, {}⟩ ∧ ∀ name startAt since batch,
      w.round = some ⟨name, startAt, .sent since batch⟩ →
        ∃ exported, exportChangesSince e (w.peers name) table since = .ok exported ∧ changes = overWire e exported
  | .abort => False
  | .peerStep name db => name = peer → Keeps table (w.peers peer) db ∧ ∀ t, db.tables table = some t → t.schema = sch
  | .tick _ | .write _ | .openRound _ | .export | .store => True

/-- A row stored from a third node is above the cursor of the peer or held by it; so is, when the
cursor moves, each one stored since the export; and what the handler of the peer stores displaces only
older versions of its id. -/
def Unpassed (e : Engine) (table peer : String) (w : World) : Event → Prop
  | .run i f => ∀ c r, w.writers.calls[i]? = some c → c.stores e f w.db table = some r → w.callers.getD i "" ≠ peer →
      w.HeldBy table peer r ∨ Below (w.db.syncMeta peer table) r.date
  | .deliver f => ∀ startAt since batch handler, w.round = some ⟨peer, startAt, .sending since batch handler⟩ →
      Displaces e f table (w.peers peer) handler
  | .store => ∀ startAt since batch i call, w.round = some ⟨peer, startAt, .applying since batch i⟩ →
      w.writers.calls[i]? = some call → ∀ r ∈ w.late, w.ThirdRow table peer r → ¬w.HeldBy table peer r →
        startAt < r.date ∨ Below (maxUpdatedAt batch) r.date ∧ Below call.report.appliedMaxUpdatedAt r.date
  | _ => True

structure Unsynced (sch : Schema) (table peer : String) (w : World) : Prop where
  here : w.db.HasTable table sch
  there : (w.peers peer).HasTable table sch
  idle : w.round = none
  unsynced : w.db.syncMeta peer table = none
  calls : w.writers.calls = []
  origins : w.origins = []

structure Relays (e : Engine) (sch : Schema) (table peer : String) (w : World) : Prop where
  here : w.db.HasTable table sch
  there : (w.peers peer).HasTable table sch
  calls : ∀ c ∈ w.writers.calls, Exported e sch table c
  rows : ∀ r, w.ThirdRow table peer r → Relayable e sch r
  handler : ∀ startAt since batch handler, w.round = some ⟨peer, startAt, .sending since batch handler⟩ →
    Accounted e sch table (overWire e batch) (w.peers peer) handler
  sound : (w.outbox table peer (w.ThirdRow table peer) (w.HeldBy table peer)).Sound Row.date

theorem Unsynced.relays {e : Engine} {sch : Schema} {table peer : String} {w : World} (h : w.Unsynced sch table peer) :
    w.Relays e sch table peer where
  here := h.here
  there := h.there
  calls := by simp [h.calls]
  rows r row := by
    obtain ⟨name, _, origin⟩ := row.third
    rw [World.origin, h.origins] at origin
    cases origin
  handler _ _ _ _ active := by rw [h.idle] at active; cases active
  sound := sound_of_unsynced h.idle h.unsynced

variable {e : Engine} {sch : Schema} {table peer : String} {w w' : World} {a : Event}

theorem Step.hasTable (h : Step e table w a w') (here : w.db.HasTable table sch) : w'.db.HasTable table sch := by
  obtain ⟨t, present, rfl⟩ := here
  cases h with
  | write r u shape fits there | stored i f c p u call stores there fits =>
    obtain rfl : t = u := Option.some.inj (present.symm.trans there)
    exact ⟨_, Database.setTable_tables_same .., rfl⟩
  | quiet i f c n call next same => exact ⟨t, same.trans present, rfl⟩
  | store => exact ⟨t, (congrFun (upsertSyncMeta_tables ..) table).trans present, rfl⟩
  | _ => exact ⟨t, present, rfl⟩

theorem Relays.calls_step (inv : w.Relays e sch table peer) (honest : Honest e sch table peer w a)
    (h : Step e table w a w') : ∀ c ∈ w'.writers.calls, Exported e sch table c := by
  cases h with
  | receive sender changes => exact forall_append inv.calls honest
  | fetch changes round since batch active phase => exact forall_append inv.calls honest.1
  | quiet i f c n call next same =>
    exact forall_set inv.calls ((inv.calls c (List.mem_of_getElem? call)).next inv.here next)
  | stored i f c p t call stores present fits =>
    exact forall_set inv.calls
      ⟨(inv.calls c (List.mem_of_getElem? call)).rest, fun q none_left => nomatch none_left⟩
  | _ => exact inv.calls

/-- A row from a third node was there before, or a call has just stored it for an exported one. -/
theorem Relays.thirdRow_step (inv : w.Relays e sch table peer) (h : Step e table w a w') {r : Row}
    (row : w'.ThirdRow table peer r) : w.ThirdRow table peer r ∨
      ∃ i f c t s, a = .run i f ∧ w.writers.calls[i]? = some c ∧ c.stores e f w.db table = some r ∧
        w.callers.getD i "" ≠ peer ∧ r ∈ w'.late ∧
        t.schema = sch ∧ Relayable e sch s ∧ r = incomingRow e f.defaults t (wiredEntriesOf e s) := by
  obtain ⟨name, other, origin⟩ := row.third
  rcases h.holds row.holds with ⟨old, same⟩ | ⟨_, _, from_here, _⟩ | ⟨i, f, c, ran, call, stores, from_caller, late⟩
  · exact .inl ⟨old, name, other, same ▸ origin⟩
  · rw [from_here] at origin
    cases origin
  · right
    obtain ⟨p, t, waiting, aims, present, formed⟩ := ApplyCall.stores_eq_some stores
    obtain ⟨s, relayable, describes⟩ := (inv.calls c (List.mem_of_getElem? call)).pending p waiting aims
    obtain ⟨u, there, schema⟩ := inv.here
    obtain rfl : u = t := Option.some.inj (there.symm.trans present)
    obtain rfl : w.callers.getD i "" = name := Origin.peer.inj (Option.some.inj (from_caller.symm.trans origin))
    exact ⟨i, f, c, u, s, ran, call, stores, other, late, schema, relayable, formed.trans (describes f.defaults u schema)⟩

theorem Relays.rows_step (schema : SyncedSchema table sch) (inv : w.Relays e sch table peer) (h : Step e table w a w') :
    ∀ r, w'.ThirdRow table peer r → Relayable e sch r := by
  intro r row
  rcases inv.thirdRow_step h row with old | ⟨_, f, _, t, s, _, _, _, _, _, rfl, relayable, rfl⟩
  · exact inv.rows r old
  · exact (relayable.incoming schema.toStampedSchema f.defaults).1

/-- A statement of the peer's handler loses no row of the batch and takes nothing back. -/
theorem Relays.deliver (schema : SyncedSchema table sch) (inv : w.Relays e sch table peer) {f : Faults}
    (honest : Honest e sch table peer w (.deliver f)) (unpassed : Unpassed e table peer w (.deliver f))
    {startAt : String} {since : Option String} {batch : List SyncChange} {handler : ApplyCall}
    (active : w.round = some ⟨peer, startAt, .sending since batch handler⟩) {n : Database × ApplyCall}
    (next : ApplyCall.Next e f (w.peers peer) handler n) :
    Accounted e sch table (overWire e batch) n.1 n.2 ∧ Keeps table (w.peers peer) n.1 := by
  obtain ⟨calm, accepted⟩ := honest
  exact (inv.handler startAt since batch handler active).next schema calm (accepted _ _ _ _ _ active)
    (unpassed startAt since batch handler active) next

theorem Relays.keeps_step (schema : SyncedSchema table sch) (inv : w.Relays e sch table peer)
    (honest : Honest e sch table peer w a) (unpassed : Unpassed e table peer w a) (h : Step e table w a w') :
    Keeps table (w.peers peer) (w'.peers peer) := by
  cases h with
  | deliver f round since batch handler n active phase next =>
    by_cases this : round.peer = peer
    · obtain ⟨name, startAt, stage⟩ := round
      subst this phase
      simpa using (inv.deliver schema honest unpassed active next).2
    · rw [setPhase_peers, setPeer_peers_other _ _ (Ne.symm this)]
      exact .refl _ _
  | peerStep name db =>
    by_cases this : name = peer
    · subst name
      simpa using (honest rfl).1
    · rw [setPeer_peers_other _ _ (Ne.symm this)]
      exact .refl _ _
  | _ => exact .refl _ _

theorem Relays.there_step (schema : SyncedSchema table sch) (inv : w.Relays e sch table peer)
    (honest : Honest e sch table peer w a) (unpassed : Unpassed e table peer w a) (h : Step e table w a w') :
    (w'.peers peer).HasTable table sch := by
  cases h with
  | deliver f round since batch handler n active phase next =>
    by_cases this : round.peer = peer
    · obtain ⟨name, startAt, stage⟩ := round
      subst this phase
      simpa using (inv.deliver schema honest unpassed active next).1.table
    · rw [setPhase_peers, setPeer_peers_other _ _ (Ne.symm this)]
      exact inv.there
  | peerStep name db =>
    by_cases this : name = peer
    · subst name
      obtain ⟨keeps, same⟩ := honest rfl
      obtain ⟨t, present, _⟩ := inv.there
      obtain ⟨t', present', _⟩ := keeps t present
      rw [setPeer_peers_same]
      exact ⟨t', present', same t' present'⟩
    · rw [setPeer_peers_other _ _ (Ne.symm this)]
      exact inv.there
  | _ => exact inv.there

theorem Relays.handler_step (schema : SyncedSchema table sch) (inv : w.Relays e sch table peer)
    (honest : Honest e sch table peer w a) (unpassed : Unpassed e table peer w a) (h : Step e table w a w') :
    ∀ startAt since batch handler, w'.round = some ⟨peer, startAt, .sending since batch handler⟩ →
      Accounted e sch table (overWire e batch) (w'.peers peer) handler := by
  intro startAt since batch handler active
  have keeps := inv.keeps_step schema honest unpassed h
  have there := inv.there_step schema honest unpassed h
  cases h with
  | «export» round since' batch' before phase exported =>
    cases active
    obtain ⟨t, present, _⟩ := inv.here
    refine ⟨there, fun change listed => ?_, (fun p none_yet => nomatch none_yet), fun r _ inside => .inr (.inl inside)⟩
    obtain ⟨sent, selected, rfl⟩ := List.mem_map.mp listed
    obtain ⟨r, _, _, rfl⟩ := (mem_export present exported).mp selected
    rfl
  | deliver f round since' batch' handler' n before phase next =>
    cases active
    obtain ⟨name, startAt, stage⟩ := round
    subst phase
    simpa using (inv.deliver schema honest unpassed before next).1
  | peerStep name db => exact (inv.handler startAt since batch handler active).mono keeps there
  | openRound | readMeta | sendOk | fetch | store | abort => cases active
  | tick | write | receive | quiet | stored => exact inv.handler startAt since batch handler active

theorem Relays.sound_step (schema : SyncedSchema table sch) (inv : w.Relays e sch table peer)
    (honest : Honest e sch table peer w a) (unpassed : Unpassed e table peer w a) (h : Step e table w a w') :
    (w'.outbox table peer (w'.ThirdRow table peer) (w'.HeldBy table peer)).Sound Row.date := by
  have keeps := inv.keeps_step schema honest unpassed h
  refine h.sound (·.ThirdRow table peer) (·.HeldBy table peer) inv.sound
    (fun r row => ⟨row.holds, (inv.rows r row).stamp⟩) ?_ (fun r => keeps.held) ?_ ?_
  · intro r row
    rcases inv.thirdRow_step h row with old | ⟨i, f, c, _, _, rfl, call, stores, other, late, _⟩
    · exact .inl old
    · exact .inr ⟨late, (unpassed c r call stores other).imp_left keeps.held⟩
  · rintro startAt since batch handler rfl active r row inside
    have before : w.ThirdRow table peer r := by
      rcases inv.thirdRow_step h row with old | ⟨_, _, _, _, _, no_run, _⟩
      · exact old
      · cases no_run
    exact keeps.held ((inv.handler startAt since batch handler active).held
      (honest peer startAt since batch handler active) (inv.rows r before) (mem_overWire inside))
  · rintro startAt since batch i call rfl active finds r row late unheld above
    have before : w.ThirdRow table peer r := by
      rcases inv.thirdRow_step h row with old | ⟨_, _, _, _, _, no_run, _⟩
      · exact old
      · cases no_run
    exact (computeNewCursor_below ..).mpr
      ⟨above, unpassed startAt since batch i call active finds r late before fun held => unheld (keeps.held held)⟩

theorem Relays.step (schema : SyncedSchema table sch) (inv : w.Relays e sch table peer)
    (honest : Honest e sch table peer w a) (unpassed : Unpassed e table peer w a) (h : Step e table w a w') :
    w'.Relays e sch table peer where
  here := h.hasTable inv.here
  there := inv.there_step schema honest unpassed h
  calls := inv.calls_step honest h
  rows := inv.rows_step schema h
  handler := inv.handler_step schema honest unpassed h
  sound := inv.sound_step schema honest unpassed h

theorem Relays.relayed (inv : w.Relays e sch table peer) : Relayed e w table peer := by
  intro r row
  refine (inv.sound.covered r row).imp_right fun above t present => ?_
  obtain ⟨u, there, member⟩ := row.holds
  obtain rfl := Option.some.inj (present.symm.trans there)
  exact selects_of_above member (inv.rows r row).stamp above

/-- In every run of honest peers without errors in which no row is stored below a cursor, every row from
a third node is held by the peer or still to be sent. -/
theorem thirdRows_relayed (schema : SyncedSchema table sch) {w₀ : World} (start : w₀.Unsynced sch table peer)
    (run : Run (World.step e table) (fun w a => Honest e sch table peer w a ∧ Unpassed e table peer w a) w₀ w) :
    Relayed e w table peer :=
  (run.invariant (fun _ _ _ inv ok h => Relays.step schema inv ok.1 ok.2 (step_cases h)) start.relays).relayed

def ten : World where
  writers := ⟨plansDb noPlans, []⟩
  clock := .april21 10
  peers name := if name = "peer-b" then plansDb (plansTable [(1, "b", "2026-04-21 09:00:00")] (by decide)) else plansDb noPlans

/-- A round with the peer, and then an import from another node. -/
def roundThenImport (updatedAt : String) : List Event :=
  [.openRound "peer-b", .readMeta false, .export, .sendOk, .fetch [planChange 1 1 "b" "2026-04-21 09:00:00"],
    .run 0 {}, .run 0 {}, .store, .receive "peer-c" [planChange 2 2 "c" updatedAt], .run 1 {}, .run 1 {}]

/-- No fault, and a full fetch from the peer as it was at ten o'clock. -/
def calm (w : World) : Event → Bool
  | .run _ f => f = {}
  | .readMeta fault => !fault
  | .sendOk => w.round.all fun round =>
    match round.phase with
    | .sending _ _ handler => handler.finished
    | _ => true
  | .fetch _ => w.round.all fun round => round.peer = "peer-b" &&
    (match round.phase with
    | .sent since _ => since.isNone
    | _ => true) &&
    ((w.peers "peer-b").tables "plans").map (fun t => (t.schema.names, t.rows)) =
      some (plansSchema.names, [plan 1 "b" "2026-04-21 09:00:00"])
  | .deliver _ | .abort | .peerStep _ _ => false
  | _ => true

theorem plan_travels (e : Engine) (id : Int64) (name updatedAt : String) : Travels e (plan id name updatedAt) := by
  simp [Travels, plan]

theorem wiredChange_plan (e : Engine) (id : Int64) (name updatedAt : String) :
    wiredChange e "plans" (plan id name updatedAt) = planChange id id name updatedAt :=
  wiredChange_travels (plan_travels e id name updatedAt)

theorem planChange_exported (id : Int64) (name updatedAt : String) :
    Exported sampleEngine plansSchema "plans" ⟨[planChange id id name updatedAt], none, {}⟩ where
  rest _ listed _ := ⟨plan id name updatedAt, plan_relayable id name updatedAt,
    (List.mem_singleton.mp listed).trans (wiredChange_plan ..).symm⟩
  pending _ none_yet := nomatch none_yet

theorem export_onePlan {db : Database} {id : Int64} {name updatedAt : String}
    (h : (db.tables "plans").map (fun t => (t.schema.names, t.rows)) =
      some (plansSchema.names, [plan id name updatedAt])) :
    exportChangesSince sampleEngine db "plans" none = .ok [planChange id id name updatedAt] := by
  obtain ⟨t, present, same⟩ := Option.map_eq_some_iff.mp h
  obtain ⟨names, rows⟩ := Prod.mk.inj same
  rw [export_ok present (by decide) (by rw [names]; decide) (by simp), rows]
  rfl

theorem honest_of_calm {w : World} {a : Event} {updatedAt : String} (listed : a ∈ roundThenImport updatedAt)
    (h : calm w a = true) : Honest sampleEngine plansSchema "plans" "peer-b" w a := by
  cases a with
  | receive name changes =>
    obtain ⟨_, rfl⟩ : name = "peer-c" ∧ changes = [planChange 2 2 "c" updatedAt] := by
      simpa [roundThenImport] using listed
    exact planChange_exported 2 "c" updatedAt
  | run i f =>
    obtain rfl : f = {} := by simpa [calm] using h
    exact Faults.calm_none
  | readMeta fault =>
    cases fault with
    | false => rfl
    | true => cases h
  | sendOk =>
    intro name startAt since batch handler active
    simpa [calm, active] using h
  | fetch changes =>
    obtain rfl : changes = [planChange 1 1 "b" "2026-04-21 09:00:00"] := by simpa [roundThenImport] using listed
    refine ⟨planChange_exported 1 "b" _, fun name startAt since batch active => ?_⟩
    simp only [calm, active, Option.all_some, Bool.and_eq_true, decide_eq_true_eq, Option.isNone_iff_eq_none] at h
    obtain ⟨⟨rfl, rfl⟩, held⟩ := h
    exact ⟨_, export_onePlan held, congrArg (fun change => [change]) (wiredChange_plan sampleEngine 1 "b" _).symm⟩
  | deliver | abort | peerStep => cases h
  | tick | write | openRound | «export» | store => trivial

def above (w : World) : Event → Bool
  | .run i f => (w.writers.calls[i]?).all fun c => (c.stores sampleEngine f w.db "plans").all fun r =>
    w.callers.getD i "" = "peer-b" || decide (Below (w.db.syncMeta "peer-b" "plans") r.date)
  | .store => w.late.all fun r => w.origin r = some (.peer "peer-b")
  | .deliver _ => false
  | _ => true

theorem unpassed_of_above {w : World} {a : Event} (h : above w a = true) :
    Unpassed sampleEngine "plans" "peer-b" w a := by
  cases a with
  | run i f =>
    intro c r call stores other
    simp only [above, call, stores, Option.all_some, Bool.or_eq_true, decide_eq_true_eq] at h
    exact .inr (h.resolve_left other)
  | store =>
    intro startAt since batch i call _ _ r late row _
    obtain ⟨name, other, origin⟩ := row.third
    have from_peer : w.origin r = some (.peer "peer-b") := of_decide_eq_true (List.all_eq_true.mp h r late)
    exact absurd (Origin.peer.inj (Option.some.inj (origin.symm.trans from_peer))) other
  | deliver f => cases h
  | _ => trivial

theorem ten_unsynced : ten.Unsynced plansSchema "plans" "peer-b" :=
  ⟨⟨noPlans, rfl, rfl⟩, ⟨_, rfl, rfl⟩, rfl, rfl, rfl, rfl⟩

theorem laterImport_relayed : ∃ w, w.db.syncMeta "peer-b" "plans" = some "2026-04-21 09:00:00" ∧
    (w.db.tables "plans").map (·.rows) =
      some [plan 1 "b" "2026-04-21 09:00:00", plan 2 "c" "2026-04-21 09:30:00"] ∧
    Relayed sampleEngine w "plans" "peer-b" := by
  obtain ⟨w, ran, cursor, rows⟩ : ∃ w, replay (World.step sampleEngine "plans") (fun w a => calm w a && above w a) ten
      (roundThenImport "2026-04-21 09:30:00") = some w ∧
      w.db.syncMeta "peer-b" "plans" = some "2026-04-21 09:00:00" ∧
      (w.db.tables "plans").map (·.rows) =
        some [plan 1 "b" "2026-04-21 09:00:00", plan 2 "c" "2026-04-21 09:30:00"] := ⟨_, rfl, by decide, by decide⟩
  refine ⟨w, cursor, rows, thirdRows_relayed plansSchema_synced ten_unsynced ((replay_run ran).weaken ?_)⟩
  rintro w a ⟨listed, checked⟩
  obtain ⟨calm, above⟩ := Bool.and_eq_true_iff.mp checked
  exact ⟨honest_of_calm listed calm, unpassed_of_above above⟩

/-- The imported plan is older than the cursor of the peer, which never gets it. -/
theorem olderImport_not_relayed : ∃ w, ten.Unsynced plansSchema "plans" "peer-b" ∧
    Run (World.step sampleEngine "plans") (Honest sampleEngine plansSchema "plans" "peer-b") ten w ∧
    ¬Relayed sampleEngine w "plans" "peer-b" := by
  obtain ⟨w, ran, rows, origin, held, selected⟩ : ∃ w, replay (World.step sampleEngine "plans") calm ten
      (roundThenImport "2026-04-21 08:00:00") = some w ∧
      (w.db.tables "plans").map (·.rows) =
        some [plan 1 "b" "2026-04-21 09:00:00", plan 2 "c" "2026-04-21 08:00:00"] ∧
      w.origin (plan 2 "c" "2026-04-21 08:00:00") = some (.peer "peer-c") ∧
      ((w.peers "peer-b").tables "plans").map (·.rows) = some [plan 1 "b" "2026-04-21 09:00:00"] ∧
      (w.db.tables "plans").map (fun t =>
        selects sampleEngine t (w.db.syncMeta "peer-b" "plans") (plan 2 "c" "2026-04-21 08:00:00")) = some false :=
    ⟨_, rfl, by decide, by decide, by decide, by decide⟩
  refine ⟨w, ten_unsynced, (replay_run ran).weaken fun _ _ ok => honest_of_calm ok.1 ok.2, fun relayed => ?_⟩
  obtain ⟨t, present, rows⟩ := Option.map_eq_some_iff.mp rows
  have row : w.ThirdRow "plans" "peer-b" (plan 2 "c" "2026-04-21 08:00:00") := by
    refine ⟨⟨t, present, ?_⟩, "peer-c", by decide, origin⟩
    rw [rows]
    decide
  rcases relayed _ row with ⟨u, there, s, member, same, _⟩ | all
  · obtain ⟨u', there', held⟩ := Option.map_eq_some_iff.mp held
    obtain rfl := Option.some.inj (there.symm.trans there')
    rw [held] at member
    obtain rfl := List.mem_singleton.mp member
    exact absurd same (by decide)
  · rw [present, Option.map_some, all t present] at selected
    cases selected

end World

end ConvergioMesh
