import ConvergioMesh.Sync.Handover
import ConvergioMesh.Sync.Plans

/-!
# Local writes and the cursor

A row written on the node is either part of a successful send to a peer or above the cursor of that
peer, as long as no write shares its second with the cursor.
-/

namespace ConvergioMesh

open Library

namespace World

def WrittenHere (w : World) (r : Row) : Prop := ∀ name, w.origin r ≠ some (.peer name)

def Sent (w : World) (table peer : String) (r : Row) : Prop := (peer, toChange table r) ∈ w.sent

structure LocalRow (w : World) (table : String) (r : Row) : Prop where
  holds : w.Holds table r
  dated : r.stamp = some r.date
  writtenHere : w.WrittenHere r

/-- Every local row at or below the cursor was sent, and the next export selects every other one. -/
def CursorSafe (e : Engine) (w : World) (table peer : String) : Prop :=
  ∀ r, w.LocalRow table r →
    (∀ c, w.db.syncMeta peer table = some c → r.date ≤ c → w.Sent table peer r) ∧
      (¬w.Sent table peer r → ∀ t, w.db.tables table = some t → selects e t (w.db.syncMeta peer table) r = true)

/-- No write shares its second with the stored cursor. When a cursor is stored, each row written since
the export that was not sent is younger than the second the round started in, or than everything the
round exchanged. -/
def SecondsApart (table peer : String) (w : World) : Event → Prop
  | .write r => w.Sent table peer r ∨ w.db.syncMeta peer table ≠ some w.clock.format
  | .store => ∀ startAt since batch i call, w.round = some ⟨peer, startAt, .applying since batch i⟩ →
      w.writers.calls[i]? = some call → ∀ r ∈ w.late, w.LocalRow table r → ¬w.Sent table peer r →
        startAt < r.date ∨ Below (maxUpdatedAt batch) r.date ∧ Below call.report.appliedMaxUpdatedAt r.date
  | _ => True

/-- No round yet, and no cursor for the peer. -/
structure Initial (w : World) (table peer : String) : Prop where
  idle : w.round = none
  unsynced : w.db.syncMeta peer table = none

structure Covers (w : World) (table peer : String) : Prop where
  cursor : ∀ c, w.db.syncMeta peer table = some c → c ≤ w.clock.format
  start : ∀ round, w.round = some round → round.startAt ≤ w.clock.format
  sound : (w.outbox table peer (w.LocalRow table) (w.Sent table peer)).Sound Row.date

theorem Initial.covers {w : World} {table peer : String} (h : w.Initial table peer) : w.Covers table peer where
  cursor c stored := by rw [h.unsynced] at stored; cases stored
  start round active := by rw [h.idle] at active; cases active
  sound := sound_of_unsynced h.idle h.unsynced

variable {e : Engine} {table peer : String} {w w' : World} {a : Event}

theorem Step.clock (h : Step e table w a w') : w.clock ≤ w'.clock := by
  cases h with
  | tick now later => exact later
  | _ => exact UtcSecond.le_self _

theorem Covers.since (inv : w.Covers table peer) {round : Round} {since : Option String} {batch : List SyncChange}
    {i : Nat} (active : w.round = some round) (this : round.peer = peer) (phase : round.phase = .applying since batch i) :
    ∀ c, since = some c → c ≤ w.clock.format := by
  have staged := inv.sound.staged
  rw [show (w.outbox table peer _ _).stage = .delivered since by
    simp only [outbox, stage, active, if_pos this, phase]] at staged
  rintro c rfl
  rcases staged.1 with nothing | stored
  · cases nothing
  · exact inv.cursor c stored.symm

theorem Covers.cursor_step (inv : w.Covers table peer) (h : Step e table w a w') :
    ∀ c, w'.db.syncMeta peer table = some c → c ≤ w'.clock.format := by
  intro c stored
  refine le_trans ?_ (UtcSecond.format_le h.clock)
  cases h with
  | store round since batch i call active phase finds finished =>
    have stored : (upsertSyncMeta false w.db round.peer table (newCursor round.startAt since batch call)).syncMeta
      peer table = some c := stored
    by_cases this : round.peer = peer
    · have read := inv.since active this phase
      subst peer
      rw [upsertSyncMeta_same] at stored
      cases cursor : newCursor round.startAt since batch call with
      | none =>
        rw [cursor, Option.none_or] at stored
        exact inv.cursor c stored
      | some d =>
        rw [cursor, Option.some_or] at stored
        obtain rfl := Option.some.inj stored
        exact computeNewCursor_le read (inv.start round active) cursor
    · rw [upsertSyncMeta_other _ _ _ (Ne.symm this)] at stored
      exact inv.cursor c stored
  | quiet i f d n call next same => exact inv.cursor c (next.syncMeta ▸ stored)
  | _ => exact inv.cursor c stored

theorem Covers.start_step (inv : w.Covers table peer) (h : Step e table w a w') :
    ∀ round, w'.round = some round → round.startAt ≤ w'.clock.format := by
  intro round active
  refine le_trans ?_ (UtcSecond.format_le h.clock)
  cases h with
  | openRound other free =>
    obtain rfl := Option.some.inj active
    exact le_rfl
  | readMeta fault old before | «export» old since batch before | sendOk old since batch handler before
  | deliver f old since batch handler n before | fetch changes old since batch before =>
    obtain rfl := Option.some.inj active
    exact inv.start old before
  | store | abort => cases active
  | _ => exact inv.start round active

theorem Sent.step (h : Step e table w a w') {r : Row} (sent : w.Sent table peer r) : w'.Sent table peer r := by
  cases h with
  | sendOk => exact List.mem_append_right _ sent
  | _ => exact sent

theorem Step.localRow (h : Step e table w a w') {r : Row} (here : w'.LocalRow table r) :
    w.LocalRow table r ∨ a = .write r ∧ r.date = w.clock.format ∧ r ∈ w'.late := by
  rcases h.holds here.holds with ⟨old, same⟩ | ⟨rfl, stamped, _, late⟩ | ⟨i, _, _, _, _, _, origin, _⟩
  · exact .inl ⟨old, here.dated, fun name => same ▸ here.writtenHere name⟩
  · refine .inr ⟨rfl, ?_, late⟩
    rw [Row.date, Row.stamp_of_cell stamped, UtcSecond.replaceT_format]
    rfl
  · exact absurd origin (here.writtenHere _)

theorem Covers.step (inv : w.Covers table peer) (apart : SecondsApart table peer w a) (h : Step e table w a w') :
    w'.Covers table peer := by
  refine ⟨inv.cursor_step h, inv.start_step h, h.sound (·.LocalRow table) (·.Sent table peer) inv.sound
    (fun r row => ⟨row.holds, row.dated⟩) ?_ (fun r => Sent.step h) ?_ ?_⟩
  · intro r here
    rcases h.localRow here with old | ⟨rfl, date, late⟩
    · exact .inl old
    · refine .inr ⟨late, apart.imp (Sent.step h) fun other c stored => ?_⟩
      rw [date]
      exact lt_of_le_of_ne (inv.cursor c stored) fun same => other (same ▸ stored)
  · rintro startAt since batch handler rfl active r _ inside
    cases h with
    | sendOk round since' batch' handler' active' phase =>
      obtain rfl := Option.some.inj (active.symm.trans active')
      cases phase
      exact List.mem_append_left _ (List.mem_map_of_mem inside)
  · rintro startAt since batch i call rfl active finds r here late unsent above
    have row : w.LocalRow table r := by
      rcases h.localRow here with old | ⟨no_write, _⟩
      · exact old
      · cases no_write
    exact (computeNewCursor_below ..).mpr
      ⟨above, apart startAt since batch i call active finds r late row fun sent => unsent (sent.step h)⟩

theorem Covers.cursorSafe (inv : w.Covers table peer) : CursorSafe e w table peer := by
  intro r row
  rcases inv.sound.covered r row with sent | above
  · exact ⟨fun _ _ _ => sent, fun unsent => absurd sent unsent⟩
  · refine ⟨fun c stored below => absurd (above c stored) (not_lt.mpr below), fun _ t present => ?_⟩
    obtain ⟨u, there, member⟩ := row.holds
    obtain rfl := Option.some.inj (present.symm.trans there)
    exact selects_of_above member row.dated above

/-- The step that first breaks the condition is the one that overtakes a row. -/
theorem Covers.cursorSafe_step_iff (inv : w.Covers table peer) (h : Step e table w a w') :
    CursorSafe e w' table peer ↔ SecondsApart table peer w a := by
  refine ⟨fun safe => ?_, fun apart => (inv.step apart h).cursorSafe⟩
  cases h with
  | write r t shape fits present stamped own =>
    by_contra shared
    obtain ⟨unsent, same⟩ := not_or.mp shared
    rw [not_not] at same
    have date : r.date = w.clock.format := by
      rw [Row.date, Row.stamp_of_cell stamped, UtcSecond.replaceT_format]
      rfl
    have holds : Holds ({ w with writers := ⟨w.db.setTable table (t.put r shape fits), w.writers.calls⟩ }.record r .here)
        table r := ⟨_, Database.setTable_tables_same .., Table.mem_put.mpr (.inr rfl)⟩
    have dated : r.stamp = some r.date := by rw [Row.date, Row.stamp_of_cell stamped]; rfl
    have row := LocalRow.mk holds dated fun name from_peer => by
      cases (origin_record _ r .here).symm.trans from_peer
    exact unsent ((safe r row).1 _ same date.le)
  | store round since batch i call active phase finds finished =>
    intro startAt since' batch' i' call' active' finds' r late row unsent
    obtain rfl := Option.some.inj (active.symm.trans active')
    cases phase
    obtain rfl := Option.some.inj (finds.symm.trans finds')
    by_contra reached
    have cursor : ¬Below (newCursor startAt since batch call) r.date :=
      fun below => reached ((computeNewCursor_below ..).mp below).2
    obtain ⟨c, computed, at_most⟩ : ∃ c, newCursor startAt since batch call = some c ∧ r.date ≤ c := by
      simpa only [Below, not_forall, not_lt, exists_prop] using cursor
    have stored := upsertSyncMeta_same w.db peer table (newCursor startAt since batch call)
    have holds : Holds (w.storeCursor table ⟨peer, startAt, .applying since batch i⟩ (newCursor startAt since batch call))
        table r := by
      obtain ⟨t, present, member⟩ := row.holds
      exact ⟨t, (congrFun (upsertSyncMeta_tables ..) table).trans present, member⟩
    exact unsent ((safe r ⟨holds, row.dated, row.writtenHere⟩).1 c
      (stored.trans (by rw [computed, Option.some_or])) at_most)
  | _ => trivial

/-- In every run in which no local write shares its second with a cursor, no local row is overtaken. -/
theorem localWrites_never_overtaken {w₀ : World} (initial : w₀.Initial table peer)
    (run : Run (World.step e table) (SecondsApart table peer) w₀ w) : CursorSafe e w table peer :=
  (run.invariant (fun _ _ _ inv apart h => Covers.step inv apart (step_cases h)) initial.covers).cursorSafe

/-- Local writes and rounds with this peer, and nothing else. -/
def oneOnOne (peer : String) (_ : World) : Event → Bool
  | .openRound other => other = peer
  | .receive _ _ | .peerStep _ _ => false
  | _ => true

def eight : World where
  writers := ⟨plansDb noPlans, []⟩
  clock := .april21 8
  peers _ := plansDb noPlans

/-- A round that sends the first plan, with a second one written after the export. -/
def roundWithLateWrite (late : UtcSecond) : List Event :=
  [.write (plan 1 "a" "2026-04-21 08:00:00"), .openRound "peer-b", .readMeta false, .export, .sendOk,
    .tick late, .write (plan 2 "b" late.format), .fetch [], .store]

def apart (w : World) : Event → Bool
  | .write _ => w.db.syncMeta "peer-b" "plans" ≠ some w.clock.format
  | .store => w.round.all fun round => w.late.all fun r => round.startAt < r.date
  | _ => true

theorem secondsApart_of_apart {w : World} {a : Event} (h : apart w a = true) : SecondsApart "plans" "peer-b" w a := by
  cases a with
  | write r => exact .inr (of_decide_eq_true h)
  | store =>
    intro startAt since batch i call active _ r late _ _
    have all := h
    simp only [apart, active, Option.all_some] at all
    exact .inl (of_decide_eq_true (List.all_eq_true.mp all r late))
  | _ => trivial

theorem lateWrite_cursorSafe : ∃ w, w.db.syncMeta "peer-b" "plans" = some "2026-04-21 08:00:00" ∧
    w.Holds "plans" (plan 2 "b" "2026-04-21 08:00:01") ∧ CursorSafe sampleEngine w "plans" "peer-b" := by
  obtain ⟨w, ran, cursor, rows⟩ : ∃ w, replay (World.step sampleEngine "plans") apart eight
      (roundWithLateWrite (.mk 2026 4 21 8 0 1)) = some w ∧
      w.db.syncMeta "peer-b" "plans" = some "2026-04-21 08:00:00" ∧
      (w.db.tables "plans").map (·.rows) =
        some [plan 1 "a" "2026-04-21 08:00:00", plan 2 "b" "2026-04-21 08:00:01"] := ⟨_, rfl, by decide, by decide⟩
  obtain ⟨t, present, rows⟩ := Option.map_eq_some_iff.mp rows
  refine ⟨w, cursor, ⟨t, present, by rw [rows]; decide⟩, ?_⟩
  exact localWrites_never_overtaken ⟨rfl, rfl⟩ ((replay_run ran).weaken fun _ _ listed => secondsApart_of_apart listed.2)

/-- The second plan is written in the second the round started in: the cursor reaches it unsent. -/
theorem lateWrite_overtaken : ∃ w, eight.Initial "plans" "peer-b" ∧
    Run (World.step sampleEngine "plans") (oneOnOne "peer-b" · ·) eight w ∧
      ¬CursorSafe sampleEngine w "plans" "peer-b" := by
  obtain ⟨w, ran, cursor, rows, origin, sent⟩ : ∃ w, replay (World.step sampleEngine "plans") (oneOnOne "peer-b") eight
      (roundWithLateWrite (.mk 2026 4 21 8 0 0)) = some w ∧
      w.db.syncMeta "peer-b" "plans" = some "2026-04-21 08:00:00" ∧
      (w.db.tables "plans").map (·.rows) =
        some [plan 1 "a" "2026-04-21 08:00:00", plan 2 "b" "2026-04-21 08:00:00"] ∧
      w.origin (plan 2 "b" "2026-04-21 08:00:00") = some .here ∧
      w.sent = [("peer-b", toChange "plans" (plan 1 "a" "2026-04-21 08:00:00"))] :=
    ⟨_, rfl, by decide, by decide, by decide, rfl⟩
  refine ⟨w, ⟨rfl, rfl⟩, (replay_run ran).weaken fun _ _ listed => listed.2, fun safe => ?_⟩
  obtain ⟨t, present, rows⟩ := Option.map_eq_some_iff.mp rows
  have here : w.WrittenHere (plan 2 "b" "2026-04-21 08:00:00") := by
    intro name from_peer
    rw [origin] at from_peer
    cases from_peer
  have row : w.LocalRow "plans" (plan 2 "b" "2026-04-21 08:00:00") := by
    refine ⟨⟨t, present, ?_⟩, by decide, here⟩
    rw [rows]
    decide
  have reached := (safe _ row).1 _ cursor (by decide)
  rw [Sent, sent, List.mem_singleton] at reached
  exact absurd (congrArg (fun s => s.2.pk.print sampleEngine.showReal) reached) (by decide)

end World

end ConvergioMesh
