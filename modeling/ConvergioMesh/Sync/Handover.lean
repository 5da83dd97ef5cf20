import ConvergioMesh.Sync.Node

/-!
# Rounds as hand-overs

For one peer, the node is an outbox: its cursor is the stored one, a round takes what the export
selects and delivers it with the send. Which rows are to be handed over, and when they are done, is
left open.
-/

namespace ConvergioMesh.World

open Library

/-- How far the current round has got with this peer. -/
def stage (w : World) (table peer : String) : Stage Row String :=
  match w.round with
  | none => .idle
  | some round =>
    if round.peer = peer then
      match round.phase with
      | .opened => .idle
      | .read since => .opened since
      | .sending since batch _ => .taken since fun r => toChange table r ∈ batch
      | .sent since _ => .delivered since
      | .applying since _ _ => .delivered since
    else .idle

def outbox (w : World) (table peer : String) (item done : Row → Prop) : Outbox Row String where
  cursor := w.db.syncMeta peer table
  item := item
  done := done
  late := (· ∈ w.late)
  stage := w.stage table peer

theorem stage_other {w : World} {table peer : String} {round : Round} (active : w.round = some round)
    (other : round.peer ≠ peer) : w.stage table peer = .idle := by
  simp only [stage, active, if_neg other]

theorem sound_of_unsynced {w : World} {table peer : String} {item done : Row → Prop} (idle : w.round = none)
    (unsynced : w.db.syncMeta peer table = none) : (w.outbox table peer item done).Sound Row.date := by
  refine ⟨fun r _ => .inr ?_, ?_⟩
  · rw [outbox, unsynced]
    exact below_none r.date
  · rw [outbox, stage, idle]
    trivial

theorem mem_batch {e : Engine} {db : Database} {table : String} {since : Option String} {batch : List SyncChange}
    {t : Table} {r : Row} (present : db.tables table = some t) (member : r ∈ t.rows) (dated : r.stamp = some r.date)
    (exported : exportChangesSince e db table since = .ok batch) (above : Below since r.date) :
    toChange table r ∈ batch :=
  (mem_export present exported).mpr ⟨r, member, selects_of_above member dated above, rfl⟩

def Holds (w : World) (table : String) (r : Row) : Prop := ∃ t, w.db.tables table = some t ∧ r ∈ t.rows

theorem origin_record (w : World) (r : Row) (o : Origin) : (w.record r o).origin r = some o := by
  simp [origin, record]

theorem origin_record_other (w : World) {r s : Row} (o : Origin) (other : s ≠ r) :
    (w.record r o).origin s = w.origin s := by
  have different : (s == r) = false := beq_false_of_ne other
  simp [origin, record, List.lookup_cons, different]

variable {e : Engine} {table peer : String} {w w' : World} {a : Event}

/-- Where the rows of the table come from: they were there before, or the step has stored them. -/
theorem Step.holds (h : Step e table w a w') {r : Row} (here : w'.Holds table r) :
    w.Holds table r ∧ w'.origin r = w.origin r ∨
      (a = .write r ∧ r.cell "updated_at" = .text w.clock.format ∧ w'.origin r = some .here ∧ r ∈ w'.late) ∨
      ∃ i f c, a = .run i f ∧ w.writers.calls[i]? = some c ∧ c.stores e f w.db table = some r ∧
        w'.origin r = some (.peer (w.callers.getD i "")) ∧ r ∈ w'.late := by
  obtain ⟨u, there, member⟩ := here
  cases h with
  | write s t shape fits present stamped own =>
    obtain rfl : t.put s shape fits = u := Option.some.inj ((Database.setTable_tables_same ..).symm.trans there)
    by_cases same : r = s
    · subst s
      exact .inr (.inl ⟨rfl, stamped, origin_record .., List.mem_cons_self⟩)
    · have old := (Table.mem_put.mp member).resolve_right same
      exact .inl ⟨⟨t, present, old.1⟩, origin_record_other _ _ same⟩
  | stored i f c p t call stores present fits =>
    obtain rfl : t.put (p.row e f.defaults t) _ fits = u :=
      Option.some.inj ((Database.setTable_tables_same ..).symm.trans there)
    by_cases same : r = p.row e f.defaults t
    · subst r
      exact .inr (.inr ⟨i, f, c, rfl, call, stores, origin_record .., List.mem_cons_self⟩)
    · have old := (Table.mem_put.mp member).resolve_right same
      exact .inl ⟨⟨t, present, old.1⟩, origin_record_other _ _ same⟩
  | quiet i f c n call next same => exact .inl ⟨⟨u, same ▸ there, member⟩, rfl⟩
  | store round since batch i call active phase finds finished =>
    exact .inl ⟨⟨u, congrFun (upsertSyncMeta_tables ..) table ▸ there, member⟩, rfl⟩
  | tick | receive | openRound | readMeta | «export» | deliver | sendOk | fetch | abort | peerStep =>
    exact .inl ⟨⟨u, there, member⟩, rfl⟩

/-- Every step keeps the outbox of a peer sound, provided that new items are late and done or above
its cursor, that a successful send is the end of its batch, and that a new cursor is below what is
late and not done. -/
theorem Step.sound (h : Step e table w a w') (item done : World → Row → Prop)
    (sound : (w.outbox table peer (item w) (done w)).Sound Row.date)
    (rows : ∀ r, item w r → w.Holds table r ∧ r.stamp = some r.date)
    (items : ∀ r, item w' r →
      item w r ∨ r ∈ w'.late ∧ (done w' r ∨ Below (w.db.syncMeta peer table) r.date))
    (dones : ∀ r, done w r → done w' r)
    (delivers : ∀ startAt since batch handler, a = .sendOk →
      w.round = some ⟨peer, startAt, .sending since batch handler⟩ →
      ∀ r, item w' r → toChange table r ∈ batch → done w' r)
    (clear : ∀ startAt since batch i call, a = .store → w.round = some ⟨peer, startAt, .applying since batch i⟩ →
      w.writers.calls[i]? = some call → ∀ r, item w' r → r ∈ w.late → ¬done w' r → Below since r.date →
      Below (newCursor startAt since batch call) r.date) :
    (w'.outbox table peer (item w') (done w')).Sound Row.date := by
  have changed (lates : ∀ r ∈ w.late, r ∈ w'.late) := sound.change items dones lates
  -- a step that changes neither the cursor nor the stage, and forgets nothing that is late
  have unmoved (cursor : w'.db.syncMeta peer table = w.db.syncMeta peer table)
      (stays : w'.stage table peer = w.stage table peer) (lates : ∀ r ∈ w.late, r ∈ w'.late) :
      (w'.outbox table peer (item w') (done w')).Sound Row.date := by
    have changed := changed lates
    unfold outbox at changed ⊢
    rwa [cursor, stays]
  -- a step that leaves no round with this peer
  have idle (cursor : w'.db.syncMeta peer table = w.db.syncMeta peer table) (rests : w'.stage table peer = .idle) :
      (w'.outbox table peer (item w') (done w')).Sound Row.date := by
    have covered : ∀ r, item w' r → done w' r ∨ Below (w'.db.syncMeta peer table) r.date := by
      intro r here
      rw [cursor]
      rcases items r here with old | ⟨_, new⟩
      · exact (sound.covered r old).imp_left (dones r)
      · exact new
    refine ⟨covered, ?_⟩
    rw [outbox, rests]
    trivial
  have same_late : ∀ r ∈ w.late, r ∈ w.late := fun _ listed => listed
  cases h with
  | tick now later => exact unmoved rfl rfl same_late
  | write r t shape fits present stamped own =>
    exact unmoved rfl rfl fun _ listed => List.mem_cons_of_mem _ listed
  | receive sender changes => exact unmoved rfl rfl same_late
  | quiet i f c n call next same =>
    exact unmoved (congrFun (congrFun next.syncMeta peer) table) rfl same_late
  | stored i f c p t call stores present fits =>
    exact unmoved rfl rfl fun _ listed => List.mem_cons_of_mem _ listed
  | openRound other free =>
    refine idle rfl ?_
    simp only [stage]
    split <;> rfl
  | readMeta fault round active phase =>
    by_cases this : round.peer = peer
    · have reads : (w.outbox table peer (item w) (done w)).Reads (getSyncMeta fault w.db round.peer table) := by
        rw [getSyncMeta, this]
        split
        · exact .inl rfl
        · exact .inr rfl
      have opened := (sound.opened reads).change items dones same_late
      unfold outbox at opened ⊢
      rwa [show (w.setPhase round (.read (getSyncMeta fault w.db round.peer table))).stage table peer =
        .opened (getSyncMeta fault w.db round.peer table) by simp only [stage, setPhase, if_pos this]]
    · exact idle rfl (stage_other rfl this)
  | «export» round since batch active phase exported =>
    by_cases this : round.peer = peer
    · have opened : w.stage table peer = .opened since := by simp only [stage, active, if_pos this, phase]
      have selected : ∀ r, item w r → Below since r.date → toChange table r ∈ batch := by
        intro r here above
        obtain ⟨⟨t, present, member⟩, dated⟩ := rows r here
        exact mem_batch present member dated exported above
      have taken := (sound.take opened selected (· ∈ [])).change items dones fun _ listed => listed
      unfold outbox at taken ⊢
      rwa [show World.stage _ table peer = .taken since fun r => toChange table r ∈ batch by
        simp only [stage, setPhase, if_pos this]]
    · exact idle rfl (stage_other rfl this)
  | deliver f round since batch handler n active phase next =>
    refine unmoved rfl ?_ same_late
    simp only [stage, setPhase, setPeer, active, phase]
  | sendOk round since batch handler active phase =>
    by_cases this : round.peer = peer
    · have taken : w.stage table peer = .taken since fun r => toChange table r ∈ batch := by
        simp only [stage, active, if_pos this, phase]
      have delivered := (changed same_late).deliver taken (fun _ => id)
        (delivers round.startAt since batch handler rfl (by rw [active, ← this, ← phase]))
      unfold outbox at delivered ⊢
      rwa [show World.stage _ table peer = .delivered since by simp only [stage, setPhase, if_pos this]]
    · exact idle rfl (stage_other rfl this)
  | fetch changes round since batch active phase =>
    refine unmoved rfl ?_ same_late
    simp only [stage, setPhase, startCall, active, phase]
  | store round since batch i call active phase finds finished =>
    by_cases this : round.peer = peer
    · have delivered : w.stage table peer = .delivered since := by
        simp only [stage, active, if_pos this, phase]
      have advanced := (changed same_late).advance delivered
        (clear round.startAt since batch i call rfl (by rw [active, ← this, ← phase]) finds)
      subst peer
      have stored := upsertSyncMeta_same w.db round.peer table (newCursor round.startAt since batch call)
      rcases Option.eq_none_or_eq_some (newCursor round.startAt since batch call) with cursor | ⟨c, cursor⟩
      · exact idle (stored.trans (by rw [cursor, Option.none_or])) rfl
      · unfold outbox at advanced ⊢
        rwa [show (w.storeCursor table round (newCursor round.startAt since batch call)).db.syncMeta round.peer table =
          newCursor round.startAt since batch call from stored.trans (by rw [cursor, Option.some_or])]
    · exact idle (upsertSyncMeta_other w.db table _ (Ne.symm this)) rfl
  | abort round active => exact idle rfl rfl
  | peerStep other db => exact unmoved rfl rfl same_late

end ConvergioMesh.World
