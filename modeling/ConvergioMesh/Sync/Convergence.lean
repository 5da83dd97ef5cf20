import ConvergioMesh.Sync.Gossip
import ConvergioMesh.Sync.LocalWrites

/-!
# Convergence

A completed round delivers what its node had authored when it exported, as long as no row shares its
second with a cursor. Once every node has a completed round with every other one behind its last write,
all of them hold the same rows: the newest version of each id.
-/

namespace ConvergioMesh

open Library

theorem below_or {cursor stored : Option String} {u : String} (first : Below cursor u) (second : Below stored u) :
    Below (cursor.or stored) u := by
  cases cursor with
  | none => exact second
  | some c => exact first

theorem mem_zip_set {α β : Type} {l : List α} {m : List β} {k : Nat} {a x y : α} {b : β} (listed : (a, b) ∈ l.zip m)
    (there : l[k]? = some x) (other : a ≠ x) : (a, b) ∈ (l.set k y).zip m := by
  induction l generalizing m k with
  | nil => cases there
  | cons d l ih =>
    cases m with
    | nil => cases listed
    | cons f m =>
      rw [List.zip_cons_cons, List.mem_cons] at listed
      cases k with
      | zero =>
        obtain rfl := Option.some.inj there
        rcases listed with same | later
        · exact absurd (Prod.mk.inj same).1 other
        · exact List.mem_cons_of_mem _ later
      | succ k =>
        rcases listed with same | later
        · exact List.mem_cons.mpr (.inl same)
        · exact List.mem_cons_of_mem _ (ih later there)

theorem ApplyCall.Next.unfinished {e : Engine} {f : Faults} {db : Database} {c : ApplyCall} {n : Database × ApplyCall}
    (next : ApplyCall.Next e f db c n) : c.finished ≠ true := by
  intro finished
  obtain ⟨none_left, none_pending⟩ := ApplyCall.finished_iff.mp finished
  cases next with
  | rejected change rest why idle first | checked change rest p idle first =>
    rw [none_left] at first
    cases first
  | stored p t waiting | failed p waiting =>
    rw [none_pending] at waiting
    cases waiting

def Phase.since : Phase → Option String
  | .opened => none
  | .read since | .sending since _ _ | .sent since _ | .applying since _ _ => since

namespace World

variable {e : Engine} {table : String} {w w' : World} {a : Event}

/-- Nothing is later than the clock, and a round works with the stored cursor or with none. -/
structure Timely (table : String) (w : World) : Prop where
  cursor : ∀ peer d, w.db.syncMeta peer table = some d → d ≤ w.clock.format
  start : ∀ round, w.round = some round → round.startAt ≤ w.clock.format
  since : ∀ round, w.round = some round → round.phase.since = none ∨
    round.phase.since = w.db.syncMeta round.peer table

/-- The cursor of a peer stays, or a round with this peer stores the one it computed. -/
theorem Step.cursor_cases (h : Step e table w a w') (peer : String) :
    w'.db.syncMeta peer table = w.db.syncMeta peer table ∨
      ∃ startAt since batch i call, a = .store ∧ w.round = some ⟨peer, startAt, .applying since batch i⟩ ∧
        w.writers.calls[i]? = some call ∧ w'.db.syncMeta peer table =
          (newCursor startAt since batch call).or (w.db.syncMeta peer table) := by
  cases h with
  | store round since batch i call active phase done finished =>
    obtain ⟨name, startAt, stage⟩ := round
    subst phase
    by_cases this : name = peer
    · subst name
      exact .inr ⟨startAt, since, batch, i, call, rfl, active, done, upsertSyncMeta_same ..⟩
    · exact .inl (upsertSyncMeta_other _ _ _ (Ne.symm this))
  | quiet i f c n call next same => exact .inl (congrFun (congrFun next.syncMeta peer) table)
  | _ => exact .inl rfl

theorem Timely.below {startAt : String} {since : Option String} {batch : List SyncChange} {i : Nat} {peer u : String}
    (inv : w.Timely table) (active : w.round = some ⟨peer, startAt, .applying since batch i⟩)
    (above : Below (w.db.syncMeta peer table) u) : Below since u := by
  rcases inv.since _ active with same | same <;> rw [Phase.since] at same <;> rw [same]
  · exact below_none u
  · exact above

theorem Step.write_date {r : Row} (h : Step e table w (.write r) w') : r.date = w.clock.format := by
  cases h with
  | write _ t shape fits present stamped own =>
    exact Row.date_of_stamp ((Row.stamp_of_cell stamped).trans (congrArg some (UtcSecond.replaceT_format _)))

theorem Timely.step (inv : w.Timely table) (h : Step e table w a w') : w'.Timely table := by
  have clock := UtcSecond.format_le h.clock
  refine ⟨fun peer d stored => ?_, fun round active => ?_, fun round active => ?_⟩
  · refine le_trans ?_ clock
    rcases h.cursor_cases peer with same | ⟨startAt, since, batch, i, call, rfl, active, _, same⟩
    · exact inv.cursor peer d (same ▸ stored)
    · rw [same, Option.or_eq_some_iff] at stored
      rcases stored with computed | ⟨_, kept⟩
      · refine computeNewCursor_le (fun p read => ?_) (inv.start _ active) computed
        rcases inv.since _ active with none | some <;> rw [Phase.since, read] at *
        · cases none
        · exact inv.cursor peer p some.symm
      · exact inv.cursor peer d kept
  · refine le_trans ?_ clock
    cases h with
    | openRound other free =>
      obtain rfl := Option.some.inj active
      exact le_rfl
    | readMeta fault old before | «export» old since batch before | sendOk old since batch handler before
    | deliver f old since batch handler n before | fetch changes old since batch before =>
      obtain rfl := Option.some.inj active
      exact inv.start old before
    | store | abort => cases active
    | _ => exact inv.start round active
  · cases h with
    | openRound other free =>
      obtain rfl := Option.some.inj active
      exact .inl rfl
    | readMeta fault old before phase =>
      obtain rfl := Option.some.inj active
      rw [Phase.since, getSyncMeta]
      split
      · exact .inl rfl
      · exact .inr rfl
    | «export» old since batch before phase | sendOk old since batch handler before phase
    | deliver f old since batch handler n before phase | fetch changes old since batch before phase =>
      obtain rfl := Option.some.inj active
      have reads := inv.since old before
      rw [phase] at reads
      exact reads
    | store | abort => cases active
    | quiet i f c n call next same =>
      rw [show (World.db _).syncMeta = w.db.syncMeta from next.syncMeta]
      exact inv.since round active
    | _ => exact inv.since round active

end World

namespace Cluster

variable {ι : Type} {e : Engine} {sch : Schema} {table : String} {host : String → ι} {c c' : Cluster ι} {a : Action ι}

/-- The rows a round offers are known to its peer or on their way. -/
def Progress (host : String → ι) (c : Cluster ι) (i : ι) (round : Round) : Prop :=
  match round.phase with
  | .opened | .read _ => True
  | .sending _ batch _ => ∃ m, c.wire[c.sending i]? = some m ∧ m.changes.length = batch.length ∧
      ∀ r ∈ c.offered i, r ∈ c.heard (host round.peer) ∨ r ∈ m.heard
  | .sent _ _ | .applying _ _ _ => ∀ r ∈ c.offered i, r ∈ c.heard (host round.peer)

/-- No row is written in the second of a stored cursor. When a cursor is stored, each row authored since
the export that the peer has not heard of is younger than the second the round started in, or than
everything the round exchanged. -/
def Apart (table : String) (host : String → ι) (c : Cluster ι) : Action ι → Prop
  | .write i r => ∀ peer, r ∈ c.heard (host peer) ∨
      (c.node i).db.syncMeta peer table ≠ some (c.node i).clock.format
  | .store i => ∀ peer startAt since batch k call, (c.node i).round = some ⟨peer, startAt, .applying since batch k⟩ →
      (c.node i).writers.calls[k]? = some call → ∀ r ∈ c.authored i, r ∉ c.offered i → r ∉ c.heard (host peer) →
        startAt < r.date ∨ Below (maxUpdatedAt batch) r.date ∧ Below call.report.appliedMaxUpdatedAt r.date
  | _ => True

/-- Each row a node authored is known to a peer or above its cursor. -/
structure Delivering (table : String) (host : String → ι) (c : Cluster ι) : Prop where
  timely : ∀ i, (c.node i).Timely table
  covered : ∀ i peer, ∀ r ∈ c.authored i, r ∈ c.heard (host peer) ∨
    Below ((c.node i).db.syncMeta peer table) r.date
  progress : ∀ i round, (c.node i).round = some round → c.Progress host i round
  rounds : ∀ i peer rows, (i, peer, rows) ∈ c.rounds → ∀ r ∈ rows, r ∈ c.heard (host peer)

theorem Initial.delivering (h : c.Initial e sch table) : c.Delivering table host where
  timely i := {
    cursor := fun peer d stored => by rw [h.unsynced i peer] at stored; cases stored
    start := fun round active => by rw [h.idle i] at active; cases active
    since := fun round active => by rw [h.idle i] at active; cases active }
  covered i peer r _ := by
    rw [h.unsynced i peer]
    exact .inr (below_none _)
  progress i round active := by rw [h.idle i] at active; cases active
  rounds i peer rows done := by rw [h.rounds] at done; cases done

variable [DecidableEq ι]

theorem Step.heard (h : Step e table host c a c') (inv : c.Informed e sch table) {j : ι} {r : Row}
    (known : r ∈ c.heard j) : r ∈ c'.heard j := by
  rw [mem_heard] at known ⊢
  refine known.imp (h.authored j r) ?_
  rintro ⟨call, n, m, listed, sent, finished, inside⟩
  refine ⟨call, n, m, ?_, h.sent sent, finished, inside⟩
  rcases h.moved with ⟨_, same, rests⟩ | ⟨i, b, w, moved⟩
  · rwa [same, rests]
  by_cases here : j = i
  · subst j
    rw [moved.node_same]
    rcases World.step_calls moved.stepped with
      ⟨k, f, moving, n', rfl, at_k, next, same⟩ | ⟨changes, begins, same⟩ | ⟨rests, same⟩
    · rw [moved.rests rfl, same]
      refine mem_zip_set listed at_k ?_
      rintro rfl
      exact next.unfinished finished
    · obtain ⟨l, _, _, _, began⟩ := moved.starts changes begins
      rw [began, Function.update_self, same, List.zip_append (inv.calls i).length_eq]
      exact List.mem_append_left _ listed
    · rwa [moved.rests rests, same]
  · rwa [moved.started_other here, moved.node_other here]

theorem Delivering.timely_step (inv : c.Delivering table host) (h : Step e table host c a c') :
    ∀ j, (c'.node j).Timely table := by
  rcases h.moved with ⟨_, same, _⟩ | ⟨i, b, w, moved⟩
  · rw [same]
    exact inv.timely
  · exact moved.forall inv.timely ((inv.timely i).step (World.step_cases moved.stepped))

omit [DecidableEq ι] in
theorem Delivering.known (inv : c.Delivering table host) {i : ι} {peer startAt : String} {since : Option String}
    {batch : List SyncChange} {k : Nat} (active : (c.node i).round = some ⟨peer, startAt, .applying since batch k⟩) :
    ∀ r ∈ c.offered i, r ∈ c.heard (host peer) := inv.progress i _ active

theorem Delivering.covered_step (inv : c.Delivering table host) (informed : c.Informed e sch table)
    (apart : Apart table host c a) (h : Step e table host c a c') :
    ∀ j peer, ∀ r ∈ c'.authored j, r ∈ c'.heard (host peer) ∨ Below ((c'.node j).db.syncMeta peer table) r.date := by
  intro j peer r known
  by_cases heard : r ∈ c.heard (host peer)
  · exact .inl (h.heard informed heard)
  -- A row the peer does not know is above the cursor before the step, also one that the step writes.
  have above : Below ((c.node j).db.syncMeta peer table) r.date := by
    rcases h.authored_cases known with old | rfl
    · exact (inv.covered j peer r old).resolve_left heard
    · intro d stored
      cases h with
      | write _ _ w moved =>
        have other := (apart peer).resolve_left heard
        rw [(World.step_cases moved).write_date]
        exact lt_of_le_of_ne ((inv.timely j).cursor peer d stored) fun same => other (same ▸ stored)
  right
  rcases h.moved with ⟨_, same, _⟩ | ⟨i, b, w, moved⟩
  · rwa [same]
  by_cases here : j = i
  · subst j
    rw [moved.node_same]
    rcases (World.step_cases moved.stepped).cursor_cases peer with
      same | ⟨startAt, since, batch, k, call, stores, active, done, same⟩
    · rwa [same]
    · obtain rfl := moved.stores stores
      have old : r ∈ c.authored i := (h.authored_cases known).resolve_right nofun
      -- The peer knows what the round has offered, so the row is from after the export.
      have late : r ∉ c.offered i := fun offered => heard (inv.known active r offered)
      rw [same]
      refine below_or ((computeNewCursor_below ..).mpr ⟨(inv.timely i).below active above, ?_⟩) above
      exact apart peer startAt since batch k call active done r old late heard
  · rwa [moved.node_other here]

omit [DecidableEq ι] in
/-- What does not change the round, its message or its offer leaves its progress. -/
theorem Progress.mono {i : ι} {round : Round} (h : c.Progress host i round)
    (heard : ∀ j, ∀ r ∈ c.heard j, r ∈ c'.heard j) (sent : ∀ (n : Nat) m, c.wire[n]? = some m → c'.wire[n]? = some m)
    (sending : c'.sending i = c.sending i) (offered : c'.offered i = c.offered i) : c'.Progress host i round := by
  unfold Progress at h ⊢
  rw [sending, offered]
  split at h
  · trivial
  · trivial
  · obtain ⟨m, listed, same, known⟩ := h
    exact ⟨m, sent _ m listed, same, fun r inside => (known r inside).imp_left (heard _ r)⟩
  · exact fun r inside => heard _ r (h r inside)
  · exact fun r inside => heard _ r (h r inside)

omit [DecidableEq ι] in
/-- A send that succeeds has made the rows on their way known to the peer. -/
theorem Progress.delivered {i : ι} {round : Round} {since : Option String} {batch : List SyncChange} {handler : ApplyCall}
    (h : c.Progress host i round) (informed : c.Informed e sch table) (clean : Clean e sch table host c (.own i .sendOk))
    (active : (c.node i).round = some round) (phase : round.phase = .sending since batch handler) :
    ∀ r ∈ c.offered i, r ∈ c.heard (host round.peer) := by
  obtain ⟨peer, startAt, stage⟩ := round
  subst phase
  obtain ⟨m, listed, same, known⟩ := h
  intro r offered
  rcases known r offered with heard | inside
  · exact heard
  rcases clean peer startAt since batch handler active with nothing | ⟨call, began, finished⟩
  · obtain ⟨s, _, listed', _⟩ := informed.wire m (List.mem_of_getElem? listed) r inside
    rw [nothing, List.length_nil, List.length_eq_zero_iff] at same
    rw [same] at listed'
    cases listed'
  · exact mem_heard.mpr (.inr ⟨call, _, m, began, listed, finished, inside⟩)

omit [DecidableEq ι] in
/-- An export takes along every row of the node that the peer does not know. -/
theorem Delivering.taken (inv : c.Delivering table host) {i : ι} {round : Round} {since : Option String}
    (active : (c.node i).round = some round) (phase : round.phase = .read since) (changes : List SyncChange) :
    ∀ r ∈ c.authored i, r ∈ c.heard (host round.peer) ∨ r ∈ (message e c i since changes).heard := by
  intro r own
  refine (inv.covered i round.peer r own).imp_right fun above => ?_
  refine mem_message_heard.mpr ⟨mem_heard.mpr (.inl own), ?_⟩
  rcases (inv.timely i).since round active with same | same <;> rw [phase, Phase.since] at same <;> rw [same]
  · exact below_none _
  · exact above

theorem Delivering.progress_step (inv : c.Delivering table host) (informed : c.Informed e sch table)
    (clean : Clean e sch table host c a) (h : Step e table host c a c') :
    ∀ j round, (c'.node j).round = some round → c'.Progress host j round := by
  intro j round active
  have heard : ∀ j, ∀ r ∈ c.heard j, r ∈ c'.heard j := fun j r => h.heard informed
  have sent : ∀ (n : Nat) m, c.wire[n]? = some m → c'.wire[n]? = some m := fun n m => h.sent
  have unmoved (same : (c.node j).round = some round) (sending : c'.sending j = c.sending j)
      (offered : c'.offered j = c.offered j) : c'.Progress host j round :=
    Progress.mono (inv.progress j round same) heard sent sending offered
  cases h with
  | own i b w alone moved =>
    by_cases here : j = i
    · subst j
      simp only [move, Function.update_self] at active
      cases World.step_cases moved with
      | sendOk old since batch handler before phase =>
        obtain rfl := Option.some.inj active
        exact fun r offered => heard _ r (Progress.delivered (inv.progress i old before) informed clean before phase r offered)
      | openRound | readMeta =>
        obtain rfl := Option.some.inj active
        trivial
      | abort => cases active
      | tick | quiet | stored => exact unmoved active rfl rfl
      | _ => cases alone
    · exact unmoved (by simpa [move, here] using active) rfl rfl
  | write i r w moved =>
    by_cases here : j = i
    · subst j
      simp only [author, move, Function.update_self] at active
      cases World.step_cases moved with
      | write => exact unmoved active rfl rfl
    · exact unmoved (by simpa [author, move, here] using active) rfl rfl
  | «export» i w since changes moved batch =>
    by_cases here : j = i
    · subst j
      simp only [send, move, Function.update_self] at active
      cases World.step_cases moved with
      | «export» old since' batch' before phase exported =>
        obtain ⟨rfl, rfl⟩ := Prod.mk.inj (Option.some.inj batch)
        obtain rfl := Option.some.inj active
        refine ⟨message e c i since' batch', by simp [send], List.length_map .., fun r offered => ?_⟩
        simp only [send, Function.update_self] at offered
        exact (inv.taken before phase batch' r offered).imp_left (heard _ r)
    · exact unmoved (by simpa [send, move, here] using active) (by simp [send, move, here]) (by simp [send, here])
  | store i w old before moved =>
    by_cases here : j = i
    · subst j
      simp only [complete, move, Function.update_self] at active
      cases World.step_cases moved with
      | store => cases active
    · exact unmoved (by simpa [complete, move, here] using active) rfl rfl
  | serve i since changes exported => exact unmoved active rfl rfl
  | receive i peer n m wired source =>
    by_cases here : j = i
    · subst j
      simp only [start, move, Function.update_self] at active
      exact unmoved active rfl rfl
    · exact unmoved (by simpa [start, move, here] using active) rfl rfl
  | fetch i n m w old batch wired before phase source moved =>
    by_cases here : j = i
    · subst j
      simp only [start, move, Function.update_self] at active
      cases World.step_cases moved with
      | fetch _ again since' batch' active' phase' =>
        obtain rfl := Option.some.inj active
        have known := inv.progress i again active'
        unfold Progress at known
        rw [phase'] at known
        exact fun r offered => heard _ r (known r offered)
    · exact unmoved (by simpa [start, move, here] using active) rfl rfl

theorem Delivering.rounds_step (inv : c.Delivering table host) (informed : c.Informed e sch table)
    (h : Step e table host c a c') :
    ∀ i peer rows, (i, peer, rows) ∈ c'.rounds → ∀ r ∈ rows, r ∈ c'.heard (host peer) := by
  intro i peer rows done r inside
  refine h.heard informed ?_
  cases h with
  | store j w round active moved =>
    rcases List.mem_cons.mp done with same | old
    · obtain ⟨rfl, same⟩ := Prod.mk.inj same
      obtain ⟨rfl, rfl⟩ := Prod.mk.inj same
      cases World.step_cases moved with
      | store again since batch k call active' phase =>
        obtain rfl := Option.some.inj (active.symm.trans active')
        obtain ⟨peer, startAt, stage⟩ := round
        subst phase
        exact inv.known active r inside
    · exact inv.rounds i peer rows old r inside
  | _ => exact inv.rounds i peer rows done r inside

theorem Delivering.step (inv : c.Delivering table host) (informed : c.Informed e sch table)
    (clean : Clean e sch table host c a) (apart : Apart table host c a) (h : Step e table host c a c') :
    c'.Delivering table host where
  timely := inv.timely_step h
  covered := inv.covered_step informed apart h
  progress := inv.progress_step informed clean h
  rounds := inv.rounds_step informed h

variable {c₀ : Cluster ι}

theorem run_delivering (schema : SyncedSchema table sch) (start : c₀.Initial e sch table)
    (run : Run (step e table host) (fun c a => Clean e sch table host c a ∧ Apart table host c a) c₀ c) :
    c.Informed e sch table ∧ c.Delivering table host := by
  have both : ∀ d b d', d.Informed e sch table ∧ d.Delivering table host →
      Clean e sch table host d b ∧ Apart table host d b → d.step e table host b = some d' →
      d'.Informed e sch table ∧ d'.Delivering table host := by
    intro d b d' inv ok h
    have h := step_cases h
    exact ⟨inv.1.step schema ok.1 h, inv.2.step inv.1 ok.1 ok.2 h⟩
  have reached := run.invariant both ⟨start.informed, start.delivering⟩
  exact reached

/-- A completed round has delivered every row its node had authored when it exported. -/
theorem rounds_delivered (schema : SyncedSchema table sch) (start : c₀.Initial e sch table)
    (run : Run (step e table host) (fun c a => Clean e sch table host c a ∧ Apart table host c a) c₀ c)
    {i : ι} {peer : String} {rows : List Row} (done : (i, peer, rows) ∈ c.rounds) {r : Row} (offered : r ∈ rows) :
    c.Retains table (host peer) r := by
  obtain ⟨informed, delivering⟩ := run_delivering schema start run
  have known := delivering.rounds i peer rows done r offered
  exact informed.retains known (informed.held known)

/-- No write, and what a node authored is offered or known when a cursor is stored. -/
def settled (c : Cluster Bool) : Action Bool → Bool
  | .write _ _ => false
  | .store i => (c.node i).round.all fun round =>
    (c.authored i).all fun r => decide (r ∈ c.offered i) || decide (r ∈ c.heard (pairHost round.peer))
  | _ => true

theorem apart_of_settled {c : Cluster Bool} {a : Action Bool} (h : settled c a = true) : Apart "plans" pairHost c a := by
  cases a with
  | write => cases h
  | store i =>
    intro peer startAt since batch k call active _ r own unoffered unheard
    simp only [settled, active, Option.all_some, List.all_eq_true, Bool.or_eq_true, decide_eq_true_eq] at h
    exact absurd (h r own) (not_or.mpr ⟨unoffered, unheard⟩)
  | _ => trivial

theorem pair_run : ∃ c : Cluster Bool, Run (step sampleEngine "plans" pairHost)
      (fun c a => Clean sampleEngine plansSchema "plans" pairHost c a ∧ Apart "plans" pairHost c a) pair c ∧
    (c.authored false = [plan 1 "a" "2026-04-21 14:00:00"] ∧ c.authored true = [plan 2 "b" "2026-04-21 07:00:00"]) ∧
    c.rounds = [(true, "peer-a", [plan 2 "b" "2026-04-21 07:00:00"]),
      (false, "peer-b", [plan 1 "a" "2026-04-21 14:00:00"])] := by
  obtain ⟨c₁, wrote⟩ : ∃ c₁,
      step sampleEngine "plans" pairHost pair (.write false (plan 1 "a" "2026-04-21 14:00:00")) = some c₁ := ⟨_, rfl⟩
  have reached : ((step sampleEngine "plans" pairHost pair (.write false (plan 1 "a" "2026-04-21 14:00:00"))).bind
        (replay (step sampleEngine "plans" pairHost) (fun c a => smooth c a && settled c a) · pairActions.tail)).map
        (fun c => (decide (c.authored false = [plan 1 "a" "2026-04-21 14:00:00"] ∧
            c.authored true = [plan 2 "b" "2026-04-21 07:00:00"]),
          decide (c.rounds = [(true, "peer-a", [plan 2 "b" "2026-04-21 07:00:00"]),
            (false, "peer-b", [plan 1 "a" "2026-04-21 14:00:00"])]))) =
      some (true, true) := by decide +kernel
  rw [wrote, Option.bind_some] at reached
  obtain ⟨c, ran, ends⟩ := Option.map_eq_some_iff.mp reached
  simp only [Prod.mk.injEq, decide_eq_true_eq] at ends
  have first : Clean sampleEngine plansSchema "plans" pairHost pair (.write false (plan 1 "a" "2026-04-21 14:00:00")) :=
    clean_of_smooth List.mem_cons_self rfl
  refine ⟨c, (Run.single ⟨first, fun peer => .inr nofun⟩ wrote).trans ((replay_run ran).weaken ?_), ends⟩
  rintro d a ⟨listed, checked⟩
  obtain ⟨smooth, settled⟩ := Bool.and_eq_true_iff.mp checked
  exact ⟨clean_of_smooth (List.mem_of_mem_tail listed) smooth, apart_of_settled settled⟩

theorem pair_round_delivered : ∃ c : Cluster Bool,
    (false, "peer-b", [plan 1 "a" "2026-04-21 14:00:00"]) ∈ c.rounds ∧
      c.Retains "plans" true (plan 1 "a" "2026-04-21 14:00:00") := by
  obtain ⟨c, run, _, rounds⟩ := pair_run
  have done : (false, "peer-b", [plan 1 "a" "2026-04-21 14:00:00"]) ∈ c.rounds := by simp [rounds]
  exact ⟨c, done, rounds_delivered plansSchema_synced pair_initial run done List.mem_cons_self⟩

/-! ### All nodes agree -/

/-- The newest version of its id that any node authored. -/
def Latest (c : Cluster ι) (r : Row) : Prop :=
  (∃ i, r ∈ c.authored i) ∧ ∀ i, ∀ s ∈ c.authored i, s.key = r.key → s.date ≤ r.date

def AuthoredFor (c : Cluster ι) (k : Key) (r : Row) : Prop := r.key = k ∧ ∃ i, r ∈ c.authored i

omit [DecidableEq ι] in
theorem latest_iff {r : Row} : c.Latest r ↔ Newest Row.date none (c.AuthoredFor r.key) r := by
  constructor
  · rintro ⟨own, newest⟩
    refine ⟨.inr ⟨rfl, own⟩, fun s none => (nomatch none), ?_⟩
    rintro s ⟨same, i, authored⟩
    exact newest i s authored same
  · rintro ⟨source, _, newest⟩
    have own := source.resolve_left fun none => nomatch none
    exact ⟨own.2, fun i s authored same => newest s ⟨same, i, authored⟩⟩

omit [DecidableEq ι] in
theorem Informed.upToDate (inv : c.Informed e sch table) {i : ι} {t : Table}
    (present : (c.node i).db.tables table = some t)
    (everything : ∀ j, ∀ r ∈ c.authored j, HeldAt (c.node i).db table r) :
    UpToDate Row.date c.AuthoredFor t.store where
  source k r held := by
    obtain ⟨member, same⟩ := Table.store_some held
    exact ⟨same, ((inv.genuine.node i).rows r ⟨t, present, member⟩).2⟩
  covers := by
    rintro k r ⟨rfl, j, authored⟩
    obtain ⟨u, there, s, member, same, l, dated, newer⟩ := everything j r authored
    obtain rfl : t = u := Option.some.inj (present.symm.trans there)
    have version := ((inv.genuine.node i).rows s ⟨t, present, member⟩).1
    refine ⟨s, ?_, Row.date_of_stamp dated ▸ newer⟩
    rw [← same]
    exact Table.store_eq member version.id.ne_null

omit [DecidableEq ι] in
/-- A node that holds every authored row or a newer version holds the latest ones and nothing else. -/
theorem Informed.holds_iff (inv : c.Informed e sch table) (untied : c.Untied) {i : ι}
    (everything : ∀ j, ∀ r ∈ c.authored j, HeldAt (c.node i).db table r) (r : Row) :
    (c.node i).Holds table r ↔ c.Latest r := by
  obtain ⟨t, present, _⟩ := (inv.genuine.node i).here
  have consistent : ∀ k r s, c.AuthoredFor k r → c.AuthoredFor k s → r.date = s.date → r = s := by
    rintro k r s ⟨same, i, own⟩ ⟨same', j, own'⟩ tie
    exact untied i j r s own own' (same.trans same'.symm) tie
  rw [latest_iff, ← (inv.upToDate present everything).eq_some_iff consistent]
  constructor
  · rintro ⟨u, there, member⟩
    obtain rfl : t = u := Option.some.inj (present.symm.trans there)
    exact Table.store_eq member ((inv.genuine.node i).rows r ⟨t, present, member⟩).1.id.ne_null
  · intro held
    exact ⟨t, present, (Table.store_some held).1⟩

theorem pair_untied {c : Cluster Bool} (authored : c.authored false = [plan 1 "a" "2026-04-21 14:00:00"] ∧
    c.authored true = [plan 2 "b" "2026-04-21 07:00:00"]) : c.Untied := by
  intro i j r s own own' same _
  cases i <;> cases j <;> simp only [authored, List.mem_singleton] at own own' <;> subst own own' <;>
    first | rfl | exact absurd same (by decide)

/-- However the messages travelled: nodes that have heard of every authored row hold the same rows. -/
theorem heard_converges (schema : SyncedSchema table sch) (start : c₀.Initial e sch table)
    (run : Run (step e table host) (Clean e sch table host) c₀ c) (untied : c.Untied)
    (everything : ∀ i j, ∀ r ∈ c.authored j, r ∈ c.heard i) (i : ι) (r : Row) :
    (c.node i).Holds table r ↔ c.Latest r := by
  have informed : c.Informed e sch table :=
    run.invariant (fun _ _ _ inv clean h => inv.step schema clean (step_cases h)) start.informed
  exact informed.holds_iff untied (fun j s authored => informed.held (everything i j s authored)) r

theorem pair_heard_converged : ∃ c : Cluster Bool, ∀ i r, (c.node i).Holds "plans" r ↔ c.Latest r := by
  have reached : (replay (step sampleEngine "plans" pairHost) smooth pair pairActions).map
        (fun c => (decide (c.authored false = [plan 1 "a" "2026-04-21 14:00:00"] ∧
            c.authored true = [plan 2 "b" "2026-04-21 07:00:00"]),
          decide (plan 1 "a" "2026-04-21 14:00:00" ∈ c.heard true),
          decide (plan 2 "b" "2026-04-21 07:00:00" ∈ c.heard false))) =
      some (true, true, true) := by decide +kernel
  obtain ⟨c, ran, ends⟩ := Option.map_eq_some_iff.mp reached
  simp only [Prod.mk.injEq, decide_eq_true_eq] at ends
  obtain ⟨authored, first, second⟩ := ends
  refine ⟨c, heard_converges plansSchema_synced pair_initial
    ((replay_run ran).weaken fun _ _ ok => clean_of_smooth ok.1 ok.2) (pair_untied authored) ?_⟩
  intro i j r own
  cases i <;> cases j <;> simp only [authored, List.mem_singleton] at own <;> subst own
  · exact mem_heard.mpr (.inl (by simp [authored]))
  · exact second
  · exact first
  · exact mem_heard.mpr (.inl (by simp [authored]))

/-- Once every node has completed a round with every other one after its last write, all of them hold the
same rows. -/
theorem rounds_converge (schema : SyncedSchema table sch) (start : c₀.Initial e sch table)
    (run : Run (step e table host) (fun c a => Clean e sch table host c a ∧ Apart table host c a) c₀ c)
    (untied : c.Untied) (rounds : ∀ i j, i ≠ j → ∃ peer rows, host peer = j ∧ (i, peer, rows) ∈ c.rounds ∧
      ∀ r ∈ c.authored i, r ∈ rows) (i : ι) (r : Row) : (c.node i).Holds table r ↔ c.Latest r := by
  obtain ⟨informed, delivering⟩ := run_delivering schema start run
  refine informed.holds_iff untied (fun j s authored => ?_) r
  by_cases here : j = i
  · exact here ▸ informed.authored j s authored
  · obtain ⟨peer, rows, rfl, done, last⟩ := rounds j i here
    exact informed.held (delivering.rounds j peer rows done s (last s authored))

theorem pair_converged : ∃ c : Cluster Bool, ∀ i r, (c.node i).Holds "plans" r ↔ c.Latest r := by
  obtain ⟨c, run, authored, rounds⟩ := pair_run
  refine ⟨c, rounds_converge plansSchema_synced pair_initial run (pair_untied authored) ?_⟩
  intro i j apart
  cases i <;> cases j
  · exact absurd rfl apart
  · exact ⟨"peer-b", _, rfl, by rw [rounds]; exact List.mem_cons_of_mem _ List.mem_cons_self, by simp [authored]⟩
  · exact ⟨"peer-a", _, rfl, by rw [rounds]; exact List.mem_cons_self, by simp [authored]⟩
  · exact absurd rfl apart

end Cluster

end ConvergioMesh
