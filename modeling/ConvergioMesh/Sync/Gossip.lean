import ConvergioMesh.Sync.Cluster

/-!
# Gossip

A message brings news of every row its exporter had heard of and that is above the cursor. A node that
has worked through it, without an error and without a race, holds each of these rows or one that has replaced it.
-/

namespace ConvergioMesh

open Library

theorem Keeps.of_eq {name : String} {db db' : Database} (same : db'.tables name = db.tables name) : Keeps name db db' :=
  fun t present => ⟨t, same.trans present, fun r member l dated => ⟨r, member, rfl, l, dated, le_rfl⟩⟩

theorem HeldAt.newer {db : Database} {name : String} {r s : Row} (held : HeldAt db name s) (same : s.key = r.key)
    (newer : r.date ≤ s.date) : HeldAt db name r := by
  obtain ⟨t, present, u, member, key, l, dated, above⟩ := held
  exact ⟨t, present, u, member, key.trans same, l, dated, newer.trans above⟩

theorem forall₂_set {α β : Type} {R S : α → β → Prop} {l : List α} {m : List β} (h : l.Forall₂ R m)
    (kept : ∀ a b, R a b → S a b) {k : Nat} {x y : α} (there : l[k]? = some x) (changed : ∀ b, R x b → S y b) :
    (l.set k y).Forall₂ S m := by
  induction h generalizing k with
  | nil => cases there
  | cons head tail ih =>
    cases k with
    | zero =>
      obtain rfl := Option.some.inj there
      exact .cons (changed _ head) (tail.imp kept)
    | succ k => exact .cons (kept _ _ head) (ih there)

namespace World

variable {e : Engine} {table : String} {w w' : World} {a : Event}

theorem Step.keeps (h : Step e table w a w')
    (older : ∀ r t, a = .write r → w.db.tables table = some t → DisplacesOlder t r)
    (displaces : ∀ i f c, a = .run i f → w.writers.calls[i]? = some c → Displaces e f table w.db c) :
    Keeps table w.db w'.db := by
  cases h with
  | write r t shape fits present stamped own => exact (older r t rfl present).keeps present
  | quiet i f c n call next same => exact .of_eq same
  | stored i f c p t call stores present fits =>
    obtain ⟨q, u, waiting, _, there, row⟩ := ApplyCall.stores_eq_some stores
    obtain rfl : t = u := Option.some.inj (present.symm.trans there)
    have displaced := displaces i f c rfl call q t waiting present
    rw [← row] at displaced
    exact displaced.keeps present
  | store => exact .of_eq (congrFun (upsertSyncMeta_tables ..) table)
  | _ => exact .refl _ _

end World

namespace Cluster

variable {ι : Type} {e : Engine} {sch : Schema} {table : String} {host : String → ι} {c c' : Cluster ι} {a : Action ι}

/-- No error, no row below the version it displaces, and a send succeeds once a call that started with
its batch has ended. -/
def Clean (e : Engine) (sch : Schema) (table : String) (host : String → ι) (c : Cluster ι) : Action ι → Prop
  | .own i (.run k f) => f.Calm ∧
      ∀ call, (c.node i).writers.calls[k]? = some call → Displaces e f table (c.node i).db call
  | .own i .sendOk => ∀ peer startAt since batch handler,
      (c.node i).round = some ⟨peer, startAt, .sending since batch handler⟩ → batch = [] ∨
        ∃ call, (call, c.sending i) ∈ (c.node (host peer)).writers.calls.zip (c.started (host peer)) ∧
          call.finished = true
  | .write i r => Portable e sch r ∧ ∀ t, (c.node i).db.tables table = some t → DisplacesOlder t r
  | _ => True

theorem Clean.writes (h : Clean e sch table host c a) : WritesVersions e sch c a := by
  cases a with
  | write i r => exact h.1
  | _ => trivial

/-- The call has lost sight of no row of the message it started with. -/
def Follows (e : Engine) (sch : Schema) (table : String) (c : Cluster ι) (db : Database) (call : ApplyCall) (n : Nat) :
    Prop := ∃ m, c.wire[n]? = some m ∧ Accounted e sch table m.changes db call

structure Informed (e : Engine) (sch : Schema) (table : String) (c : Cluster ι) : Prop where
  genuine : c.Genuine e sch table
  authored : ∀ i, ∀ r ∈ c.authored i, HeldAt (c.node i).db table r
  calls : ∀ i, (c.node i).writers.calls.Forall₂ (c.Follows e sch table (c.node i).db) (c.started i)
  wire : ∀ m ∈ c.wire, ∀ r ∈ m.heard, ∃ s, Relayable e sch s ∧ wiredChange e table s ∈ m.changes ∧
    s.key = r.key ∧ r.date ≤ s.date

theorem Informed.held (inv : c.Informed e sch table) {i : ι} {r : Row} (known : r ∈ c.heard i) :
    HeldAt (c.node i).db table r := by
  rcases mem_heard.mp known with own | ⟨call, n, m, listed, sent, finished, inside⟩
  · exact inv.authored i r own
  · obtain ⟨m', sent', accounted⟩ := List.forall₂_zip (inv.calls i) listed
    obtain rfl := Option.some.inj (sent.symm.trans sent')
    obtain ⟨s, relayable, held, same, newer⟩ := inv.wire m (List.mem_of_getElem? sent) r inside
    exact (accounted.held finished relayable held).newer same newer

/-- An export brings every row heard of above the cursor, or a newer version. -/
theorem Informed.exported (inv : c.Informed e sch table) {i : ι} {since : Option String} {changes : List SyncChange}
    (exported : exportChangesSince e (c.node i).db table since = .ok changes) {r : Row} (known : r ∈ c.heard i)
    (above : Below since r.date) :
    ∃ s, Relayable e sch s ∧ wiredChange e table s ∈ overWire e changes ∧ s.key = r.key ∧ r.date ≤ s.date := by
  obtain ⟨t, present, s, member, same, l, dated, newer⟩ := inv.held known
  have version := ((inv.genuine.node i).rows s ⟨t, present, member⟩).1
  rw [← Row.date_of_stamp dated] at newer
  refine ⟨s, version.relayable, ?_, same, newer⟩
  exact mem_overWire (World.mem_batch present member version.stamp exported fun d read => (above d read).trans_le newer)

/-- Versions of one id with one timestamp are the same version. -/
def Untied (c : Cluster ι) : Prop :=
  ∀ i j r s, r ∈ c.authored i → s ∈ c.authored j → r.key = s.key → r.date = s.date → r = s

/-- A node holds the row, or one that has replaced it: a row of its id that is no older, and newer where no two
versions tie. -/
def Retains (table : String) (c : Cluster ι) (i : ι) (r : Row) : Prop :=
  ∃ s, (c.node i).Holds table s ∧ s.key = r.key ∧ r.date ≤ s.date ∧ (c.Untied → s = r ∨ r.date < s.date)

theorem Informed.retains (inv : c.Informed e sch table) {i k : ι} {r : Row} (known : r ∈ c.heard k)
    (held : HeldAt (c.node i).db table r) : c.Retains table i r := by
  obtain ⟨t, present, s, member, same, l, dated, newer⟩ := held
  obtain rfl := Row.date_of_stamp dated
  refine ⟨s, ⟨t, present, member⟩, same, newer, fun untied => ?_⟩
  obtain ⟨j, own⟩ := inv.genuine.known known
  obtain ⟨_, j', own'⟩ := (inv.genuine.node i).rows s ⟨t, present, member⟩
  rcases newer.lt_or_eq with later | tie
  · exact .inr later
  · exact .inl (untied j' j s r own' own same tie.symm)

variable [DecidableEq ι]

theorem Step.keeps (h : Step e table host c a c') (clean : Clean e sch table host c a) (j : ι) :
    Keeps table (c.node j).db (c'.node j).db := by
  rcases h.moved with ⟨_, same, _⟩ | ⟨i, b, w, moved⟩
  · rw [same]
    exact .refl _ _
  · by_cases here : j = i
    · subst j
      rw [moved.node_same]
      refine (World.step_cases moved.stepped).keeps ?_ ?_
      · intro r t write present
        obtain rfl := moved.writes r write
        exact clean.2 t present
      · intro k f call run at_k
        obtain rfl := moved.runs k f run
        exact clean.2 call at_k
    · rw [moved.node_other here]
      exact .refl _ _

theorem Step.authored_cases (h : Step e table host c a c') {j : ι} {r : Row} (known : r ∈ c'.authored j) :
    r ∈ c.authored j ∨ a = .write j r := by
  cases h with
  | write i s w moved =>
    by_cases here : j = i
    · subst j
      simp only [author, Function.update_self, List.mem_cons] at known
      rcases known with rfl | old
      · exact .inr rfl
      · exact .inl old
    · simp only [author, Function.update_of_ne here] at known
      exact .inl known
  | _ => exact .inl known

theorem Step.written {i : ι} {r : Row} (h : Step e table host c (.write i r) c') (dated : r.stamp = some r.date) :
    HeldAt (c'.node i).db table r := by
  cases h with
  | write _ _ w moved =>
    cases World.step_cases moved with
    | write _ t shape fits present stamped own =>
      simp only [author, move, Function.update_self]
      exact ⟨_, Database.setTable_tables_same .., r, Table.mem_put.mpr (.inr rfl), rfl, r.date, dated, le_rfl⟩

theorem Informed.authored_step (inv : c.Informed e sch table) (clean : Clean e sch table host c a)
    (h : Step e table host c a c') : ∀ j, ∀ r ∈ c'.authored j, HeldAt (c'.node j).db table r := by
  intro j r known
  rcases h.authored_cases known with old | rfl
  · exact (h.keeps clean j).held (inv.authored j r old)
  · exact h.written clean.1.stamp

theorem Informed.wire_step (inv : c.Informed e sch table) (h : Step e table host c a c') :
    ∀ m ∈ c'.wire, ∀ r ∈ m.heard, ∃ s, Relayable e sch s ∧ wiredChange e table s ∈ m.changes ∧
      s.key = r.key ∧ r.date ≤ s.date := by
  rcases h.wire with same | ⟨i, since, changes, added, exported⟩
  · rw [same]
    exact inv.wire
  · rw [added]
    intro m sent r inside
    rcases List.mem_append.mp sent with old | new
    · exact inv.wire m old r inside
    · obtain rfl := List.mem_singleton.mp new
      obtain ⟨known, above⟩ := mem_message_heard.mp inside
      exact inv.exported exported known above

theorem Step.sent (h : Step e table host c a c') {n : Nat} {m : Message ι} (sent : c.wire[n]? = some m) :
    c'.wire[n]? = some m := by
  rcases h.wire with same | ⟨i, since, changes, added, _⟩
  · rwa [same]
  · rw [added, List.getElem?_append_left (List.getElem?_eq_some_iff.mp sent).1]
    exact sent

theorem Follows.step (h : Step e table host c a c') (clean : Clean e sch table host c a)
    (genuine : c'.Genuine e sch table) {j : ι} {call : ApplyCall} {n : Nat}
    (follows : c.Follows e sch table (c.node j).db call n) : c'.Follows e sch table (c'.node j).db call n := by
  obtain ⟨m, sent, accounted⟩ := follows
  exact ⟨m, h.sent sent, accounted.mono (h.keeps clean j) (genuine.node j).here⟩

theorem Informed.calls_step (schema : SyncedSchema table sch) (inv : c.Informed e sch table)
    (clean : Clean e sch table host c a) (h : Step e table host c a c') (genuine : c'.Genuine e sch table) :
    ∀ j, (c'.node j).writers.calls.Forall₂ (c'.Follows e sch table (c'.node j).db) (c'.started j) := by
  intro j
  have kept : ∀ call n, c.Follows e sch table (c.node j).db call n → c'.Follows e sch table (c'.node j).db call n :=
    fun call n => Follows.step h clean genuine
  rcases h.moved with ⟨_, same, rests⟩ | ⟨i, b, w, moved⟩
  · rw [rests, congrFun same j] at *
    exact (inv.calls j).imp kept
  by_cases here : j = i
  · subst j
    have node := moved.node_same
    rcases World.step_calls moved.stepped with
      ⟨k, f, call, n, rfl, at_k, next, same⟩ | ⟨changes, begins, same⟩ | ⟨rests, same⟩
    -- A call goes on: it accounts for the messages it could have started with.
    · obtain rfl := moved.runs k f rfl
      obtain ⟨calm, displaces⟩ := clean
      have changed : ∀ l, c.Follows e sch table (c.node i).db call l → c'.Follows e sch table (c'.node i).db n.2 l := by
        rintro l ⟨m, sent, accounted⟩
        have accepted := ((inv.genuine.node i).calls call (List.mem_of_getElem? at_k)).accepted (fun r => And.left)
          (inv.genuine.node i).here f
        have step := accounted.next schema calm accepted (displaces call at_k) next
        refine ⟨m, h.sent sent, ?_⟩
        rw [node, World.db, same]
        exact step.1
      have calls : (c'.node i).writers.calls = (c.node i).writers.calls.set k n.2 := by rw [node, same]
      rw [moved.rests rfl, calls]
      exact forall₂_set (inv.calls i) kept at_k changed
    -- A call begins, with all of its batch to go.
    · obtain ⟨n, m, sent, rfl, began⟩ := moved.starts changes begins
      have fresh : c'.Follows e sch table (c'.node i).db ⟨m.changes, none, {}⟩ n := by
        refine ⟨m, h.sent sent, (genuine.node i).here, fun change listed => ?_, (fun _ waiting => by cases waiting),
          fun r _ inside => .inr (.inl inside)⟩
        obtain ⟨r, _, rfl⟩ := inv.genuine.wire m (List.mem_of_getElem? sent) change listed
        rfl
      have calls : (c'.node i).writers.calls = (c.node i).writers.calls ++ [⟨m.changes, none, {}⟩] := by rw [node, same]
      rw [began, Function.update_self, calls]
      exact List.rel_append ((inv.calls i).imp kept) (.cons fresh .nil)
    · have calls : (c'.node i).writers.calls = (c.node i).writers.calls := by rw [node, same]
      rw [moved.rests rests, calls]
      exact (inv.calls i).imp kept
  · have calls : (c'.node j).writers.calls = (c.node j).writers.calls := by rw [moved.node_other here]
    rw [moved.started_other here, calls]
    exact (inv.calls j).imp kept

theorem Informed.step (schema : SyncedSchema table sch) (inv : c.Informed e sch table)
    (clean : Clean e sch table host c a) (h : Step e table host c a c') : c'.Informed e sch table :=
  have genuine := inv.genuine.step clean.writes h
  ⟨genuine, inv.authored_step clean h, inv.calls_step schema clean h genuine, inv.wire_step h⟩

omit [DecidableEq ι] in
theorem Initial.informed (h : c.Initial e sch table) : c.Informed e sch table where
  genuine := h.genuine
  authored i r own := by
    obtain ⟨t, present, member⟩ := (h.rows i r).mpr own
    exact ⟨t, present, r, member, rfl, r.date, (h.portable i r own).stamp, le_rfl⟩
  calls i := by
    rw [h.calls i, h.started i]
    exact .nil
  wire := by simp [h.wire]

/-- In every run without errors and races a node holds each row it has heard of, or one that has replaced it. -/
theorem heard_held (schema : SyncedSchema table sch) {c₀ : Cluster ι} (start : c₀.Initial e sch table)
    (run : Run (step e table host) (Clean e sch table host) c₀ c) {i : ι} {r : Row} (known : r ∈ c.heard i) :
    c.Retains table i r := by
  have informed : c.Informed e sch table :=
    run.invariant (fun _ _ _ inv clean h => inv.step schema clean (step_cases h)) start.informed
  exact informed.retains known (informed.held known)

theorem displacesOlder_true {t : Table} {r : Row} (h : displacesOlder t r = true) : DisplacesOlder t r := by
  intro s member clash
  have checked := List.all_eq_true.mp h s member
  rw [clash, Bool.not_true, Bool.false_or, Bool.and_eq_true, decide_eq_true_eq] at checked
  refine ⟨checked.1, fun l stamped => ?_⟩
  rw [stamped, Option.all_some, Option.any_eq_true] at checked
  exact checked.2.imp fun u newer => ⟨newer.1, of_decide_eq_true newer.2⟩

theorem clean_of_smooth {c : Cluster Bool} {a : Action Bool} (listed : a ∈ pairActions) (h : smooth c a = true) :
    Clean sampleEngine plansSchema "plans" pairHost c a := by
  cases a with
  | own i b =>
    cases b with
    | run k f =>
      obtain ⟨none_fails, displaces⟩ := Bool.and_eq_true_iff.mp h
      obtain rfl : f = {} := of_decide_eq_true none_fails
      refine ⟨Faults.calm_none, fun call at_k p t waiting present => ?_⟩
      simp only [at_k, waiting, present, Option.all_some] at displaces
      exact displacesOlder_true displaces
    | sendOk =>
      intro peer startAt since batch handler active
      simp only [smooth, active, Option.all_some, List.any_eq_true, Bool.and_eq_true, decide_eq_true_eq] at h
      obtain ⟨⟨call, n⟩, began, rfl, finished⟩ := h
      exact .inr ⟨call, began, finished⟩
    | _ => trivial
  | write i r =>
    obtain ⟨_, rfl⟩ := pair_written listed
    refine ⟨plan_portable .., fun t present s member => ?_⟩
    simp only [smooth, present, Option.all_some, List.isEmpty_iff] at h
    rw [h] at member
    cases member
  | _ => trivial

theorem pair_heard_held : ∃ c : Cluster Bool, plan 1 "a" "2026-04-21 14:00:00" ∈ c.heard true ∧
    c.Retains "plans" true (plan 1 "a" "2026-04-21 14:00:00") := by
  have reached : (replay (step sampleEngine "plans" pairHost) smooth pair pairActions).map
      (fun c => decide (plan 1 "a" "2026-04-21 14:00:00" ∈ c.heard true)) = some true := by decide +kernel
  obtain ⟨c, ran, heard⟩ := Option.map_eq_some_iff.mp reached
  have heard := of_decide_eq_true heard
  exact ⟨c, heard, heard_held plansSchema_synced pair_initial
    ((replay_run ran).weaken fun _ _ ok => clean_of_smooth ok.1 ok.2) heard⟩

end Cluster

end ConvergioMesh
