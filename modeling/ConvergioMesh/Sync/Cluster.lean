import ConvergioMesh.Sync.Provenance

/-!
# A cluster

Nodes that sync one table with each other. What a node exports, to send it or to answer a fetch, stays
on the wire: it may arrive at any time, repeatedly or never. An address leads to one node, and a node
may have several addresses.
-/

namespace ConvergioMesh

open Library

variable {ι : Type}

/-- An exported batch as its receiver reads it, and the rows it brings news of, which no step reads: those its
exporter had heard of and that are above the cursor. -/
structure Message (ι : Type) where
  source : ι
  since : Option String
  changes : List SyncChange
  heard : List Row

/-- The nodes and the wire, and a history that no step reads: the message each call started with, the one
the round of a node sends, the rows each node authored, those authored before the export of its round,
and what each completed round had to deliver. -/
structure Cluster (ι : Type) where
  node : ι → World
  wire : List (Message ι) := []
  started : ι → List Nat := fun _ => []
  sending : ι → Nat := fun _ => 0
  authored : ι → List Row
  offered : ι → List Row := fun _ => []
  rounds : List (ι × String × List Row) := []

inductive Action (ι : Type) where
  /-- An event of a node that concerns no message. -/
  | own (i : ι) (a : Event)
  | write (i : ι) (r : Row)
  | export (i : ι)
  | store (i : ι)
  /-- An export request is answered. -/
  | serve (i : ι) (since : Option String)
  /-- An import request arrives. -/
  | receive (i : ι) (peer : String) (message : Nat)
  | fetch (i : ι) (message : Nat)

def Event.alone : Event → Bool
  | .tick _ | .run _ _ | .openRound _ | .readMeta _ | .sendOk | .abort => true
  | _ => false

theorem Event.starts_of_alone {a : Event} (h : a.alone = true) : a.starts = none := by
  cases a <;> first | rfl | cases h

/-- The cursor and the batch of a round that is about to send. -/
def World.batch (w : World) : Option (Option String × List SyncChange) :=
  w.round.bind fun round =>
    match round.phase with
    | .sending since batch _ => some (since, batch)
    | _ => none

namespace Cluster

/-- The rows a node knows of: its own, and those of every message it has worked through. -/
def heard (c : Cluster ι) (i : ι) : List Row :=
  c.authored i ++ ((c.node i).writers.calls.zip (c.started i)).flatMap fun call =>
    if call.1.finished then (c.wire[call.2]?).elim [] (·.heard) else []

def message (e : Engine) (c : Cluster ι) (i : ι) (since : Option String) (changes : List SyncChange) : Message ι :=
  ⟨i, since, overWire e changes, (c.heard i).filter fun r => Below since r.date⟩

theorem mem_heard {c : Cluster ι} {i : ι} {r : Row} : r ∈ c.heard i ↔ r ∈ c.authored i ∨
    ∃ (call : ApplyCall) (n : Nat) (m : Message ι), (call, n) ∈ (c.node i).writers.calls.zip (c.started i) ∧
      c.wire[n]? = some m ∧ call.finished = true ∧ r ∈ m.heard := by
  rw [heard, List.mem_append, List.mem_flatMap]
  refine or_congr_right ⟨?_, ?_⟩
  · rintro ⟨⟨call, n⟩, listed, inside⟩
    split at inside
    · rename_i finished
      cases sent : c.wire[n]? with
      | none => simp [sent] at inside
      | some m =>
        simp only [sent, Option.elim_some] at inside
        exact ⟨call, n, m, listed, sent, finished, inside⟩
    · cases inside
  · rintro ⟨call, n, m, listed, sent, finished, inside⟩
    exact ⟨(call, n), listed, by simpa [finished, sent] using inside⟩

theorem mem_message_heard {e : Engine} {c : Cluster ι} {i : ι} {since : Option String} {changes : List SyncChange}
    {r : Row} : r ∈ (message e c i since changes).heard ↔ r ∈ c.heard i ∧ Below since r.date := by
  simp [message, List.mem_filter]

variable [DecidableEq ι]

def move (c : Cluster ι) (i : ι) (w : World) : Cluster ι := { c with node := Function.update c.node i w }

/-- The next call of a node starts with this message. -/
def start (c : Cluster ι) (i : ι) (w : World) (message : Nat) : Cluster ι :=
  { c.move i w with started := Function.update c.started i (c.started i ++ [message]) }

def author (c : Cluster ι) (i : ι) (w : World) (r : Row) : Cluster ι :=
  { c.move i w with authored := Function.update c.authored i (r :: c.authored i) }

def send (e : Engine) (c : Cluster ι) (i : ι) (w : World) (since : Option String) (batch : List SyncChange) :
    Cluster ι :=
  { c.move i w with
    wire := c.wire ++ [message e c i since batch]
    sending := Function.update c.sending i c.wire.length
    offered := Function.update c.offered i (c.authored i) }

def complete (c : Cluster ι) (i : ι) (w : World) (peer : String) : Cluster ι :=
  { c.move i w with rounds := (i, peer, c.offered i) :: c.rounds }

def answer (e : Engine) (c : Cluster ι) (i : ι) (since : Option String) (changes : List SyncChange) : Cluster ι :=
  { c with wire := c.wire ++ [message e c i since changes] }

def step (e : Engine) (table : String) (host : String → ι) (c : Cluster ι) : Action ι → Option (Cluster ι)
  | .own i a => if a.alone then ((c.node i).step e table a).map (c.move i) else none
  | .write i r => ((c.node i).step e table (.write r)).map (c.author i · r)
  | .export i => ((c.node i).step e table .export).bind fun w => w.batch.map fun b => send e c i w b.1 b.2
  | .store i => (c.node i).round.bind fun round =>
    ((c.node i).step e table .store).map (c.complete i · round.peer)
  | .serve i since =>
    match exportChangesSince e (c.node i).db table since with
    | .ok changes => some (answer e c i since changes)
    | .error _ => none
  | .receive i peer n => (c.wire[n]?).bind fun m =>
    if host peer = m.source then some (c.start i ((c.node i).startCall peer m.changes) n) else none
  | .fetch i n => (c.wire[n]?).bind fun m => (c.node i).round.bind fun round =>
    match round.phase with
    | .sent since _ =>
      if host round.peer = m.source ∧ since = m.since then
        ((c.node i).step e table (.fetch m.changes)).map (c.start i · n)
      else none
    | _ => none

inductive Step (e : Engine) (table : String) (host : String → ι) (c : Cluster ι) : Action ι → Cluster ι → Prop where
  | own (i : ι) (a : Event) (w : World) (alone : a.alone = true) (moved : (c.node i).step e table a = some w) :
      Step e table host c (.own i a) (c.move i w)
  | write (i : ι) (r : Row) (w : World) (moved : (c.node i).step e table (.write r) = some w) :
      Step e table host c (.write i r) (c.author i w r)
  | export (i : ι) (w : World) (since : Option String) (changes : List SyncChange)
      (moved : (c.node i).step e table .export = some w) (batch : w.batch = some (since, changes)) :
      Step e table host c (.export i) (send e c i w since changes)
  | store (i : ι) (w : World) (round : Round) (active : (c.node i).round = some round)
      (moved : (c.node i).step e table .store = some w) : Step e table host c (.store i) (c.complete i w round.peer)
  | serve (i : ι) (since : Option String) (changes : List SyncChange)
      (exported : exportChangesSince e (c.node i).db table since = .ok changes) :
      Step e table host c (.serve i since) (answer e c i since changes)
  | receive (i : ι) (peer : String) (n : Nat) (m : Message ι) (sent : c.wire[n]? = some m)
      (source : host peer = m.source) :
      Step e table host c (.receive i peer n) (c.start i ((c.node i).startCall peer m.changes) n)
  | fetch (i : ι) (n : Nat) (m : Message ι) (w : World) (round : Round) (batch : List SyncChange)
      (sent : c.wire[n]? = some m) (active : (c.node i).round = some round)
      (phase : round.phase = .sent m.since batch) (source : host round.peer = m.source)
      (moved : (c.node i).step e table (.fetch m.changes) = some w) :
      Step e table host c (.fetch i n) (c.start i w n)

variable {e : Engine} {table : String} {host : String → ι} {c c' : Cluster ι} {a : Action ι}

theorem step_cases (h : c.step e table host a = some c') : Step e table host c a c' := by
  cases a with
  | own i a =>
    dsimp only [step] at h
    split at h
    · rename_i alone
      obtain ⟨w, moved, rfl⟩ := Option.map_eq_some_iff.mp h
      exact .own i a w alone moved
    · cases h
  | write i r =>
    obtain ⟨w, moved, rfl⟩ := Option.map_eq_some_iff.mp h
    exact .write i r w moved
  | «export» i =>
    obtain ⟨w, moved, h⟩ := Option.bind_eq_some_iff.mp h
    obtain ⟨⟨since, changes⟩, batch, rfl⟩ := Option.map_eq_some_iff.mp h
    exact .export i w since changes moved batch
  | store i =>
    obtain ⟨round, active, h⟩ := Option.bind_eq_some_iff.mp h
    obtain ⟨w, moved, rfl⟩ := Option.map_eq_some_iff.mp h
    exact .store i w round active moved
  | serve i since =>
    dsimp only [step] at h
    split at h
    · rename_i changes exported
      obtain rfl := Option.some.inj h
      exact .serve i since changes exported
    · cases h
  | receive i peer n =>
    obtain ⟨m, sent, h⟩ := Option.bind_eq_some_iff.mp h
    split at h
    · rename_i source
      obtain rfl := Option.some.inj h
      exact .receive i peer n m sent source
    · cases h
  | fetch i n =>
    obtain ⟨m, sent, h⟩ := Option.bind_eq_some_iff.mp h
    obtain ⟨round, active, h⟩ := Option.bind_eq_some_iff.mp h
    split at h
    · rename_i since batch phase
      split at h
      · rename_i asked
        obtain ⟨source, rfl⟩ := asked
        obtain ⟨w, moved, rfl⟩ := Option.map_eq_some_iff.mp h
        exact .fetch i n m w round batch sent active phase source moved
      · cases h
    · cases h

/-- One node has made a step. -/
structure Moved (e : Engine) (table : String) (c : Cluster ι) (a : Action ι) (c' : Cluster ι) (i : ι) (b : Event)
    (w : World) : Prop where
  stepped : (c.node i).step e table b = some w
  node : c'.node = Function.update c.node i w
  writes : ∀ r, b = .write r → a = .write i r
  runs : ∀ k f, b = .run k f → a = .own i (.run k f)
  stores : b = .store → a = .store i
  starts : ∀ changes, b.starts = some changes → ∃ n m, c.wire[n]? = some m ∧ m.changes = changes ∧
    c'.started = Function.update c.started i (c.started i ++ [n])
  rests : b.starts = none → c'.started = c.started

theorem Step.moved (h : Step e table host c a c') :
    (∃ i since, a = .serve i since) ∧ c'.node = c.node ∧ c'.started = c.started ∨
      ∃ i b w, Moved e table c a c' i b w := by
  cases h with
  | own i b w alone moved =>
    refine .inr ⟨i, b, w, moved, rfl, ?_, ?_, ?_, ?_, fun _ => rfl⟩
    · rintro r rfl
      cases alone
    · rintro k f rfl
      rfl
    · rintro rfl
      cases alone
    · intro changes starts
      rw [Event.starts_of_alone alone] at starts
      cases starts
  | write i r w moved => exact .inr ⟨i, .write r, w, moved, rfl, by simp, by simp, by simp, nofun, fun _ => rfl⟩
  | «export» i w since changes moved batch =>
    exact .inr ⟨i, .export, w, moved, rfl, by simp, by simp, by simp, nofun, fun _ => rfl⟩
  | store i w round active moved => exact .inr ⟨i, .store, w, moved, rfl, by simp, by simp, by simp, nofun, fun _ => rfl⟩
  | serve i since changes exported => exact .inl ⟨⟨i, since, rfl⟩, rfl, rfl⟩
  | receive i peer n m sent source =>
    refine .inr ⟨i, .receive peer m.changes, _, rfl, rfl, by simp, by simp, by simp, ?_, nofun⟩
    intro changes starts
    exact ⟨n, m, sent, Option.some.inj starts, rfl⟩
  | fetch i n m w round batch sent active phase source moved =>
    refine .inr ⟨i, .fetch m.changes, w, moved, rfl, by simp, by simp, by simp, ?_, nofun⟩
    intro changes starts
    exact ⟨n, m, sent, Option.some.inj starts, rfl⟩

theorem Moved.forall {P : ι → World → Prop} {i : ι} {b : Event} {w : World} (h : Moved e table c a c' i b w)
    (all : ∀ j, P j (c.node j)) (moved : P i w) (j : ι) : P j (c'.node j) := by
  rw [h.node]
  exact (Function.forall_update_iff c.node (p := P)).mpr ⟨moved, fun k _ => all k⟩ j

theorem Moved.node_same {i : ι} {b : Event} {w : World} (h : Moved e table c a c' i b w) : c'.node i = w := by
  rw [h.node, Function.update_self]

theorem Moved.node_other {i j : ι} {b : Event} {w : World} (h : Moved e table c a c' i b w) (other : j ≠ i) :
    c'.node j = c.node j := by
  rw [h.node, Function.update_of_ne other]

theorem Moved.started_other {i j : ι} {b : Event} {w : World} (h : Moved e table c a c' i b w) (other : j ≠ i) :
    c'.started j = c.started j := by
  cases begins : b.starts with
  | none => rw [h.rests begins]
  | some changes =>
    obtain ⟨n, m, _, _, began⟩ := h.starts changes begins
    rw [began, Function.update_of_ne other]

theorem Step.authored (h : Step e table host c a c') (j : ι) : ∀ r ∈ c.authored j, r ∈ c'.authored j := by
  intro r known
  cases h with
  | write i s w moved =>
    by_cases here : j = i
    · subst j
      simp [author, known]
    · simpa [author, here] using known
  | _ => exact known

theorem Step.wire (h : Step e table host c a c') :
    c'.wire = c.wire ∨ ∃ i since changes, c'.wire = c.wire ++ [message e c i since changes] ∧
      exportChangesSince e (c.node i).db table since = .ok changes := by
  cases h with
  | «export» i w since changes moved batch =>
    cases World.step_cases moved with
    | «export» round s b active phase exported =>
      obtain ⟨rfl, rfl⟩ := Prod.mk.inj (Option.some.inj batch)
      exact .inr ⟨i, s, b, rfl, exported⟩
  | serve i since changes exported => exact .inr ⟨i, since, changes, rfl, exported⟩
  | _ => exact .inl rfl

/-! ### Every version is authored by some node -/

/-- Nothing sent and no cursor stored: each node authored the rows it holds. -/
structure Initial (e : Engine) (sch : Schema) (table : String) (c : Cluster ι) : Prop where
  here : ∀ i, (c.node i).db.HasTable table sch
  rows : ∀ i r, (c.node i).Holds table r ↔ r ∈ c.authored i
  portable : ∀ i, ∀ r ∈ c.authored i, Portable e sch r
  idle : ∀ i, (c.node i).round = none
  calls : ∀ i, (c.node i).writers.calls = []
  started : ∀ i, c.started i = []
  unsynced : ∀ i peer, (c.node i).db.syncMeta peer table = none
  wire : c.wire = []
  rounds : c.rounds = []

def Version (e : Engine) (sch : Schema) (c : Cluster ι) (r : Row) : Prop := Portable e sch r ∧ ∃ j, r ∈ c.authored j

structure Genuine (e : Engine) (sch : Schema) (table : String) (c : Cluster ι) : Prop where
  node : ∀ i, (c.node i).Genuine e sch table (c.Version e sch)
  wire : ∀ m ∈ c.wire, Whole e table (c.Version e sch) m.changes
  heard : ∀ m ∈ c.wire, ∀ r ∈ m.heard, ∃ j, r ∈ c.authored j

/-- Every local write is a row that a peer with the same schema stores as it is, also after a trip over the wire. -/
def WritesVersions (e : Engine) (sch : Schema) (_ : Cluster ι) : Action ι → Prop
  | .write _ r => Portable e sch r
  | _ => True

variable {sch : Schema}

omit [DecidableEq ι] in
theorem Initial.genuine (h : c.Initial e sch table) : c.Genuine e sch table where
  node i := {
    here := h.here i
    rows := fun r held => have own := (h.rows i r).mp held; ⟨h.portable i r own, i, own⟩
    calls := by simp [h.calls i] }
  wire := by simp [h.wire]
  heard := by simp [h.wire]

omit [DecidableEq ι] in
theorem Genuine.known (inv : c.Genuine e sch table) {i : ι} {r : Row} (known : r ∈ c.heard i) :
    ∃ j, r ∈ c.authored j := by
  rcases mem_heard.mp known with own | ⟨call, n, m, _, sent, _, inside⟩
  · exact ⟨i, own⟩
  · exact inv.heard m (List.mem_of_getElem? sent) r inside

theorem Step.version (h : Step e table host c a c') {r : Row} (known : c.Version e sch r) : c'.Version e sch r :=
  ⟨known.1, known.2.imp fun j => h.authored j r⟩

theorem Step.writes {i : ι} {r : Row} (h : Step e table host c (.write i r) c') : r ∈ c'.authored i := by
  cases h
  simp [author]

theorem Genuine.step (inv : c.Genuine e sch table) (writes : WritesVersions e sch c a)
    (h : Step e table host c a c') : c'.Genuine e sch table := by
  have kept : ∀ i, (c.node i).Genuine e sch table (c'.Version e sch) := fun i => (inv.node i).mono fun r => h.version
  have carried : ∀ m ∈ c.wire, Whole e table (c'.Version e sch) m.changes := fun m sent =>
    (inv.wire m sent).mono fun r => h.version
  refine ⟨?_, ?_, ?_⟩
  · rcases h.moved with ⟨_, same, _⟩ | ⟨i, b, w, moved⟩
    · rwa [same]
    · refine moved.forall kept ((kept i).step (fun r => And.left) moved.stepped ?_ ?_)
      · intro r write
        obtain rfl := moved.writes r write
        exact ⟨writes, i, h.writes⟩
      · intro changes start
        obtain ⟨n, m, sent, rfl, _⟩ := moved.starts changes start
        exact carried m (List.mem_of_getElem? sent)
  · rcases h.wire with same | ⟨i, since, changes, added, exported⟩
    · rwa [same]
    · rw [added]
      intro m sent
      rcases List.mem_append.mp sent with old | new
      · exact carried m old
      · obtain rfl := List.mem_singleton.mp new
        exact (kept i).exported exported
  · intro m sent r inside
    have before : ∃ j, r ∈ c.authored j := by
      rcases h.wire with same | ⟨i, since, changes, added, _⟩
      · exact inv.heard m (same ▸ sent) r inside
      · rw [added] at sent
        rcases List.mem_append.mp sent with old | new
        · exact inv.heard m old r inside
        · obtain rfl := List.mem_singleton.mp new
          exact inv.known (mem_message_heard.mp inside).1
    exact before.imp fun j => h.authored j r

/-- Whatever the network loses, repeats or reorders, whatever fails and however writers race: every row
of every node was authored, as a whole, by some node. -/
theorem rows_authored {c₀ : Cluster ι} (start : c₀.Initial e sch table)
    (run : Run (step e table host) (WritesVersions e sch) c₀ c) {i : ι} {r : Row} (held : (c.node i).Holds table r) :
    ∃ j, r ∈ c.authored j := by
  have genuine : c.Genuine e sch table :=
    run.invariant (fun _ _ _ inv writes h => inv.step writes (step_cases h)) start.genuine
  exact ((genuine.node i).rows r held).2

/-- Two nodes, one of which holds a plan. -/
def pair : Cluster Bool where
  node i := {
    writers := ⟨plansDb (if i then plansTable [(2, "b", "2026-04-21 07:00:00")] (by decide) else noPlans), []⟩
    clock := .april21 14
    peers _ := plansDb noPlans }
  authored i := if i then [plan 2 "b" "2026-04-21 07:00:00"] else []

def pairHost (peer : String) : Bool := peer = "peer-b"

/-- The first node writes a plan; then each of the two completes a round with the other. -/
def pairActions : List (Action Bool) :=
  [.write false (plan 1 "a" "2026-04-21 14:00:00"), .own false (.tick (.april21 15)),
    .own false (.openRound "peer-b"), .own false (.readMeta false), .export false,
    .receive true "peer-a" 0, .own true (.run 0 {}), .own true (.run 0 {}), .own false .sendOk,
    .serve true none, .fetch false 1, .own false (.run 0 {}), .own false (.run 0 {}), .own false (.run 0 {}),
    .store false, .own true (.tick (.april21 16)), .own true (.openRound "peer-a"), .own true (.readMeta false),
    .export true, .receive false "peer-b" 2, .own false (.run 1 {}), .own false (.run 1 {}), .own true .sendOk,
    .serve false none, .fetch true 3, .own true (.run 1 {}), .own true (.run 1 {}), .store true]

def displacesOlder (t : Table) (r : Row) : Bool :=
  t.rows.all fun s => !t.schema.conflict r s ||
    decide (s.key = r.key) && s.stamp.all fun l => r.stamp.any fun u => l ≤ u

/-- No error, no race, and a send succeeds once its batch is worked through. -/
def smooth (c : Cluster Bool) : Action Bool → Bool
  | .own i (.run k f) => f = {} && ((c.node i).writers.calls[k]?).all fun call =>
    call.pending.all fun p => ((c.node i).db.tables "plans").all fun t => displacesOlder t (p.row sampleEngine f.defaults t)
  | .own i .sendOk => (c.node i).round.all fun round =>
    ((c.node (pairHost round.peer)).writers.calls.zip (c.started (pairHost round.peer))).any fun call =>
      call.2 = c.sending i && call.1.finished
  | .write i _ => ((c.node i).db.tables "plans").all fun t => t.rows.isEmpty
  | _ => true

theorem pair_reaches : ∃ c, replay (step sampleEngine "plans" pairHost) smooth pair pairActions = some c ∧
    (c.authored false = [plan 1 "a" "2026-04-21 14:00:00"] ∧ c.authored true = [plan 2 "b" "2026-04-21 07:00:00"]) ∧
    c.rounds = [(true, "peer-a", [plan 2 "b" "2026-04-21 07:00:00"]), (false, "peer-b", [plan 1 "a" "2026-04-21 14:00:00"])] ∧
    ((c.node true).db.tables "plans").map (·.rows) =
      some [plan 2 "b" "2026-04-21 07:00:00", plan 1 "a" "2026-04-21 14:00:00"] := by
  have reached : (replay (step sampleEngine "plans" pairHost) smooth pair pairActions).map (fun c =>
      (decide (c.authored false = [plan 1 "a" "2026-04-21 14:00:00"] ∧
          c.authored true = [plan 2 "b" "2026-04-21 07:00:00"]),
        decide (c.rounds =
          [(true, "peer-a", [plan 2 "b" "2026-04-21 07:00:00"]), (false, "peer-b", [plan 1 "a" "2026-04-21 14:00:00"])]),
        decide (((c.node true).db.tables "plans").map (·.rows) =
          some [plan 2 "b" "2026-04-21 07:00:00", plan 1 "a" "2026-04-21 14:00:00"]))) =
      some (true, true, true) := by decide +kernel
  obtain ⟨c, ran, ends⟩ := Option.map_eq_some_iff.mp reached
  simp only [Prod.mk.injEq, decide_eq_true_eq] at ends
  exact ⟨c, ran, ends⟩

theorem pair_written {i : Bool} {r : Row} (listed : .write i r ∈ pairActions) :
    i = false ∧ r = plan 1 "a" "2026-04-21 14:00:00" := by
  simpa [pairActions] using listed

theorem plan_portable (id : Int64) (name updatedAt : String) :
    Portable sampleEngine plansSchema (plan id name updatedAt) where
  toVersioned := (plansTable_text [(id, name, updatedAt)] (List.pairwise_singleton ..)).versioned plansSchema_text
    List.mem_cons_self
  travels := World.plan_travels sampleEngine id name updatedAt

theorem pair_initial : pair.Initial sampleEngine plansSchema "plans" where
  here i := ⟨_, rfl, by cases i <;> rfl⟩
  rows i r := by cases i <;> simp [pair, World.Holds, plansDb, noPlans, plansTable]
  portable i r own := by
    cases i with
    | false => cases own
    | true =>
      obtain rfl := List.mem_singleton.mp own
      exact plan_portable ..
  idle i := rfl
  calls i := rfl
  started i := rfl
  unsynced i peer := rfl
  wire := rfl
  rounds := rfl

theorem pair_row_authored : ∃ c : Cluster Bool, (c.node true).Holds "plans" (plan 1 "a" "2026-04-21 14:00:00") ∧
    ∃ j, plan 1 "a" "2026-04-21 14:00:00" ∈ c.authored j := by
  obtain ⟨c, ran, _, _, rows⟩ := pair_reaches
  obtain ⟨t, present, rows⟩ := Option.map_eq_some_iff.mp rows
  have held : (c.node true).Holds "plans" (plan 1 "a" "2026-04-21 14:00:00") :=
    ⟨t, present, by rw [rows]; exact List.mem_cons_of_mem _ List.mem_cons_self⟩
  refine ⟨c, held, rows_authored pair_initial ((replay_run ran).weaken fun d a ok => ?_) held⟩
  cases a with
  | write i r =>
    obtain ⟨_, rfl⟩ := pair_written ok.1
    exact plan_portable ..
  | own | «export» | store | serve | receive | fetch => exact trivial

end Cluster

end ConvergioMesh
