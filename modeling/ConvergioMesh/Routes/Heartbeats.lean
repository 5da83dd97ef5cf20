import ConvergioMesh.Routes.Presence
import ConvergioMesh.Sync.Totals
import ConvergioMesh.Transport.Fresh

/-!
# Presence after any heartbeats

The heartbeat table over runs of requests, and what every reader of it answers: the status, the list
of peers, the readiness, and the extension's own statistics and health.
-/

namespace ConvergioMesh

open Library

/-- A request to the heartbeat handler, and `unixepoch()` when its row is written. -/
structure HeartbeatPost where
  io : HeartbeatIo
  headers : MeshHeaders
  body : Bytes
  written : Int64

/-- The row that the request writes, if the handler gets to its upsert and that succeeds. -/
def HeartbeatPost.accepted (c : Crypto) (secret : Option Bytes) (p : HeartbeatPost) : Option Heartbeat :=
  (handleHeartbeat c secret p.io p.headers p.body).2.map fun b => ⟨b.peer, p.written, b.version, b.capabilities, b.role⟩

def receiveHeartbeat (c : Crypto) (secret : Option Bytes) (t : Heartbeats) (p : HeartbeatPost) : Heartbeats :=
  match (handleHeartbeat c secret p.io p.headers p.body).2 with
  | some body => storeHeartbeat p.written t body
  | none => t

def receiveHeartbeats (c : Crypto) (secret : Option Bytes) (posts : List HeartbeatPost) : Heartbeats :=
  posts.foldl (receiveHeartbeat c secret) .empty

/-- The last accepted heartbeat of a peer. -/
def lastHeard (c : Crypto) (secret : Option Bytes) (posts : List HeartbeatPost) (peer : String) : Option Heartbeat :=
  KeyedRows.lastOf Heartbeat.peerName peer (posts.filterMap (·.accepted c secret))

variable {c : Crypto} {secret : Option Bytes} {posts : List HeartbeatPost} {now : Int64}

theorem receiveHeartbeat_of_accepted {t : Heartbeats} {p : HeartbeatPost} {h : Heartbeat}
    (accepted : p.accepted c secret = some h) :
    receiveHeartbeat c secret t p = storeHeartbeat h.lastSeen t ⟨h.peerName, h.version, h.capabilities, h.role⟩ := by
  obtain ⟨body, stored, rfl⟩ := Option.map_eq_some_iff.mp accepted
  rw [receiveHeartbeat, stored]

theorem receiveHeartbeat_of_rejected {t : Heartbeats} {p : HeartbeatPost} (rejected : p.accepted c secret = none) :
    receiveHeartbeat c secret t p = t := by
  rw [receiveHeartbeat, Option.map_eq_none_iff.mp rejected]

theorem find_storeHeartbeat_same (h : Heartbeat) (t : Heartbeats) :
    (storeHeartbeat h.lastSeen t ⟨h.peerName, h.version, h.capabilities, h.role⟩).find h.peerName = some h := by
  refine KeyedRows.find_upsert_same.trans ?_
  cases held : t.find h.peerName with
  | none => rfl
  | some old =>
    obtain ⟨_, same⟩ := KeyedRows.find_eq_some.mp held
    simp [same]

/-- The table holds the last accepted heartbeat of each peer. -/
theorem receiveHeartbeats_find (c : Crypto) (secret : Option Bytes) (posts : List HeartbeatPost) (peer : String) :
    (receiveHeartbeats c secret posts).find peer = lastHeard c secret posts peer := by
  refine (KeyedRows.find_foldl_overwrite (receiveHeartbeat c secret) (·.accepted c secret) ?_ ?_ ?_ posts peer).trans
    Option.or_none
  · intro t p h accepted
    rw [receiveHeartbeat_of_accepted accepted]
    exact find_storeHeartbeat_same h t
  · intro t p h accepted k other
    rw [receiveHeartbeat_of_accepted accepted]
    exact KeyedRows.find_upsert_other other
  · exact fun t p rejected => receiveHeartbeat_of_rejected rejected

/-! ### What the readers answer -/

structure MeshStats where
  peersOnline : Nat
  totalSynced : Nat
  lastSyncLatencyMs : Option Int64

/-- The pool and the queries of `stats`, and the order in which the last one meets rows of one time. -/
structure StatsIo where
  pool : Except String Unit := .ok ()
  onlineFault : Bool := false
  syncedFault : Bool := false
  latencyFault : Bool := false
  scan : List SyncStats → List SyncStats := id

inductive Health where
  | ok
  | degraded (reason : String)
  | down (reason : String)
  deriving DecidableEq

structure Metric where
  name : String
  value : ℚ

structure ComponentHealth where
  name : String
  status : Health
  message : Option String

/-- `ORDER BY last_sync_at DESC`; NULL comes last. -/
def syncedLater (r r' : SyncStats) : Bool :=
  match r.lastSyncAt, r'.lastSyncAt with
  | _, none => true
  | none, some _ => false
  | some at', some at'' => at'' ≤ at'

/-- A NULL cannot be read as a number. -/
def lastLatency (scan : List SyncStats → List SyncStats) (s : StatsTable) : Option Int64 :=
  ((scan s.rows).insertionSort fun r r' => syncedLater r r').head?.bind (·.lastLatencyMs)

namespace MeshExtension

def stats (io : StatsIo) (now : Int64) (t : Heartbeats) (s : StatsTable) : Except String MeshStats :=
  match io.pool with
  | .error why => .error why
  | .ok () =>
    .ok {
      peersOnline := if io.onlineFault then 0 else t.rows.countP (isOnline now)
      totalSynced := if io.syncedFault then 0 else totalSynced s
      lastSyncLatencyMs := if io.latencyFault then none else lastLatency io.scan s }

def health (stats : Except String MeshStats) : Health :=
  match stats with
  | .ok s => if 0 < s.peersOnline then .ok else .degraded "no peers online"
  | .error e => .down ("mesh stats failed: " ++ e)

/-- `metrics`, up to the rounding of its floats. -/
def metrics (stats : Except String MeshStats) : List Metric :=
  match stats with
  | .ok s =>
    [⟨"mesh_peers_online", s.peersOnline⟩, ⟨"mesh_total_synced", s.totalSynced⟩] ++
      s.lastSyncLatencyMs.toList.map fun latency => ⟨"mesh_sync_latency_ms", latency.toInt⟩
  | .error _ => []

def check (stats : Except String MeshStats) : ComponentHealth :=
  match stats with
  | .ok s => {
      name := "mesh"
      status := if 0 < s.peersOnline then .ok else .degraded "no peers"
      message := some (toString s.peersOnline ++ " peers, " ++ toString s.totalSynced ++ " synced") }
  | .error e => ⟨"mesh", .down e, none⟩

end MeshExtension

/-- The peers whose last accepted heartbeat is less than 600 seconds old. -/
def onlinePeers (c : Crypto) (secret : Option Bytes) (posts : List HeartbeatPost) (now : Int64) : List String :=
  ((posts.filterMap (·.accepted c secret)).map (·.peerName)).dedup.filter fun peer =>
    (lastHeard c secret posts peer).any (isOnline now)

theorem mem_onlinePeers {peer : String} :
    peer ∈ onlinePeers c secret posts now ↔ ∃ h, lastHeard c secret posts peer = some h ∧ isOnline now h = true := by
  rw [onlinePeers, List.mem_filter, List.mem_dedup, ← KeyedRows.isSome_lastOf, Option.any_eq_true]
  refine and_iff_right_of_imp ?_
  rintro ⟨h, last, _⟩
  exact Option.isSome_of_eq_some last

theorem countP_online (c : Crypto) (secret : Option Bytes) (posts : List HeartbeatPost) (now : Int64) :
    (receiveHeartbeats c secret posts).rows.countP (isOnline now) = (onlinePeers c secret posts now).length := by
  have keys : ((receiveHeartbeats c secret posts).rows.map Heartbeat.peerName).Perm
      ((posts.filterMap (·.accepted c secret)).map (·.peerName)).dedup := by
    refine KeyedRows.keys_perm fun peer => ?_
    rw [receiveHeartbeats_find, lastHeard, KeyedRows.isSome_lastOf]
  rw [KeyedRows.countP_rows, keys.countP_eq, onlinePeers, ← List.countP_eq_length_filter]
  simp only [receiveHeartbeats_find]

theorem listed_online_iff {l : LocalNode} {t : Heartbeats} {peer : String} (remote : isLocal l.name peer = false) :
    (∃ entry ∈ handlePeers now l t, entry.peer = peer ∧ entry.status = "online") ↔
      ∃ h, t.find peer = some h ∧ isOnline now h = true := by
  have stored {h : Heartbeat} (named : h.peerName = peer) : shownEntry now l h = storedEntry now h :=
    if_neg (by simp [named, remote])
  by_cases own : ∃ h ∈ t.rows, isLocal l.name h.peerName = true
  · have shown := handlePeers_of_local (l := l) now own
    constructor
    · rintro ⟨entry, member, named, online⟩
      obtain ⟨h, row, rfl⟩ := List.mem_map.mp (shown.mem_iff.mp member)
      have same : h.peerName = peer := (shownEntry_peer ..).symm.trans named
      rw [stored same] at online
      exact ⟨h, KeyedRows.find_eq_some.mpr ⟨row, same⟩, storedEntry_online.mp online⟩
    · rintro ⟨h, found, online⟩
      obtain ⟨row, same⟩ := KeyedRows.find_eq_some.mp found
      refine ⟨_, shown.mem_iff.mpr (List.mem_map_of_mem row), ?_⟩
      rw [stored same]
      exact ⟨same, storedEntry_online.mpr online⟩
  · have absent : ∀ h ∈ t.rows, isLocal l.name h.peerName = false := fun h row =>
      Bool.eq_false_iff.mpr fun known => own ⟨h, row, known⟩
    have shown := handlePeers_of_absent (l := l) now absent
    constructor
    · rintro ⟨entry, member, named, online⟩
      rcases List.mem_cons.mp (shown.mem_iff.mp member) with rfl | later
      · rw [← named, show (localEntry now l).peer = l.name from rfl, isLocal_name] at remote
        cases remote
      · obtain ⟨h, row, rfl⟩ := List.mem_map.mp later
        exact ⟨h, KeyedRows.find_eq_some.mpr ⟨row, named⟩, storedEntry_online.mp online⟩
    · rintro ⟨h, found, online⟩
      obtain ⟨row, same⟩ := KeyedRows.find_eq_some.mp found
      exact ⟨_, shown.mem_iff.mpr (List.mem_cons_of_mem _ (List.mem_map_of_mem row)), same,
        storedEntry_online.mpr online⟩

/-- What each reader makes of a table in which these peers are online. The list of peers has the local node as well,
and every name it takes for it. -/
structure ShowsOnline (now : Int64) (l : LocalNode) (t : Heartbeats) (s : StatsTable) (online : List String) : Prop where
  status : handleStatus now t (some (totalSynced s)) = ⟨online.length + 1, totalSynced s⟩
  listed : ∀ peer, isLocal l.name peer = false →
    ((∃ entry ∈ handlePeers now l t, entry.peer = peer ∧ entry.status = "online") ↔ peer ∈ online)
  self : (∃ entry ∈ handlePeers now l t, isLocal l.name entry.peer = true) ∧
    ∀ entry ∈ handlePeers now l t, isLocal l.name entry.peer = true → entry.status = "online"
  readiness : ∀ (io : ReadinessIo) r,
    handleNodeReadiness { io with peersOnline := some (t.rows.countP (isOnline now)) } s = .ok r →
      r.meshPeers = online.length
  stats : ∀ scan, MeshExtension.stats { scan } now t s = .ok ⟨online.length, totalSynced s, lastLatency scan s⟩
  metrics : ∀ scan, ∀ m ∈ MeshExtension.metrics (MeshExtension.stats { scan } now t s),
    m.name = "mesh_peers_online" → m.value = online.length
  measured : ∀ scan, ∃ m ∈ MeshExtension.metrics (MeshExtension.stats { scan } now t s), m.name = "mesh_peers_online"
  healthy : ∀ scan, MeshExtension.health (MeshExtension.stats { scan } now t s) = .ok ↔ online ≠ []
  checked : ∀ scan, (MeshExtension.check (MeshExtension.stats { scan } now t s)).status = .ok ↔ online ≠ []

/-- After any requests, all readers agree on which other nodes are online: the peers whose last accepted heartbeat is
less than 600 seconds old. The status and the list of peers add the local node. -/
theorem heartbeats_shown (c : Crypto) (secret : Option Bytes) (posts : List HeartbeatPost) (now : Int64) (l : LocalNode)
    (s : StatsTable) :
    ShowsOnline now l (receiveHeartbeats c secret posts) s (onlinePeers c secret posts now) := by
  have count := countP_online c secret posts now
  have stats (scan : List SyncStats → List SyncStats) :
      MeshExtension.stats { scan } now (receiveHeartbeats c secret posts) s =
        .ok ⟨(onlinePeers c secret posts now).length, totalSynced s, lastLatency scan s⟩ := by
    rw [← count]
    rfl
  constructor
  · rw [← count]
    rfl
  · intro peer remote
    rw [listed_online_iff remote, receiveHeartbeats_find, mem_onlinePeers]
  · exact local_listed now l _
  · intro io r answered
    rw [count] at answered
    unfold handleNodeReadiness at answered
    split at answered
    · cases answered
    · obtain rfl := Except.ok.inj answered
      rfl
  · exact stats
  · intro scan m listed named
    rw [stats, MeshExtension.metrics, List.mem_append, List.mem_pair] at listed
    rcases listed with (rfl | rfl) | latency
    · rfl
    · simp at named
    · obtain ⟨_, _, rfl⟩ := List.mem_map.mp latency
      simp at named
  · intro scan
    rw [stats]
    exact ⟨_, List.mem_cons_self, rfl⟩
  · intro scan
    rw [stats, MeshExtension.health, ← List.length_pos_iff]
    split <;> simp_all
  · intro scan
    rw [stats, MeshExtension.check, ← List.length_pos_iff]
    dsimp only
    split <;> simp_all

/-! ### The latency -/

instance : Std.Total fun r r' : SyncStats => syncedLater r r' = true where
  total r r' := by
    unfold syncedLater
    cases r.lastSyncAt <;> cases r'.lastSyncAt <;> simp [le_total]

instance : IsTrans SyncStats fun r r' => syncedLater r r' = true where
  trans r r' r'' later later' := by
    unfold syncedLater at *
    cases first : r.lastSyncAt <;> cases second : r'.lastSyncAt <;> cases third : r''.lastSyncAt <;> simp_all
    exact later'.trans later

/-- The latency is that of the last recorded visit at an address, which is no older than those at the other addresses. -/
structure ShowsLatency (vs : List Visit) (latency : Option Int64) : Prop where
  none_iff : latency = none ↔ ∀ v ∈ vs, v.io.statsFault = true
  latest : ∀ ms, latency = some ms → ∃ addr v, (recordedAt addr vs).getLast? = some v ∧ v.io.latencyMs = ms ∧
    ∀ addr' w, (recordedAt addr' vs).getLast? = some w → w.io.now ≤ v.io.now

theorem find_recorded (e : Engine) (vs : List Visit) (addr : String) :
    ((vs.foldl (Visit.record e) .empty).find addr).map (fun r => (r.lastSyncAt, r.lastLatencyMs)) =
      (recordedAt addr vs).getLast?.map fun v => (some v.io.now, some v.io.latencyMs) := by
  rw [record_find, show (KeyedRows.empty : StatsTable).find addr = none from rfl]
  unfold expectedStats
  cases (recordedAt addr vs).getLast? <;> rfl

theorem stored_of_recorded (e : Engine) {vs : List Visit} {addr : String} {v : Visit}
    (last : (recordedAt addr vs).getLast? = some v) :
    ∃ r ∈ (vs.foldl (Visit.record e) .empty).rows, r.lastSyncAt = some v.io.now := by
  have shown := find_recorded e vs addr
  rw [last, Option.map_some] at shown
  obtain ⟨r, found, same⟩ := Option.map_eq_some_iff.mp shown
  exact ⟨r, (KeyedRows.find_eq_some.mp found).1, (Prod.mk.inj same).1⟩

theorem recorded_of_stored {e : Engine} {vs : List Visit} {r : SyncStats}
    (stored : r ∈ (vs.foldl (Visit.record e) .empty).rows) :
    ∃ v, (recordedAt r.peerName vs).getLast? = some v ∧ r.lastSyncAt = some v.io.now ∧
      r.lastLatencyMs = some v.io.latencyMs := by
  have shown := find_recorded e vs r.peerName
  rw [KeyedRows.find_eq_some.mpr ⟨stored, rfl⟩, Option.map_some] at shown
  obtain ⟨v, last, same⟩ := Option.map_eq_some_iff.mp shown.symm
  obtain ⟨at_now, latency⟩ := Prod.mk.inj same
  exact ⟨v, last, at_now.symm, latency.symm⟩

theorem last_of_recorded {vs : List Visit} {v : Visit} (member : v ∈ vs) (works : v.io.statsFault = false) :
    ∃ w, (recordedAt v.addr vs).getLast? = some w := by
  refine Option.isSome_iff_exists.mp (List.getLast?_isSome.mpr fun none => ?_)
  have recorded : v ∈ recordedAt v.addr vs := List.mem_filter.mpr ⟨member, by simp [works]⟩
  rw [none] at recorded
  cases recorded

theorem showsLatency (e : Engine) (vs : List Visit) {scan : List SyncStats → List SyncStats}
    (permutes : ∀ rows, (scan rows).Perm rows) :
    ShowsLatency vs (lastLatency scan (vs.foldl (Visit.record e) .empty)) := by
  let stats : StatsTable := vs.foldl (Visit.record e) .empty
  have perm := (List.perm_insertionSort (fun r r' => syncedLater r r' = true) (scan stats.rows)).trans (permutes _)
  have sorted := List.pairwise_insertionSort (fun r r' => syncedLater r r' = true) (scan stats.rows)
  change ShowsLatency vs (Option.bind (List.head? _) _)
  -- Of the order of the rows only these two facts are used, so rows of one time may come in any order.
  revert perm sorted
  cases List.insertionSort (fun r r' => syncedLater r r' = true) (scan stats.rows) with
  | nil =>
    intro perm _
    refine ⟨iff_of_true rfl fun v member => ?_, fun ms none => nomatch none⟩
    by_contra works
    obtain ⟨w, last⟩ := last_of_recorded member (Bool.eq_false_iff.mpr works)
    obtain ⟨r, stored, _⟩ := stored_of_recorded e last
    cases perm.mem_iff.mpr stored
  | cons r rest =>
    intro perm sorted
    have first : r ∈ stats.rows := perm.mem_iff.mp List.mem_cons_self
    obtain ⟨v, last, at_now, latency⟩ := recorded_of_stored first
    rw [List.head?_cons, Option.bind_some, latency]
    constructor
    · refine iff_of_false nofun fun faults => ?_
      have works := (List.mem_filter.mp (List.mem_of_getLast? last)).2
      simp [faults v (List.mem_filter.mp (List.mem_of_getLast? last)).1] at works
    · intro ms same
      refine ⟨r.peerName, v, last, Option.some.inj same, fun addr' w last' => ?_⟩
      obtain ⟨r', stored, at_then⟩ := stored_of_recorded e last'
      rcases List.mem_cons.mp (perm.mem_iff.mpr stored) with rfl | later
      · rw [at_now] at at_then
        rw [Option.some.inj at_then]
      · have le := List.rel_of_pairwise_cons sorted later
        simpa [syncedLater, at_now, at_then] using le

/-- After any rounds the extension reports the latency of the latest visit that is recorded, and none if there is none. -/
theorem latency_shown (e : Engine) (envs : List RoundEnv) (db : Database) {scan : List SyncStats → List SyncStats}
    (permutes : ∀ rows, (scan rows).Perm rows) (now : Int64) (t : Heartbeats) :
    ∃ stats, MeshExtension.stats { scan } now t (runRounds e envs ⟨db, .empty⟩).stats = .ok stats ∧
      ShowsLatency (runVisits e envs ⟨db, .empty⟩) stats.lastSyncLatencyMs := by
  refine ⟨_, rfl, ?_⟩
  rw [runRounds_stats]
  exact showsLatency e _ permutes

theorem m5_latency_shown :
    ∃ stats, MeshExtension.stats { scan := List.reverse } 1776772800 .empty
        (runRounds sampleEngine [m5Round (.ok [])] ⟨plansDb noPlans, .empty⟩).stats = .ok stats ∧
      ShowsLatency (runVisits sampleEngine [m5Round (.ok [])] ⟨plansDb noPlans, .empty⟩) stats.lastSyncLatencyMs :=
  latency_shown sampleEngine [m5Round (.ok [])] (plansDb noPlans) List.reverse_perm 1776772800 .empty

/-! ### Who was online -/

theorem HeartbeatPost.accepts {key : Bytes} {p : HeartbeatPost} {h : Heartbeat}
    (accepted : p.accepted c (some key) = some h) : Accepts c key p.io.now .heartbeat p.headers := by
  obtain ⟨body, stored, _⟩ := Option.map_eq_some_iff.mp accepted
  unfold handleHeartbeat at stored
  unfold Accepts
  cases check : checkHmac c (some key) p.io.now heartbeatPath p.headers with
  | none => exact check
  | some rejection =>
    rw [check] at stored
    cases stored

/-- In a mesh with a secret a peer is online only if an honest node has signed a heartbeat in the last 900 seconds,
give or take what passes between the check of a request and its upsert. -/
theorem online_signed_recently {key : Bytes} {log : List Signed} (ideal : Unforgeable c key log) {delay : Nat}
    (prompt : ∀ p ∈ posts, p.written.toInt ≤ p.io.now.toInt + delay)
    (exact : ∀ p ∈ posts, ∀ ep ts body, .post ep ts body ∈ log → AgeExact p.io.now ts) {peer : String}
    (online : peer ∈ onlinePeers c (some key) posts now) :
    ∃ p ∈ posts, ∃ h ts body, p.accepted c (some key) = some h ∧ h.peerName = peer ∧
      .post .heartbeat ts body ∈ log ∧ p.headers.timestamp = some (toString ts.toInt) ∧
      now.toInt - (900 + delay) < ts.toInt := by
  obtain ⟨h, last, recent⟩ := mem_onlinePeers.mp online
  obtain ⟨stored, named⟩ := KeyedRows.lastOf_eq_some last
  obtain ⟨p, posted, accepted⟩ := List.mem_filterMap.mp stored
  obtain ⟨ts, body, signed, timestamp, _, age⟩ :=
    Accepts.fresh ideal (exact p posted) (HeartbeatPost.accepts accepted)
  refine ⟨p, posted, h, ts, body, accepted, named, signed, timestamp, ?_⟩
  have seen : h.lastSeen = p.written := by
    obtain ⟨_, _, rfl⟩ := Option.map_eq_some_iff.mp accepted
    rfl
  have close := prompt p posted
  rw [isOnline, decide_eq_true_eq, seen] at recent
  omega

/-! ### A signed heartbeat -/

/-- The body `{"peer":"a100","role":"","version":"0.1.13"}`. -/
def a100Heartbeat : Bytes :=
  [123, 34, 112, 101, 101, 114, 34, 58, 34, 97, 49, 48, 48, 34, 44, 34, 114, 111, 108, 101, 34, 58, 34, 34, 44, 34,
    118, 101, 114, 115, 105, 111, 110, 34, 58, 34, 48, 46, 49, 46, 49, 51, 34, 125]

def a100HeartbeatHash : Bytes :=
  [163, 36, 145, 30, 208, 213, 178, 211, 25, 113, 73, 17, 252, 160, 77, 249, 64, 122, 131, 98, 3, 198, 175, 185,
    105, 249, 50, 117, 101, 124, 72, 11]

/-- The HMAC-SHA256 with `meshKey` of a heartbeat of `a100Heartbeat` at 1776772800. -/
def a100HeartbeatTag : Bytes :=
  [143, 19, 198, 82, 234, 7, 198, 167, 52, 153, 202, 164, 138, 27, 210, 196, 198, 95, 38, 106, 3, 21, 23, 63, 100,
    223, 255, 255, 82, 232, 23, 251]

/-- Digests that agree with the real ones on `a100Heartbeat`, in a mesh where nothing else is signed. -/
def a100Crypto : Crypto where
  sha256 body := if body = a100Heartbeat then a100HeartbeatHash else body ++ List.replicate 33 0
  hmac _ _ := a100HeartbeatTag
  verifySlice secret data tag :=
    secret = meshKey && data = utf8 ("1776772800:POST:/api/heartbeat:" ++ hexEncode a100HeartbeatHash) &&
      tag = a100HeartbeatTag

/-- The heartbeat arrives half a minute after it was signed. -/
def a100Post : HeartbeatPost where
  io := { now := 1776772830, decode := fun _ => .ok ⟨"a100", some "0.1.13", none, some ""⟩, pool := .ok (), upsert := fun _ => .ok () }
  headers := {
    authorization := some "Bearer dev-local"
    timestamp := some "1776772800"
    signature := some "8f13c652ea07c6a73499caa48a1bd2c4c65f266a0315173f64dfffff52e817fb"
    bodyHash := some "a324911ed0d5b2d319714911fca04df9407a836203c6afb969f93275657c480b" }
  body := a100Heartbeat
  written := 1776772831

theorem a100Crypto_unforgeable : Unforgeable a100Crypto meshKey [.post .heartbeat 1776772800 a100Heartbeat] := by
  intro data tag verifies
  refine ⟨_, List.mem_singleton_self _, ?_⟩
  simp only [a100Crypto, Bool.and_eq_true, decide_eq_true_eq] at verifies
  exact verifies.1.2

theorem a100_signed_recently :
    "a100" ∈ onlinePeers a100Crypto (some meshKey) [a100Post] 1776773400 ∧
      ∃ p ∈ [a100Post], ∃ h ts body, p.accepted a100Crypto (some meshKey) = some h ∧ h.peerName = "a100" ∧
        .post .heartbeat ts body ∈ [Signed.post .heartbeat 1776772800 a100Heartbeat] ∧
        p.headers.timestamp = some (toString ts.toInt) ∧ (1776773400 : Int64).toInt - (900 + (1 : Nat)) < ts.toInt := by
  have online : "a100" ∈ onlinePeers a100Crypto (some meshKey) [a100Post] 1776773400 := by decide
  refine ⟨online, online_signed_recently a100Crypto_unforgeable ?_ ?_ online⟩
  · intro p posted
    obtain rfl := List.mem_singleton.mp posted
    decide
  · intro p posted ep ts body member
    obtain rfl := List.mem_singleton.mp posted
    obtain ⟨_, rfl, _⟩ := Signed.post.inj (List.mem_singleton.mp member)
    exact ageExact_of_clocks (by decide) (by decide)

end ConvergioMesh
