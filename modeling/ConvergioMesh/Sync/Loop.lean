import ConvergioMesh.Library.Upsert
import ConvergioMesh.Peers.Registry
import ConvergioMesh.Sync.Round
import ConvergioMesh.Sync.Schema

/-!
# The sync loop

`run_sync_round` visits the active peers in the order of their names. What the network, the clock
and the other writers of the database do is an input, for each visit.
-/

namespace ConvergioMesh

open Library

/-! ### Addresses -/

def peerToFields (peer : PeerConfig) : Kv :=
  let map : Kv := ∅
  let map := peer.thunderboltIp.elim map (map.insert "thunderbolt_ip".toList)
  let map := peer.lanIp.elim map (map.insert "lan_ip".toList)
  if peer.tailscaleIp = [] then map else map.insert "tailscale_ip".toList peer.tailscaleIp

/-- `resolve_best_addr`, given which addresses parse and take a connection. -/
def resolveBestAddr (connects : Text → Bool) (fields : Kv) : Option Text :=
  let candidates := ["thunderbolt_ip", "lan_ip", "tailscale_ip"].filterMap fun key =>
    fields[key.toList]?.filter (· ≠ [])
  (candidates.map (· ++ ":8420".toList)).find? connects

/-! ### `mesh_sync_stats` -/

structure SyncStats where
  peerName : String
  totalSent : Nat := 0
  totalReceived : Nat := 0
  totalApplied : Nat := 0
  lastSyncAt : Option String := none
  lastLatencyMs : Option Int64 := none
  lastError : Option String := none
  consecutiveFailures : Nat := 0

abbrev StatsTable := KeyedRows SyncStats.peerName

/-- `update_mesh_sync_stats`; the upsert names neither `consecutive_failures` nor the columns that
are left out here. -/
def updateMeshSyncStats (fault : Bool) (stats : StatsTable) (peerAddr : String) (sent received applied : Nat)
    (latencyMs : Int64) (now : String) : StatsTable :=
  if fault then stats
  else
    stats.upsert
      { peerName := peerAddr, totalSent := sent, totalReceived := received, totalApplied := applied
        lastSyncAt := some now, lastLatencyMs := some latencyMs, lastError := none }
      (fun r => { r with
        totalSent := r.totalSent + sent
        totalReceived := r.totalReceived + received
        totalApplied := r.totalApplied + applied
        lastSyncAt := some now
        lastLatencyMs := some latencyMs
        lastError := none })
      fun _ same => same

/-! ### A round -/

/-- What one visit of a peer meets. -/
structure PeerIo where
  /-- What the other writers have made of the database since the last visit. -/
  others : Database → Database := id
  connects : Text → Bool
  /-- The requests, the clock and the failures of `sync_table_with_peer`, by table. -/
  tables : String → RoundIo
  latencyMs : Int64 := 0
  now : String := ""
  statsFault : Bool := false
  /-- What a health request would return. -/
  health : HealthIo

structure RoundEnv where
  /-- The text of `peers.conf`, if it can be read. -/
  conf : Option Text
  poolFault : Bool := false
  localTailscaleIp : Option Text := none
  peers : Text → PeerIo

structure LoopState where
  db : Database
  stats : StatsTable

/-- The loop over the tables: the database afterwards, and the totals. -/
def syncTablesWithPeer (e : Engine) (io : PeerIo) (addr : String) : List String → Database → Database × Nat × Nat × Nat
  | [], db => (db, 0, 0, 0)
  | table :: rest, db =>
    let (db, sent, received, applied) := syncTableWithPeer e (io.tables table) db addr table
    let (db, totalSent, totalReceived, totalApplied) := syncTablesWithPeer e io addr rest db
    (db, sent + totalSent, received + totalReceived, applied + totalApplied)

/-- The body of the loop over the peers. The heartbeat that ends it changes nothing here. -/
def visitPeer (e : Engine) (io : PeerIo) (addr : String) (s : LoopState) : LoopState :=
  let (db, sent, received, applied) := syncTablesWithPeer e io addr syncTables (io.others s.db)
  ⟨db, updateMeshSyncStats io.statsFault s.stats addr sent received applied io.latencyMs io.now⟩

/-- The address at which a round visits a peer; none for the node itself and for a peer out of reach. -/
def RoundEnv.visitedAt (env : RoundEnv) (name : Text) (peer : PeerConfig) : Option String :=
  if env.localTailscaleIp = some peer.tailscaleIp then none
  else (resolveBestAddr (env.peers name).connects (peerToFields peer)).map String.ofList

def visitPeers (e : Engine) (env : RoundEnv) : List (Text × PeerConfig) → LoopState → LoopState
  | [], s => s
  | (name, peer) :: rest, s =>
    match env.visitedAt name peer with
    | none => visitPeers e env rest s
    | some addr => visitPeers e env rest (visitPeer e (env.peers name) addr s)

/-- The peers of a round: none if the registry cannot be loaded or the pool gives no connection. -/
def RoundEnv.activePeers (env : RoundEnv) : List (Text × PeerConfig) :=
  match PeersRegistry.load env.conf with
  | .error _ => []
  | .ok registry => if env.poolFault then [] else registry.listActive

def runSyncRound (e : Engine) (env : RoundEnv) (s : LoopState) : LoopState := visitPeers e env env.activePeers s

def runRounds (e : Engine) (envs : List RoundEnv) (s : LoopState) : LoopState :=
  envs.foldl (fun s env => runSyncRound e env s) s

/-! ### The visits of a run -/

/-- A visit: the peer, the address, what it meets, the database it starts from. -/
structure Visit where
  peer : Text
  addr : String
  io : PeerIo
  before : Database

/-- A call of `sync_table_with_peer`, and the database it starts from. -/
structure TableCall where
  addr : String
  table : String
  io : RoundIo
  before : Database

def TableCall.since (c : TableCall) : Option String := getSyncMeta c.io.metaFault c.before c.addr c.table

def TableCall.exported (e : Engine) (c : TableCall) : Except SqlError (List SyncChange) :=
  if c.io.exportFault then .error .fault else exportChangesSince e c.before c.table c.since

def tableCalls (e : Engine) (io : PeerIo) (addr : String) : List String → Database → List TableCall
  | [], _ => []
  | table :: rest, db =>
    ⟨addr, table, io.tables table, db⟩ ::
      tableCalls e io addr rest (syncTableWithPeer e (io.tables table) db addr table).1

def Visit.calls (e : Engine) (v : Visit) : List TableCall := tableCalls e v.io v.addr syncTables v.before

def visits (e : Engine) (env : RoundEnv) : List (Text × PeerConfig) → LoopState → List Visit
  | [], _ => []
  | (name, peer) :: rest, s =>
    match env.visitedAt name peer with
    | none => visits e env rest s
    | some addr =>
      ⟨name, addr, env.peers name, (env.peers name).others s.db⟩ ::
        visits e env rest (visitPeer e (env.peers name) addr s)

def runVisits (e : Engine) : List RoundEnv → LoopState → List Visit
  | [], _ => []
  | env :: rest, s => visits e env env.activePeers s ++ runVisits e rest (runSyncRound e env s)

end ConvergioMesh
