import ConvergioMesh.Capability.Requests
import ConvergioMesh.Library.Service
import ConvergioMesh.Routes.CrossPoll
import ConvergioMesh.Routes.Roles
import ConvergioMesh.Sync.Visible

/-!
# The server

All routes over one database, answering one request after another: what a request can change, what
it cannot see, and which requests might as well not have been sent.
-/

namespace ConvergioMesh

open Library

/-- The tables that the routes read and write. -/
structure ServerState where
  db : Database
  stats : StatsTable
  heartbeats : Heartbeats
  roles : RoleAssignments
  capabilities : CapabilityTable

/-- What the server is built with. -/
structure ServerEnv where
  engine : Engine
  crypto : Crypto
  sharedSecret : Option Bytes
  codec : CapabilityCodec

structure ImportPost where
  io : ImportIo
  headers : MeshHeaders
  body : Bytes

/-- A request to one of the routes, with what its handler meets. -/
inductive Request where
  | status (now : Int64) (pool : Except String Unit) (onlineFault syncedFault : Bool)
  | peers (now : Int64) (io : QueryIo) (node : LocalNode)
  | readiness (now : Int64) (io : ReadinessIo)
  | export (io : ExportIo) (q : ExportQuery)
  | syncStatus (io : QueryIo)
  | plansSummary (io : SummaryIo) (proxy : ProxyIo) (via : Option Text)
  | availableRoles
  | role (pool : Except String Unit) (fault : Bool) (node : LocalNode)
  | topology (now : Int64) (io : QueryIo)
  | peerCapabilities (io : CapabilityIo) (fault : Bool) (scan : List CapabilityRow → List CapabilityRow) (peer : String)
  | listCapabilities (io : CapabilityIo) (fault : Bool) (iterate : List NodeCapabilities → List NodeCapabilities)
  | queryCapabilities (io : CapabilityIo) (fault : Bool) (scan : List CapabilityRow → List CapabilityRow)
      (iterate : List CapabilityMatch → List CapabilityMatch) (q : CapabilityQuery)
  | import (post : ImportPost)
  | heartbeat (post : HeartbeatPost)
  | setRole (post : RolePost)
  | capabilities (post : CapabilityPost)

inductive Answer where
  | status (a : Except String MeshStatus)
  | peers (a : Except String (List PeerEntry))
  | readiness (a : Except String Readiness)
  | response (a : Response)
  | syncStatus (a : Except String (List SyncStatusEntry))
  | summary (a : SummaryAnswer)
  | availableRoles (a : List RoleInfo)
  | setRole (a : Except String SetRoleRequest)
  | role (a : Except String NodeRole)
  | topology (a : Except String (List TopologyNode × Nat))
  | peerCapabilities (a : Except String (List NodeCapability))
  | listCapabilities (a : Except String (List NodeCapabilities))
  | queryCapabilities (a : Except String (List CapabilityMatch))
  | registered (a : Except String Nat)
  | deleted (a : Except String Unit)

namespace ServerState

variable (env : ServerEnv) (s : ServerState)

def handleImport (post : ImportPost) : Handled :=
  ConvergioMesh.handleImport env.engine env.crypto env.sharedSecret post.io s.db post.headers post.body

/-- A query of the heartbeats that fails finds none. -/
def heard (fault : Bool) : Heartbeats := if fault then .empty else s.heartbeats

def capabilityAnswer : CapabilityPost → Answer
  | .register io peer caps ios => .registered (handleRegister env.codec io s.capabilities peer caps ios).2
  | .delete io peer fault => .deleted (handleDeletePeer io s.capabilities peer fault).2

/-- The state after a request, and the answer. -/
def handle : Request → ServerState × Answer
  | .status now pool onlineFault syncedFault => (s, .status (pool.map fun _ =>
    handleStatus now (s.heard onlineFault) (if syncedFault then none else some (totalSynced s.stats))))
  | .peers now io node => (s, .peers (io.ready.map fun _ => handlePeers now node (s.heard io.queryFault)))
  | .readiness now io =>
    (s, .readiness (handleNodeReadiness { io with peersOnline := some (s.heartbeats.rows.countP (isOnline now)) } s.stats))
  | .export io q => (s, .response (handleExport env.engine io s.db q))
  | .syncStatus io => (s, .syncStatus (handleSyncStatus io s.stats))
  | .plansSummary io proxy via => (s, .summary (handlePlansSummary io proxy s.db via))
  | .availableRoles => (s, .availableRoles handleAvailableRoles)
  | .role pool fault node => (s, .role (handleGetRole pool fault node s.roles))
  | .topology now io => (s, .topology (handleTopology io now s.heartbeats s.roles))
  | .peerCapabilities io fault scan peer =>
    (s, .peerCapabilities (handleGetPeer env.codec scan io fault s.capabilities peer))
  | .listCapabilities io fault iterate =>
    (s, .listCapabilities (handleListAll env.codec iterate io fault s.capabilities))
  | .queryCapabilities io fault scan iterate q =>
    (s, .queryCapabilities (handleQuery env.codec scan iterate io fault s.capabilities q))
  | .import post => ({ s with db := (s.handleImport env post).db }, .response (s.handleImport env post).response)
  | .heartbeat post =>
    ({ s with heartbeats := receiveHeartbeat env.crypto env.sharedSecret s.heartbeats post },
      .response (handleHeartbeat env.crypto env.sharedSecret post.io post.headers post.body).1)
  | .setRole post =>
    ({ s with roles := (handleSetRole post.io s.roles post.body).1 }, .setRole (handleSetRole post.io s.roles post.body).2)
  | .capabilities post => ({ s with capabilities := post.handle env.codec s.capabilities }, s.capabilityAnswer env post)

end ServerState

/-- The state after these requests. -/
def serve (env : ServerEnv) (s : ServerState) (rs : List Request) : ServerState := after (ServerState.handle env) s rs

/-- The requests with their answers. -/
def served (env : ServerEnv) (s : ServerState) (rs : List Request) : List (Request × Answer) :=
  transcript (ServerState.handle env) s rs

/-! ### What a request can change -/

def Request.asImport : Request → Option ImportPost
  | .import post => some post
  | _ => none

/-- The database after an import. -/
def importInto (env : ServerEnv) (db : Database) (post : ImportPost) : Database :=
  (handleImport env.engine env.crypto env.sharedSecret post.io db post.headers post.body).db

variable {env : ServerEnv} {s s' : ServerState} {rs : List Request}

/-- The changes that an import works through: none if it is not let through or decoded, gets no connection, or its
first PRAGMA fails. -/
def ImportPost.attempts (env : ServerEnv) (post : ImportPost) : List (Faults × SyncChange) :=
  match checkHmac env.crypto env.sharedSecret post.io.now importPath post.headers, post.io.decode post.body,
    post.io.pool with
  | none, .ok changes, .ok () =>
    if post.io.applyFaults.pragmaOff then [] else ConvergioMesh.attempts post.io.applyFaults.changes changes
  | _, _, _ => []

theorem applyChanges_eq_attempts (e : Engine) (f : ApplyFaults) (db : Database) (changes : List SyncChange) :
    (applyChanges e f db changes).1 = applyAttempts e db (if f.pragmaOff then [] else attempts f.changes changes) := by
  cases changes with
  | nil => cases off : f.pragmaOff <;> rfl
  | cons c rest =>
    unfold applyChanges applyChangesDetailed
    cases off : f.pragmaOff with
    | true => rfl
    | false => exact applyChangesInner_eq_attempts ..

theorem importInto_eq_attempts (env : ServerEnv) (db : Database) (post : ImportPost) :
    importInto env db post = applyAttempts env.engine db (post.attempts env) := by
  unfold importInto handleImport ImportPost.attempts
  cases checkHmac env.crypto env.sharedSecret post.io.now importPath post.headers with
  | some rejection => rfl
  | none =>
    dsimp only [importBody]
    cases post.io.decode post.body with
    | error why => rfl
    | ok changes =>
      cases post.io.pool with
      | error why => rfl
      | ok =>
        rw [← applyChanges_eq_attempts]
        dsimp only
        split <;> rfl

/-- All that the requests try to apply, in their order. -/
def attempted (env : ServerEnv) (rs : List Request) : List (Faults × SyncChange) :=
  (rs.filterMap Request.asImport).flatMap (ImportPost.attempts env)

/-- Of the requests only imports reach the database. -/
theorem serve_db (env : ServerEnv) (s : ServerState) (rs : List Request) :
    (serve env s rs).db = applyAttempts env.engine s.db (attempted env rs) := by
  induction rs generalizing s with
  | nil => rfl
  | cons r rs ih =>
    refine (ih (s.handle env r).1).trans ?_
    cases r with
    | «import» post =>
      have here : (s.handle env (.import post)).1.db = applyAttempts env.engine s.db (post.attempts env) :=
        importInto_eq_attempts env s.db post
      rw [here, ← applyAttempts_append]
      rfl
    | _ => rfl

/-- Whatever the requests and their order: no cursor changes, nor a table of the database that is not synced, and each
table is what the imported changes for it make of it alone. -/
theorem serve_tables (env : ServerEnv) (s : ServerState) (rs : List Request) :
    (serve env s rs).db.syncMeta = s.db.syncMeta ∧
    (∀ name, name ∉ syncTables → (serve env s rs).db.tables name = s.db.tables name) ∧
    ∀ name, (serve env s rs).db.tables name =
      (applyAttempts env.engine (s.db.only name)
        ((attempted env rs).filter fun a => a.2.tableName = name)).tables name := by
  rw [serve_db]
  exact ⟨applyAttempts_syncMeta .., fun name unsynced => applyAttempts_unsynced unsynced ..,
    fun name => applyAttempts_tables (if_pos rfl).symm _⟩

/-! ### What a request can see -/

/-- The states differ at most in tables of the database that are not synced, and in its cursors. -/
def LooksAlike (s s' : ServerState) : Prop := ∃ db, SyncEqual s.db db ∧ s' = { s with db }

theorem handleImport_congr (env : ServerEnv) {db db' : Database} (same : SyncEqual db db') (post : ImportPost) :
    (handleImport env.engine env.crypto env.sharedSecret post.io db post.headers post.body).response =
        (handleImport env.engine env.crypto env.sharedSecret post.io db' post.headers post.body).response ∧
      SyncEqual (importInto env db post) (importInto env db' post) := by
  unfold importInto handleImport
  split
  · exact ⟨rfl, same⟩
  unfold importBody
  split
  · exact ⟨rfl, same⟩
  · rename_i changes _
    split
    · exact ⟨rfl, same⟩
    · obtain ⟨outcome, tables⟩ := same.applyChanges (e := env.engine) post.io.applyFaults changes
      dsimp only
      rw [outcome]
      split <;> exact ⟨rfl, tables⟩

theorem exportChangesSince_congr {e : Engine} {db db' : Database} {table : String} (same : db.tables table = db'.tables table)
    (since : Option String) : exportChangesSince e db table since = exportChangesSince e db' table since := by
  rw [exportChangesSince, exportChangesSince, same]

theorem handleExport_congr {e : Engine} {db db' : Database} (same : SyncEqual db db') (io : ExportIo) (q : ExportQuery) :
    handleExport e io db q = handleExport e io db' q := by
  unfold handleExport
  by_cases listed : q.table ∉ syncTables
  · rw [if_pos listed, if_pos listed]
  · rw [if_neg listed, if_neg listed, ExportIo.run, ExportIo.run,
      exportChangesSince_congr (same q.table (not_not.mp listed))]

theorem handlePlansSummary_congr {db db' : Database} (same : SyncEqual db db') (io : SummaryIo) (proxy : ProxyIo)
    (via : Option Text) : handlePlansSummary io proxy db via = handlePlansSummary io proxy db' via := by
  have plans := same "plans" (by decide)
  cases via with
  | some peerName => rfl
  | none =>
    simp only [handlePlansSummary, localPlansSummary, latestPlanId, planCount]
    rw [plans]

/-- A request tells no two states apart that look alike, and leaves states that look alike. -/
theorem LooksAlike.handle {s s' : ServerState} (alike : LooksAlike s s') (r : Request) :
    (s.handle env r).2 = (s'.handle env r).2 ∧ LooksAlike (s.handle env r).1 (s'.handle env r).1 := by
  obtain ⟨db, same, rfl⟩ := alike
  cases r with
  | «export» io q => exact ⟨congrArg Answer.response (handleExport_congr same io q), db, same, rfl⟩
  | plansSummary io proxy via =>
    exact ⟨congrArg Answer.summary (handlePlansSummary_congr same io proxy via), db, same, rfl⟩
  | «import» post =>
    obtain ⟨response, tables⟩ := handleImport_congr env same post
    exact ⟨congrArg Answer.response response, _, tables, rfl⟩
  | capabilities post =>
    refine ⟨?_, db, same, rfl⟩
    cases post <;> rfl
  | _ => exact ⟨rfl, db, same, rfl⟩

/-- No sequence of requests gets an answer that depends on another table of the database or on a cursor. -/
theorem served_congr (env : ServerEnv) {s s' : ServerState} (alike : LooksAlike s s') (rs : List Request) :
    served env s rs = served env s' rs ∧ LooksAlike (serve env s rs) (serve env s' rs) :=
  transcript_congr (fun _ _ r alike => alike.handle r) alike rs

/-! ### Requests that nobody signed -/

/-- The request is a POST that is checked, and carries no headers that an honest node has signed for its endpoint in the
last 300 seconds. -/
def Request.Unsigned (c : Crypto) (log : List Signed) : Request → Prop
  | .import post => ¬SignedFresh c log .import post.io.now post.headers
  | .heartbeat post => ¬SignedFresh c log .heartbeat post.io.now post.headers
  | _ => False

/-- The clock that the check of a request reads. -/
def Request.checkedAt : Request → Option Int64
  | .import post => some post.io.now
  | .heartbeat post => some post.io.now
  | _ => none

section

variable {key : Bytes} {log : List Signed} (secret : env.sharedSecret = some key) (ideal : Unforgeable env.crypto key log)

include secret ideal

theorem handle_of_unsigned {r : Request} (exact : ∀ now ∈ r.checkedAt, ∀ ep ts body, .post ep ts body ∈ log → AgeExact now ts)
    (unsigned : r.Unsigned env.crypto log) (s : ServerState) :
    (s.handle env r).1 = s ∧ ∃ response, (s.handle env r).2 = .response response ∧ response.status = .unauthorized := by
  have rejected {ep : Endpoint} {now : Int64} {h : MeshHeaders}
      (clock : ∀ ep ts body, .post ep ts body ∈ log → AgeExact now ts) (unsigned : ¬SignedFresh env.crypto log ep now h) :
      ∃ rejection, checkHmac env.crypto env.sharedSecret now ep.path h = some rejection ∧
        rejection.status = .unauthorized := by
    cases check : checkHmac env.crypto env.sharedSecret now ep.path h with
    | none =>
      rw [secret] at check
      exact absurd (Accepts.fresh ideal clock check) unsigned
    | some rejection => exact ⟨rejection, rfl, checkHmac_status check⟩
  cases r with
  | «import» post =>
    obtain ⟨rejection, check, status⟩ := rejected (exact post.io.now rfl) unsigned
    have done : s.handleImport env post = ⟨s.db, rejection, false⟩ := by
      rw [ServerState.handleImport, handleImport, show checkHmac _ _ _ importPath _ = _ from check]
    refine ⟨?_, rejection, ?_, status⟩
    · simp only [ServerState.handle, done]
    · simp only [ServerState.handle, done]
  | heartbeat post =>
    obtain ⟨rejection, check, status⟩ := rejected (exact post.io.now rfl) unsigned
    have done : handleHeartbeat env.crypto env.sharedSecret post.io post.headers post.body = (rejection, none) := by
      rw [handleHeartbeat, show checkHmac _ _ _ heartbeatPath _ = _ from check]
    refine ⟨?_, rejection, ?_, status⟩
    · simp only [ServerState.handle, receiveHeartbeat, done]
    · simp only [ServerState.handle, done]
  | _ => cases unsigned

/-- With a secret, imports and heartbeats that nobody has signed in the last 300 seconds are all answered with 401. Any of
them can be left out: the other requests get the same answers, and the state is the same in the end. -/
theorem unsigned_ignored {rs : List Request}
    (exact : ∀ r ∈ rs, ∀ now ∈ r.checkedAt, ∀ ep ts body, .post ep ts body ∈ log → AgeExact now ts)
    {kept : Request → Bool} (keeps : ∀ r ∈ rs, kept r = false → r.Unsigned env.crypto log) (s : ServerState) :
    served env s (rs.filter kept) = (served env s rs).filter (fun answered => kept answered.1) ∧
      serve env s (rs.filter kept) = serve env s rs ∧
      ∀ answered ∈ served env s rs, answered.1.Unsigned env.crypto log →
        ∃ response, answered.2 = .response response ∧ response.status = .unauthorized := by
  have idle : ∀ s, ∀ r ∈ rs, kept r = false → (ServerState.handle env s r).1 = s := fun s r member dropped =>
    (handle_of_unsigned secret ideal (exact r member) (keeps r member dropped) s).1
  obtain ⟨answers, last⟩ := transcript_filter idle s
  refine ⟨answers, last, fun answered member unsigned => ?_⟩
  obtain ⟨asked, s', answer⟩ := mem_transcript member
  rw [answer]
  exact (handle_of_unsigned secret ideal (exact _ asked) unsigned s').2

end

/-! ### A node with a private table -/

def meshEnv : ServerEnv := ⟨sampleEngine, a100Crypto, some meshKey, gpuCodec⟩

def meshServer (db : Database) : ServerState := ⟨db, .empty, .empty, .empty, .empty⟩

/-- The node also has plans in a table that is not synced. -/
def withPrivate (db : Database) : Database := db.setTable "private_plans" onePrivatePlan
where
  onePrivatePlan : Table := plansTable [(5, "private", "2026-04-21 12:00:00")] (by decide)

theorem private_hidden :
    served meshEnv (meshServer (plansDb noPlans))
        [.export ⟨.ok (), false, fun _ => ""⟩ ⟨"private_plans", none⟩, .heartbeat a100Post] =
      served meshEnv (meshServer (withPrivate (plansDb noPlans)))
        [.export ⟨.ok (), false, fun _ => ""⟩ ⟨"private_plans", none⟩, .heartbeat a100Post] := by
  have same : SyncEqual (plansDb noPlans) (withPrivate (plansDb noPlans)) := fun name synced =>
    (Database.setTable_tables_other _ _ fun hidden => absurd (hidden ▸ synced) (by decide)).symm
  exact (served_congr meshEnv ⟨_, same, rfl⟩ _).1

/-- The heartbeat of a100 and one that is not signed. -/
def twoHeartbeats : List Request := [.heartbeat a100Post, .heartbeat { a100Post with headers := {} }, .status 1776772840 (.ok ()) false false]

def carriesSignature : Request → Bool
  | .heartbeat post => post.headers.signature.isSome
  | _ => true

theorem unsigned_heartbeat_ignored :
    serve meshEnv (meshServer (plansDb noPlans)) (twoHeartbeats.filter carriesSignature) =
      serve meshEnv (meshServer (plansDb noPlans)) twoHeartbeats := by
  refine (unsigned_ignored (show meshEnv.sharedSecret = some meshKey from rfl) a100Crypto_unforgeable ?_ ?_ _).2.1
  · intro r asked now checked ep ts body member
    obtain ⟨_, rfl, _⟩ := Signed.post.inj (List.mem_singleton.mp member)
    have clock : now = 1776772830 := by
      simp only [twoHeartbeats, List.mem_cons, List.not_mem_nil, or_false] at asked
      rcases asked with rfl | rfl | rfl
      · exact (Option.some.inj checked).symm
      · exact (Option.some.inj checked).symm
      · cases checked
    rw [clock]
    exact ageExact_of_clocks (by decide) (by decide)
  · intro r asked dropped
    simp only [twoHeartbeats, List.mem_cons, List.not_mem_nil, or_false] at asked
    rcases asked with rfl | rfl | rfl
    · cases dropped
    · rintro ⟨ts, body, _, timestamp, _⟩
      cases timestamp
    · cases dropped

end ConvergioMesh
