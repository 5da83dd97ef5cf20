import ConvergioMesh.Sync.Apply
import ConvergioMesh.Transport.Auth

/-!
# The POST endpoints

The import and heartbeat handlers, and the request that `sendChangesToPeer` makes. What the JSON
parser, the connection pool and SQLite report is an input.
-/

namespace ConvergioMesh

def importPath : String := "/api/sync/import"

def heartbeatPath : String := "/api/heartbeat"

structure ImportIo where
  now : Int64
  /-- `serde_json::from_slice` of an import body. -/
  decode : Bytes → Except String (List SyncChange)
  pool : Except String Unit
  applyFaults : ApplyFaults := {}
  sqlErrorText : SqlError → String

/-- What a handled import leaves: the database, the response, and whether the IPC receivers are
woken. -/
structure Handled where
  db : Database
  response : Response
  wakesIpc : Bool := false

/-- `handle_import` once the request is let through. -/
def importBody (e : Engine) (io : ImportIo) (db : Database) (body : Bytes) : Handled :=
  match io.decode body with
  | .error why => ⟨db, ⟨.ok, errorBody ("invalid JSON: " ++ why)⟩, false⟩
  | .ok changes =>
    match io.pool with
    | .error why => ⟨db, ⟨.ok, errorBody why⟩, false⟩
    | .ok () =>
      let done := applyChanges e io.applyFaults db changes
      match done.2 with
      | .ok applied =>
        ⟨done.1, ⟨.ok, .object [("applied", .number (.posInt (.ofNat applied)))]⟩,
          0 < applied && changes.any (·.tableName == "ipc_messages")⟩
      | .error why => ⟨done.1, ⟨.ok, errorBody (io.sqlErrorText why)⟩, false⟩

def handleImport (e : Engine) (c : Crypto) (secret : Option Bytes) (io : ImportIo) (db : Database)
    (h : MeshHeaders) (body : Bytes) : Handled :=
  match checkHmac c secret io.now importPath h with
  | some rejection => ⟨db, rejection, false⟩
  | none => importBody e io db body

structure HeartbeatRequest where
  peer : String
  version : Option String := none
  capabilities : Option String := none
  role : Option String := none

structure HeartbeatIo where
  now : Int64
  /-- `serde_json::from_slice` of a heartbeat body. -/
  decode : Bytes → Except String HeartbeatRequest
  pool : Except String Unit
  upsert : HeartbeatRequest → Except String Unit

/-- `handle_heartbeat`: the response, and the heartbeat it stores. -/
def handleHeartbeat (c : Crypto) (secret : Option Bytes) (io : HeartbeatIo) (h : MeshHeaders) (body : Bytes) :
    Response × Option HeartbeatRequest :=
  match checkHmac c secret io.now heartbeatPath h with
  | some rejection => (rejection, none)
  | none =>
    match io.decode body with
    | .error why => (⟨.ok, errorBody ("invalid JSON: " ++ why)⟩, none)
    | .ok heartbeat =>
      match io.pool with
      | .error why => (⟨.ok, errorBody why⟩, none)
      | .ok () =>
        match io.upsert heartbeat with
        | .ok () => (⟨.ok, .object [("status", .string "ok")]⟩, some heartbeat)
        | .error why => (⟨.ok, errorBody why⟩, none)

theorem importBody_status (e : Engine) (io : ImportIo) (db : Database) (body : Bytes) :
    (importBody e io db body).response.status = .ok := by
  unfold importBody
  split
  · rfl
  split
  · rfl
  dsimp only
  split <;> rfl

/-- The import handler answers 401 exactly if its HMAC check does not let the request through. -/
theorem handleImport_unauthorized_iff {e : Engine} {c : Crypto} {secret : Option Bytes} {io : ImportIo} {db : Database}
    {h : MeshHeaders} {body : Bytes} :
    (handleImport e c secret io db h body).response.status = .unauthorized ↔
      checkHmac c secret io.now importPath h ≠ none := by
  unfold handleImport
  cases check : checkHmac c secret io.now importPath h with
  | some rejection => simp [checkHmac_status check]
  | none => simp [importBody_status]

theorem handleHeartbeat_unauthorized_iff {c : Crypto} {secret : Option Bytes} {io : HeartbeatIo} {h : MeshHeaders}
    {body : Bytes} :
    (handleHeartbeat c secret io h body).1.status = .unauthorized ↔ checkHmac c secret io.now heartbeatPath h ≠ none := by
  unfold handleHeartbeat
  cases check : checkHmac c secret io.now heartbeatPath h with
  | some rejection => simp [checkHmac_status check]
  | none =>
    simp only [ne_eq, not_true, iff_false]
    split
    · exact Status.noConfusion
    split
    · exact Status.noConfusion
    split <;> exact Status.noConfusion

/-! ### The sender -/

def isU16 (cs : List Char) : Bool :=
  let digits := if cs.head? = some '+' then cs.tail else cs
  (digitsValue digits).any (· < 2 ^ 16)

/-- `validate_peer_addr`: the text after the last colon is the port, the text before it the host. -/
def validatePeerAddr (addr : String) : Except String Unit :=
  if ':' ∉ addr.toList then .error ("invalid peer address (missing port): " ++ addr)
  else
    let reversed := addr.toList.reverse
    let port := (reversed.takeWhile (· ≠ ':')).reverse
    let host := (reversed.dropWhile (· ≠ ':')).tail.reverse
    if !isU16 port then .error ("invalid port in peer address: " ++ addr)
    else if host.any fun c => c = '/' || c = '@' || c = '?' || c = '#' then
      .error ("invalid chars in peer address host: " ++ addr)
    else .ok ()

structure SendIo where
  now : Int64
  token : Option String
  encode : List SyncChange → Except String Bytes
  client : Except String Unit
  post : MeshHeaders → Bytes → Except String Response

def sendChangesToPeer (c : Crypto) (secret : Option Bytes) (io : SendIo) (peerAddr : String)
    (changes : List SyncChange) : Except String Unit :=
  match validatePeerAddr peerAddr with
  | .error why => .error why
  | .ok () =>
    match io.encode changes with
    | .error why => .error ("JSON serialize failed: " ++ why)
    | .ok body =>
      match io.client with
      | .error why => .error ("HTTP client build failed: " ++ why)
      | .ok () =>
        match io.post (applyMeshAuth c secret io.token io.now "POST" importPath (some body)) body with
        | .error why => .error ("HTTP POST failed: " ++ why)
        | .ok response =>
          if response.status.isSuccess then .ok ()
          else .error ("peer " ++ peerAddr ++ " returned " ++ response.status.text)

/-- A request that reaches the wire with this body. -/
structure Posts (io : SendIo) (peerAddr : String) (changes : List SyncChange) (body : Bytes) : Prop where
  address : validatePeerAddr peerAddr = .ok ()
  encoded : io.encode changes = .ok body
  client : io.client = .ok ()

/-- A send succeeds exactly if its request gets a success status. -/
theorem sendChangesToPeer_ok_iff {c : Crypto} {secret : Option Bytes} {io : SendIo} {peerAddr : String}
    {changes : List SyncChange} :
    sendChangesToPeer c secret io peerAddr changes = .ok () ↔
      ∃ body response, Posts io peerAddr changes body ∧
        io.post (applyMeshAuth c secret io.token io.now "POST" importPath (some body)) body = .ok response ∧
        response.status.isSuccess = true := by
  constructor
  · intro h
    unfold sendChangesToPeer at h
    split at h
    · cases h
    rename_i address
    split at h
    · cases h
    rename_i body encoded
    split at h
    · cases h
    rename_i client
    split at h
    · cases h
    rename_i response answered
    split at h
    · rename_i success
      exact ⟨body, response, ⟨address, encoded, client⟩, answered, success⟩
    · cases h
  · rintro ⟨body, response, ⟨address, encoded, client⟩, answered, success⟩
    simp only [sendChangesToPeer, address, encoded, client, answered, success, if_true]

end ConvergioMesh
