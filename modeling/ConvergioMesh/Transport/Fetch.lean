import ConvergioMesh.Sync.Plans
import ConvergioMesh.Transport.Import

/-!
# Fetching from a peer

The export handler, the request that `fetchChangesFromPeer` makes to it, and the changes as the
response carries them.
-/

namespace ConvergioMesh

/-! ### Changes in a response -/

/-- The derived `Serialize`. -/
def SyncChange.toJson (c : SyncChange) : Json :=
  .object [("table_name", .string c.tableName), ("pk", c.pk), ("data", c.data)]

/-- The derived `Deserialize`: an object with the three fields, or their array. -/
def SyncChange.ofJson : Json → Option SyncChange
  | .object entries =>
    match (entries.lookup "table_name").bind Json.asStr, entries.lookup "pk", entries.lookup "data" with
    | some tableName, some pk, some data => some ⟨tableName, pk, data⟩
    | _, _, _ => none
  | .array [.string tableName, pk, data] => some ⟨tableName, pk, data⟩
  | _ => none

def changesToJson (changes : List SyncChange) : Json := .array (changes.map SyncChange.toJson)

def changesOfJson : Json → Option (List SyncChange)
  | .array items => items.mapM SyncChange.ofJson
  | _ => none

theorem SyncChange.ofJson_wired (wireReal : F64 → F64) (c : SyncChange) :
    SyncChange.ofJson (c.toJson.wired wireReal) = some (c.wired wireReal) := by
  simp [toJson, ofJson, Json.wired, Json.wiredEntries, Json.asStr, wired, List.lookup_cons]

/-- The changes of a response are read one by one, each as the JSON text carries it. -/
theorem changesOfJson_wired (e : Engine) (changes : List SyncChange) :
    changesOfJson ((changesToJson changes).wired e.wireReal) = some (overWire e changes) := by
  rw [changesToJson, Json.wired, Json.wiredItems_eq_map]
  change ((changes.map SyncChange.toJson).map (Json.wired e.wireReal)).mapM SyncChange.ofJson = some (overWire e changes)
  induction changes with
  | nil => rfl
  | cons c rest ih =>
    rw [List.map_cons, List.map_cons, List.mapM_cons, SyncChange.ofJson_wired, ih]
    rfl

/-! ### The handler -/

structure ExportQuery where
  table : String
  since : Option String

structure ExportIo where
  pool : Except String Unit := .ok ()
  exportFault : Bool := false
  sqlErrorText : SqlError → String

/-- The statement of the handler, which can fail of itself. -/
def ExportIo.run (e : Engine) (io : ExportIo) (db : Database) (q : ExportQuery) : Except SqlError (List SyncChange) :=
  if io.exportFault then .error .fault else exportChangesSince e db q.table q.since

def handleExport (e : Engine) (io : ExportIo) (db : Database) (q : ExportQuery) : Response :=
  if q.table ∉ syncTables then ⟨.forbidden, errorBody "table not in sync allowlist"⟩
  else
    match io.pool with
    | .error why => ⟨.ok, errorBody why⟩
    | .ok () =>
      match io.run e db q with
      | .ok changes => ⟨.ok, .object [("changes", changesToJson changes)]⟩
      | .error why => ⟨.ok, errorBody (io.sqlErrorText why)⟩

/-! ### The request -/

/-- A status, and what the body parses to. -/
structure FetchResponse where
  status : Status
  json : Except String Json

structure FetchIo where
  now : Int64
  token : Option String
  client : Except String Unit
  get : MeshHeaders → ExportQuery → Except String FetchResponse
  /-- The error of `from_value`. -/
  parseError : Json → String

/-- The path and query that is signed, in which nothing is escaped. -/
def exportPathQuery (q : ExportQuery) : String :=
  match q.since with
  | some ts => "/api/sync/export?table=" ++ q.table ++ "&since=" ++ ts
  | none => "/api/sync/export?table=" ++ q.table

def fetchChangesFromPeer (c : Crypto) (secret : Option Bytes) (io : FetchIo) (peerAddr table : String)
    (since : Option String) : Except String (List SyncChange) :=
  match validatePeerAddr peerAddr with
  | .error why => .error why
  | .ok () =>
    if table ∉ syncTables then .error ("table '" ++ table ++ "' not in sync allowlist")
    else
      match io.client with
      | .error why => .error ("HTTP client build failed: " ++ why)
      | .ok () =>
        match io.get (applyMeshAuth c secret io.token io.now "GET" (exportPathQuery ⟨table, since⟩) none) ⟨table, since⟩ with
        | .error why => .error ("HTTP GET failed: " ++ why)
        | .ok response =>
          if !response.status.isSuccess then .error ("peer returned " ++ response.status.text)
          else
            match response.json with
            | .error why => .error ("JSON parse failed: " ++ why)
            | .ok body =>
              let value := (body.asObject.bind (·.lookup "changes")).getD .null
              match changesOfJson value with
              | some changes => .ok changes
              | none => .error ("changes parse failed: " ++ io.parseError value)

/-! ### From the export to the fetch -/

/-- Every request reaches the peer, whose response comes back as JSON text and is parsed. -/
def FetchIo.of (e : Engine) (peer : ExportIo) (db : Database) (io : FetchIo) : FetchIo :=
  { io with
    get := fun _ q =>
      .ok ⟨(handleExport e peer db q).status, .ok ((handleExport e peer db q).body.wired e.wireReal)⟩ }

variable {e : Engine} {peer : ExportIo} {db : Database}

/-- What the handler answers: the rows, a refusal, or an error with status 200. -/
theorem handleExport_cases (e : Engine) (peer : ExportIo) (db : Database) (q : ExportQuery) :
    (q.table ∉ syncTables ∧ handleExport e peer db q = ⟨.forbidden, errorBody "table not in sync allowlist"⟩) ∨
    (∃ changes, q.table ∈ syncTables ∧ peer.pool = .ok () ∧ peer.run e db q = .ok changes ∧
      handleExport e peer db q = ⟨.ok, .object [("changes", changesToJson changes)]⟩) ∨
    ∃ why, (q.table ∈ syncTables → peer.pool = .ok () → ∀ changes, peer.run e db q ≠ .ok changes) ∧
      handleExport e peer db q = ⟨.ok, errorBody why⟩ := by
  unfold handleExport
  by_cases listed : q.table ∉ syncTables
  · exact .inl ⟨listed, if_pos listed⟩
  · rw [if_neg listed]
    cases pool : peer.pool with
    | error why => exact .inr (.inr ⟨why, (fun _ works => nomatch works), rfl⟩)
    | ok =>
      cases ran : peer.run e db q with
      | ok changes => exact .inr (.inl ⟨changes, not_not.mp listed, rfl, rfl, rfl⟩)
      | error why => exact .inr (.inr ⟨peer.sqlErrorText why, fun _ _ changes works => (nomatch works), rfl⟩)

theorem changesOfJson_errorBody (wireReal : F64 → F64) (why : String) :
    changesOfJson ((((errorBody why).wired wireReal).asObject.bind (·.lookup "changes")).getD .null) = none := rfl

/-- A fetch from a peer that can be reached succeeds exactly if the peer's export does, and gives the same changes in
the same order, as the wire carries them. An error of the peer, which it answers with status 200, is never taken for
an empty list. -/
theorem fetch_ok_iff (e : Engine) (c : Crypto) (secret : Option Bytes) (io : FetchIo) (peer : ExportIo) (db : Database)
    (peerAddr table : String) (since : Option String) (received : List SyncChange) :
    fetchChangesFromPeer c secret (io.of e peer db) peerAddr table since = .ok received ↔
      validatePeerAddr peerAddr = .ok () ∧ table ∈ syncTables ∧ io.client = .ok () ∧ peer.pool = .ok () ∧
        ∃ changes, peer.run e db ⟨table, since⟩ = .ok changes ∧ received = overWire e changes := by
  unfold fetchChangesFromPeer FetchIo.of
  dsimp only
  cases validatePeerAddr peerAddr with
  | error => simp
  | ok =>
    by_cases listed : table ∉ syncTables
    · rw [if_pos listed]
      simp [listed]
    · rw [if_neg listed]
      cases io.client with
      | error => simp
      | ok =>
        dsimp only
        rcases handleExport_cases e peer db ⟨table, since⟩ with
          ⟨refused, _⟩ | ⟨exported, _, pool, ran, answer⟩ | ⟨why, fails, answer⟩
        · exact absurd refused listed
        · have value : ((((Json.object [("changes", changesToJson exported)]).wired e.wireReal).asObject.bind
              (·.lookup "changes")).getD .null) = (changesToJson exported).wired e.wireReal := rfl
          rw [answer, pool, ran]
          simp only [Status.isSuccess, Bool.not_true, Bool.false_eq_true, if_false, value, changesOfJson_wired,
            Except.ok.injEq, not_not.mp listed, true_and, exists_eq_left']
          exact eq_comm
        · rw [answer]
          simp only [Status.isSuccess, Bool.not_true, Bool.false_eq_true, if_false, changesOfJson_errorBody, reduceCtorEq,
            false_iff]
          rintro ⟨_, synced, _, pool, changes, ran, _⟩
          exact fails synced pool changes ran

end ConvergioMesh
