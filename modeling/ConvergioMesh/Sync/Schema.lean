import ConvergioMesh.Sync.Types

/-!
# Schema versions

The versions of `_schema_registry`, the ones a peer's health answer reports, and the check that
compares them.
-/

namespace ConvergioMesh

def Json.asU64 : Json → Option UInt64
  | .number (.posInt n) => some n
  | _ => none

/-- A row whose cells are a `String` and a `u32`; any other is skipped. -/
def schemaVersion (r : Row) : Option (String × UInt32) :=
  match r.cell "module", r.cell "version" with
  | .text module, .integer version =>
    if 0 ≤ version.toInt ∧ version.toInt < 2 ^ 32 then some (module, .ofNat version.toInt.toNat) else none
  | _, _ => none

/-- `local_schema_versions`: none if the SELECT cannot be prepared. -/
def localSchemaVersions (fault : Bool) (db : Database) : List (String × UInt32) :=
  if fault then []
  else
    match db.tables "_schema_registry" with
    | none => []
    | some t =>
      if "module" ∈ t.schema.names ∧ "version" ∈ t.schema.names then t.rows.filterMap schemaVersion else []

structure HealthResponse where
  success : Bool
  statusText : String
  /-- The parsed body, or the text of the parse error. -/
  body : Except String Json

/-- What `check_schema_compatibility` meets: the SELECT, the client, the answer of `/api/health`. -/
structure HealthIo where
  registryFault : Bool := false
  client : Except String Unit := .ok ()
  get : Except String HealthResponse

/-- The `schema_versions` of a health body. -/
def schemaVersions (body : Json) : Option (List (String × Json)) :=
  (body.asObject.bind (·.lookup "schema_versions")).bind Json.asObject

def remoteVersion (remote : List (String × Json)) (module : String) : Option UInt64 :=
  (remote.lookup module).bind Json.asU64

/-- The comparison of one module: the reported version if, cut to 32 bits, it is not the local one. -/
def schemaMismatch (remote : List (String × Json)) (entry : String × UInt32) : Option (String × UInt32 × UInt64) :=
  match remoteVersion remote entry.1 with
  | some remoteVer => if remoteVer.toUInt32 ≠ entry.2 then some (entry.1, entry.2, remoteVer) else none
  | none => none

def checkSchemaCompatibility (io : HealthIo) (db : Database) (peerAddr : String) : Except String Unit :=
  let localVersions := localSchemaVersions io.registryFault db
  if localVersions.isEmpty then .ok ()
  else
    match io.client with
    | .error e => .error ("HTTP client: " ++ e)
    | .ok () =>
      match io.get with
      | .error e => .error e
      | .ok resp =>
        if !resp.success then .error ("health endpoint returned " ++ resp.statusText)
        else
          match resp.body with
          | .error e => .error ("parse: " ++ e)
          | .ok body =>
            match schemaVersions body with
            | none => .ok ()
            | some remote =>
              match localVersions.findSome? (schemaMismatch remote) with
              | none => .ok ()
              | some (module, localVer, remoteVer) =>
                .error ("schema mismatch for '" ++ module ++ "': local=" ++ toString localVer.toNat ++
                  ", peer(" ++ peerAddr ++ ")=" ++ toString remoteVer.toNat ++ " — peer must upgrade")

/-- The version that a health answer reports for a module. -/
def HealthIo.version (io : HealthIo) (module : String) : Option UInt64 :=
  match io.get with
  | .ok ⟨true, _, .ok body⟩ => (schemaVersions body).bind (remoteVersion · module)
  | _ => none

/-- The peer reports, for some module, another version than the local one. -/
def ReportsOther (db : Database) (io : HealthIo) : Prop :=
  ∃ entry ∈ localSchemaVersions false db, ∃ v, io.version entry.1 = some v ∧ v.toNat ≠ entry.2.toNat

instance (db : Database) (io : HealthIo) : Decidable (ReportsOther db io) :=
  decidable_of_iff ((localSchemaVersions false db).any fun entry =>
    (io.version entry.1).any fun v => v.toNat != entry.2.toNat)
    (by simp only [List.any_eq_true, Option.any_eq_true, bne_iff_ne, ReportsOther])

theorem schemaMismatch_eq_none {remote : List (String × Json)} {entry : String × UInt32} :
    schemaMismatch remote entry = none ↔ ∀ v, remoteVersion remote entry.1 = some v → v.toUInt32 = entry.2 := by
  unfold schemaMismatch
  cases remoteVersion remote entry.1 with
  | none => simp
  | some v => simp

/-- The request of `/api/health` is answered with the versions `remote`. -/
structure HealthIo.Answers (io : HealthIo) (remote : List (String × Json)) : Prop where
  builds : io.client = .ok ()
  answered : ∃ text body, io.get = .ok ⟨true, text, .ok body⟩ ∧ schemaVersions body = some remote

/-- The check passes exactly if no version of a module on both sides differs once it is cut to 32 bits. -/
theorem checkSchemaCompatibility_ok_iff {io : HealthIo} {remote : List (String × Json)} (h : io.Answers remote)
    (db : Database) (peerAddr : String) :
    checkSchemaCompatibility io db peerAddr = .ok () ↔
      ∀ entry ∈ localSchemaVersions io.registryFault db, ∀ v, remoteVersion remote entry.1 = some v →
        v.toUInt32 = entry.2 := by
  obtain ⟨text, body, answered, versions⟩ := h.answered
  have all : ((localSchemaVersions io.registryFault db).findSome? (schemaMismatch remote) = none) ↔
      ∀ entry ∈ localSchemaVersions io.registryFault db, ∀ v, remoteVersion remote entry.1 = some v →
        v.toUInt32 = entry.2 := by
    rw [List.findSome?_eq_none_iff]
    exact forall₂_congr fun entry _ => schemaMismatch_eq_none
  rw [← all]
  unfold checkSchemaCompatibility
  simp only [h.builds, answered, versions, Bool.not_true, Bool.false_eq_true, if_false]
  cases localSchemaVersions io.registryFault db with
  | nil => simp
  | cons entry rest =>
    rw [List.isEmpty_cons, if_neg Bool.false_ne_true]
    cases (entry :: rest).findSome? (schemaMismatch remote) with
    | none => simp
    | some mismatch => simp

end ConvergioMesh
