import ConvergioMesh.Sync.Plans
import ConvergioMesh.Sync.Round
import ConvergioMesh.Transport.Import

/-!
# Delivery

A send composed with the import handler of the peer, over an exchange that loses nothing.
-/

namespace ConvergioMesh

structure Receiver where
  secret : Option Bytes
  io : ImportIo
  db : Database

variable (e : Engine) (c : Crypto) (secret : Option Bytes) (io : SendIo) (peer : Receiver)

def Receiver.handle (h : MeshHeaders) (body : Bytes) : Handled :=
  handleImport e c peer.secret peer.io peer.db h body

/-- Every request reaches the peer, and its response comes back. -/
def SendIo.to : SendIo := { io with post := fun h body => .ok (peer.handle e c h body).response }

def SendIo.headers (body : Bytes) : MeshHeaders :=
  applyMeshAuth c secret io.token io.now "POST" importPath (some body)

/-- The peer reads the batch from the body, gets a connection, and no PRAGMA around a loop fails. -/
structure Receiver.Ready (body : Bytes) (changes : List SyncChange) : Prop where
  decodes : peer.io.decode body = .ok (overWire e changes)
  pool : peer.io.pool = .ok ()
  pragmas : changes = [] ∨ peer.io.applyFaults.pragmaOff = false ∧ peer.io.applyFaults.pragmaOn = false

/-- The peer had a connection and ran `applyChanges` on the whole batch, which returned Ok and left
the database the peer now has. -/
def Processed (changes : List SyncChange) : Prop :=
  ∃ body, io.encode changes = .ok body ∧ peer.io.decode body = .ok (overWire e changes) ∧ peer.io.pool = .ok () ∧
    ∃ applied, applyChanges e peer.io.applyFaults peer.db (overWire e changes) =
      ((peer.handle e c (io.headers c secret body) body).db, .ok applied)

/-- If the request gets past the peer's HMAC check, the peer is ready for its body. -/
def Answered (peerAddr : String) (changes : List SyncChange) : Prop :=
  ∀ body, Posts io peerAddr changes body →
    checkHmac c peer.secret peer.io.now importPath (io.headers c secret body) = none → peer.Ready e body changes

variable {e c secret io peer}

theorem applyChanges_ok_iff {e : Engine} {f : ApplyFaults} {db : Database} {changes : List SyncChange} :
    (∃ applied, (applyChanges e f db changes).2 = .ok applied) ↔
      changes = [] ∨ f.pragmaOff = false ∧ f.pragmaOn = false := by
  unfold applyChanges applyChangesDetailed
  cases changes with
  | nil => simp [Except.map]
  | cons d rest => cases f.pragmaOff <;> cases f.pragmaOn <;> simp [Except.map]

theorem importBody_ok {e : Engine} {io : ImportIo} {db : Database} {body : Bytes} {decoded : List SyncChange}
    {applied : Nat} (decodes : io.decode body = .ok decoded) (pool : io.pool = .ok ())
    (applies : (applyChanges e io.applyFaults db decoded).2 = .ok applied) :
    applyChanges e io.applyFaults db decoded = ((importBody e io db body).db, .ok applied) := by
  simp only [importBody, decodes, pool, applies]
  rw [← applies]

theorem send_to_ok_iff {peerAddr : String} {changes : List SyncChange} :
    sendChangesToPeer c secret (io.to e c peer) peerAddr changes = .ok () ↔
      ∃ body, Posts io peerAddr changes body ∧
        checkHmac c peer.secret peer.io.now importPath (io.headers c secret body) = none := by
  rw [sendChangesToPeer_ok_iff]
  have handled (body : Bytes) (success : (peer.handle e c (io.headers c secret body) body).response.status.isSuccess = true) :
      checkHmac c peer.secret peer.io.now importPath (io.headers c secret body) = none := by
    by_contra rejects
    rw [Receiver.handle, handleImport_unauthorized_iff.mpr rejects] at success
    cases success
  constructor
  · rintro ⟨body, response, ⟨address, encoded, client⟩, answered, success⟩
    refine ⟨body, ⟨address, encoded, client⟩, handled body ?_⟩
    rw [← Except.ok.inj answered] at success
    exact success
  · rintro ⟨body, ⟨address, encoded, client⟩, passes⟩
    refine ⟨body, _, ⟨address, encoded, client⟩, rfl, ?_⟩
    have status : (handleImport e c peer.secret peer.io peer.db (io.headers c secret body) body).response.status = .ok := by
      simp only [handleImport, passes]
      exact importBody_status ..
    change (handleImport e c peer.secret peer.io peer.db (io.headers c secret body) body).response.status.isSuccess = true
    rw [status]
    rfl

theorem handle_db {body : Bytes} (passes : checkHmac c peer.secret peer.io.now importPath (io.headers c secret body) = none) :
    (peer.handle e c (io.headers c secret body) body).db = (importBody e peer.io peer.db body).db := by
  simp only [Receiver.handle, handleImport, passes]

/-- Exactly when a successful send means that the peer processed the batch. A round whose batch was
answered so but not processed leaves every cursor where it was. -/
theorem delivered_processed_iff (e : Engine) (c : Crypto) (secret : Option Bytes) (io : SendIo) (peer : Receiver)
    (peerAddr : String) (changes : List SyncChange) :
    ((sendChangesToPeer c secret (io.to e c peer) peerAddr changes = .ok () → Processed e c secret io peer changes) ↔
      Answered e c secret io peer peerAddr changes) ∧
    ∀ (round : RoundIo) (db : Database) (table : String),
      round.send = sendChangesToPeer c secret (io.to e c peer) peerAddr →
      exportChangesSince e db table (getSyncMeta round.metaFault db peerAddr table) = .ok changes → changes ≠ [] →
      Answered e c secret io peer peerAddr changes → ¬Processed e c secret io peer changes →
      (syncTableWithPeer e round db peerAddr table).1.syncMeta = db.syncMeta := by
  have delivered : (sendChangesToPeer c secret (io.to e c peer) peerAddr changes = .ok () →
      Processed e c secret io peer changes) ↔ Answered e c secret io peer peerAddr changes := by
    constructor
    · intro processed body posts passes
      obtain ⟨body', encoded, decodes, pool, applied, applies⟩ :=
        processed (send_to_ok_iff.mpr ⟨body, posts, passes⟩)
      obtain rfl : body = body' := Except.ok.inj (posts.encoded.symm.trans encoded)
      have ran := applyChanges_ok_iff.mp ⟨applied, congrArg Prod.snd applies⟩
      exact ⟨decodes, pool, ran.imp_left List.map_eq_nil_iff.mp⟩
    · intro answered sent
      obtain ⟨body, posts, passes⟩ := send_to_ok_iff.mp sent
      have ready := answered body posts passes
      obtain ⟨applied, applies⟩ := applyChanges_ok_iff.mpr (ready.pragmas.imp_left (List.map_eq_nil_iff (l := changes)).mpr)
      refine ⟨body, posts.encoded, ready.decodes, ready.pool, applied, ?_⟩
      rw [handle_db passes]
      exact importBody_ok ready.decodes ready.pool applies
  refine ⟨delivered, fun round db table send exported some_change answered unprocessed => ?_⟩
  refine syncTableWithPeer_incomplete_syncMeta ?_
  rintro ⟨l, r, report, done⟩
  obtain rfl : changes = l := Except.ok.inj (exported.symm.trans done.exported)
  exact unprocessed (delivered.mpr answered (send ▸ done.sent some_change))

def noCrypto : Crypto := ⟨fun _ => [], fun _ _ => [], fun _ _ _ => false⟩

/-- The JSON body with plan 1, named `a`. -/
def onePlanImport : Bytes :=
  [123, 34, 99, 104, 97, 110, 103, 101, 115, 34, 58, 91, 123, 34, 100, 97, 116, 97, 34, 58, 123, 34, 105, 100,
    34, 58, 49, 44, 34, 110, 97, 109, 101, 34, 58, 34, 97, 34, 44, 34, 117, 112, 100, 97, 116, 101, 100, 95, 97,
    116, 34, 58, 34, 50, 48, 50, 54, 45, 48, 52, 45, 50, 49, 32, 49, 50, 58, 48, 48, 58, 48, 48, 34, 125, 44,
    34, 112, 107, 34, 58, 49, 44, 34, 116, 97, 98, 108, 101, 95, 110, 97, 109, 101, 34, 58, 34, 112, 108, 97,
    110, 115, 34, 125, 93, 125]

/-- A peer whose first PRAGMA fails. -/
def brokenPeer : Receiver where
  secret := none
  io := {
    now := 1776772800
    decode := fun body =>
      if body = onePlanImport then .ok [planChange 1 1 "a" "2026-04-21 12:00:00"] else .error "expected value"
    pool := .ok ()
    applyFaults := { pragmaOff := true }
    sqlErrorText := fun _ => "disk I/O error" }
  db := plansDb noPlans

def onePlan : Table := plansTable [(1, "a", "2026-04-21 12:00:00")] (by decide)

def onePlanSend : SendIo where
  now := 1776772800
  token := none
  encode _ := .ok onePlanImport
  client := .ok ()
  post _ _ := .error ""

/-- The peer answers a failed import with status 200: the send succeeds, and the round stores a
cursor past the row that the peer never applied. -/
theorem failed_import_counted_delivered :
    sendChangesToPeer noCrypto none (onePlanSend.to sampleEngine noCrypto brokenPeer) "10.0.0.2:8420"
        [planChange 1 1 "a" "2026-04-21 12:00:00"] = .ok () ∧
      ¬Processed sampleEngine noCrypto none onePlanSend brokenPeer [planChange 1 1 "a" "2026-04-21 12:00:00"] ∧
      (syncTableWithPeer sampleEngine
          { roundStartAt := "2026-04-21 12:00:05"
            send := sendChangesToPeer noCrypto none (onePlanSend.to sampleEngine noCrypto brokenPeer) "10.0.0.2:8420"
            fetch := fun _ => .ok [] }
          (plansDb onePlan) "10.0.0.2:8420" "plans").1.syncMeta "10.0.0.2:8420" "plans" =
        some "2026-04-21 12:00:00" := by
  refine ⟨rfl, ?_, rfl⟩
  rintro ⟨_, _, _, _, applied, applies⟩
  cases congrArg Prod.snd applies

end ConvergioMesh
