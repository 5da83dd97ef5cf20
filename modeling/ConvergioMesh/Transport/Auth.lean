import ConvergioMesh.Sqlite.Value

/-!
# Request authentication

How a request is signed and how both POST handlers check it. SHA-256 and HMAC belong to their
crates and are taken as given by a `Crypto`.
-/

namespace ConvergioMesh

abbrev Bytes := List UInt8

/-- The digests of the `sha2` and `hmac` crates. -/
structure Crypto where
  sha256 : Bytes → Bytes
  hmac : Bytes → Bytes → Bytes
  verifySlice : Bytes → Bytes → Bytes → Bool

inductive MeshError where
  | auth (message : String)
  deriving DecidableEq

/-- The checks `compute_hmac` and `verify_hmac` share. -/
def hmacInputs (secret data : Bytes) : Except MeshError Unit :=
  if secret.isEmpty then .error (.auth "HMAC secret must not be empty")
  else if data.isEmpty then .error (.auth "HMAC data must not be empty")
  else .ok ()

def computeHmac (c : Crypto) (secret data : Bytes) : Except MeshError Bytes :=
  (hmacInputs secret data).map fun _ => c.hmac secret data

def verifyHmac (c : Crypto) (secret data response : Bytes) : Except MeshError Bool :=
  (hmacInputs secret data).map fun _ => c.verifySlice secret data response

def utf8 (s : String) : Bytes := s.toByteArray.data.toList

def hexDigits (b : UInt8) : List Char := [Json.hexDigit (b.toNat / 16), Json.hexDigit b.toNat]

def hexEncode (bytes : Bytes) : String := String.ofList (bytes.flatMap hexDigits)

def hexValue (c : Char) : Option Nat :=
  if '0' ≤ c ∧ c ≤ '9' then some (c.toNat - 48)
  else if 'a' ≤ c ∧ c ≤ 'f' then some (c.toNat - 87)
  else if 'A' ≤ c ∧ c ≤ 'F' then some (c.toNat - 55)
  else none

def hexPairs : List Char → Option Bytes
  | [] => some []
  | [_] => none
  | a :: b :: rest =>
    match hexValue a, hexValue b, hexPairs rest with
    | some x, some y, some bytes => some (.ofNat (16 * x + y) :: bytes)
    | _, _, _ => none

def hexDecode (s : String) : Option Bytes := hexPairs s.toList

def parseI64 (s : String) : Option Int64 := (signedDigits s.toList).bind toInt64?

/-- The signed text: timestamp, method, path and query, and the body hash if there is one. -/
def meshMessage (timestamp method pathAndQuery : String) (bodyHash : Option String) : String :=
  match bodyHash with
  | some bh => timestamp ++ ":" ++ method ++ ":" ++ pathAndQuery ++ ":" ++ bh
  | none => timestamp ++ ":" ++ method ++ ":" ++ pathAndQuery

/-- `mesh_hmac_header`: the timestamp and the signature in hex, given the shared secret if any. -/
def meshHmacHeader (c : Crypto) (secret : Option Bytes) (now : Int64) (method pathAndQuery : String)
    (bodyHash : Option String) : Option (String × String) :=
  let timestamp := toString now.toInt
  secret.bind fun secret =>
    match computeHmac c secret (utf8 (meshMessage timestamp method pathAndQuery bodyHash)) with
    | .ok sig => some (timestamp, hexEncode sig)
    | .error _ => none

/-- The request headers this crate sets and reads. A header that is missing, or no visible ASCII,
reads as `none`. -/
structure MeshHeaders where
  authorization : Option String := none
  timestamp : Option String := none
  signature : Option String := none
  bodyHash : Option String := none

def bearerFromToken (token : String) : Option String :=
  if token.isEmpty then none else some ("Bearer " ++ token)

/-- `apply_mesh_auth`, given the bearer token of the environment. -/
def applyMeshAuth (c : Crypto) (secret : Option Bytes) (token : Option String) (now : Int64)
    (method pathAndQuery : String) (body : Option Bytes) : MeshHeaders :=
  let bodyHash := body.map fun b => hexEncode (c.sha256 b)
  let headers : MeshHeaders := { authorization := token.bind bearerFromToken }
  match meshHmacHeader c secret now method pathAndQuery bodyHash with
  | some (timestamp, signature) =>
    { headers with timestamp := some timestamp, signature := some signature, bodyHash := bodyHash }
  | none => headers

/-! ### The receiving side -/

inductive Status where
  | ok
  | unauthorized
  | forbidden
  deriving DecidableEq

def Status.isSuccess : Status → Bool
  | .ok => true
  | .unauthorized | .forbidden => false

def Status.text : Status → String
  | .ok => "200 OK"
  | .unauthorized => "401 Unauthorized"
  | .forbidden => "403 Forbidden"

structure Response where
  status : Status
  body : Json

def errorBody (message : String) : Json := .object [("error", .string message)]

def hmacMaxAgeSecs : Int64 := 300

/-- The text the receiver verifies: no body hash if the header is missing or empty. -/
def receivedMessage (path : String) (h : MeshHeaders) : String :=
  let bodyHash := h.bodyHash.getD ""
  meshMessage (h.timestamp.getD "") "POST" path (if bodyHash.isEmpty then none else some bodyHash)

def isExpired (now : Int64) (h : MeshHeaders) : Bool :=
  (parseI64 (h.timestamp.getD "")).any fun ts => hmacMaxAgeSecs < (now - ts).abs

/-- The check both POST handlers begin with; `none` lets the request through. -/
def checkHmac (c : Crypto) (secret : Option Bytes) (now : Int64) (path : String) (h : MeshHeaders) :
    Option Response :=
  match secret with
  | none => none
  | some secret =>
    if isExpired now h then some ⟨.unauthorized, errorBody "HMAC timestamp expired"⟩
    else
      match verifyHmac c secret (utf8 (receivedMessage path h)) ((hexDecode (h.signature.getD "")).getD []) with
      | .ok true => none
      | _ => some ⟨.unauthorized, errorBody "HMAC verification failed"⟩

theorem checkHmac_none {c : Crypto} {secret : Bytes} {now : Int64} {path : String} {h : MeshHeaders}
    (passes : checkHmac c (some secret) now path h = none) :
    c.verifySlice secret (utf8 (receivedMessage path h)) ((hexDecode (h.signature.getD "")).getD []) = true := by
  unfold checkHmac at passes
  dsimp only at passes
  split at passes
  · cases passes
  split at passes
  · rename_i verified
    unfold verifyHmac at verified
    cases inputs : hmacInputs secret (utf8 (receivedMessage path h)) with
    | error why => rw [inputs] at verified; cases verified
    | ok =>
      rw [inputs] at verified
      exact Except.ok.inj verified
  · cases passes

theorem checkHmac_status {c : Crypto} {secret : Option Bytes} {now : Int64} {path : String} {h : MeshHeaders}
    {r : Response} (rejects : checkHmac c secret now path h = some r) : r.status = .unauthorized := by
  unfold checkHmac at rejects
  split at rejects
  · cases rejects
  split at rejects
  · rw [← Option.some.inj rejects]
  split at rejects
  · cases rejects
  · rw [← Option.some.inj rejects]

/-! ### Encodings are injective -/

theorem utf8_injective {s t : String} (h : utf8 s = utf8 t) : s = t := by
  apply String.toByteArray_inj.mp
  exact ByteArray.ext (Array.toList_inj.mp h)

theorem hexDigit_inj : ∀ m < 16, ∀ n < 16, Json.hexDigit m = Json.hexDigit n → m = n := by decide

theorem hexDigits_inj {a b : UInt8} (h : hexDigits a = hexDigits b) : a = b := by
  have mod (n : Nat) : Json.hexDigit n = Json.hexDigit (n % 16) := by simp [Json.hexDigit]
  have boundA := a.toNat_lt
  have boundB := b.toNat_lt
  obtain ⟨high, low⟩ : Json.hexDigit (a.toNat / 16) = Json.hexDigit (b.toNat / 16) ∧
      Json.hexDigit a.toNat = Json.hexDigit b.toNat := by simpa [hexDigits] using h
  have high := hexDigit_inj _ (by omega) _ (by omega) high
  rw [mod a.toNat, mod b.toNat] at low
  have low := hexDigit_inj _ (by omega) _ (by omega) low
  exact UInt8.toNat_inj.mp (by omega)

theorem hexEncode_injective {a b : Bytes} (h : hexEncode a = hexEncode b) : a = b := by
  have texts : a.flatMap hexDigits = b.flatMap hexDigits := String.ofList_inj.mp h
  clear h
  induction a generalizing b with
  | nil =>
    cases b with
    | nil => rfl
    | cons y ys => simp [hexDigits] at texts
  | cons x xs ih =>
    cases b with
    | nil => simp [hexDigits] at texts
    | cons y ys =>
      rw [List.flatMap_cons, List.flatMap_cons] at texts
      obtain ⟨head, tail⟩ := List.append_inj texts rfl
      rw [hexDigits_inj head, ih tail]

/-- A digest of 32 bytes for one text, and a longer one for every other. -/
theorem digest_injective (text digest : Bytes) (length : digest.length = 32) :
    Function.Injective fun body => if body = text then digest else body ++ List.replicate 33 0 := by
  intro a b same
  dsimp only at same
  split at same <;> split at same
  · rename_i first second
    rw [first, second]
  · have := congrArg List.length same
    simp [length] at this
  · have := congrArg List.length same
    simp [length] at this
  · exact List.append_cancel_right same

theorem colon_not_mem_hexEncode (bytes : Bytes) : ':' ∉ (hexEncode bytes).toList := by
  have digit : ∀ n < 16, Json.hexDigit n ≠ ':' := by decide
  have mod (n : Nat) : Json.hexDigit n = Json.hexDigit (n % 16) := by simp [Json.hexDigit]
  rw [hexEncode, String.toList_ofList]
  intro member
  obtain ⟨b, _, found⟩ := List.mem_flatMap.mp member
  simp only [hexDigits, List.mem_cons, List.not_mem_nil, or_false] at found
  rcases found with high | low
  · rw [mod] at high
    exact digit _ (Nat.mod_lt _ (by decide)) high.symm
  · rw [mod] at low
    exact digit _ (Nat.mod_lt _ (by decide)) low.symm

end ConvergioMesh
