import ConvergioMesh.Peers.Secret
import ConvergioMesh.Routes.Heartbeats

/-!
# Honest requests

Whether a request that a node signs is let through by its receiver, which has a secret of its own,
and what becomes of the heartbeat that ends a visit.
-/

namespace ConvergioMesh

/-! ### Hex -/

theorem hexValue_hexDigit : ∀ n < 16, hexValue (Json.hexDigit n) = some n := by decide

theorem hexPairs_hexDigits (bytes : Bytes) : hexPairs (bytes.flatMap hexDigits) = some bytes := by
  have mod (n : Nat) : Json.hexDigit n = Json.hexDigit (n % 16) := by simp [Json.hexDigit]
  induction bytes with
  | nil => rfl
  | cons b rest ih =>
    have bound := b.toNat_lt
    have high := hexValue_hexDigit (b.toNat / 16) (by omega)
    have low := hexValue_hexDigit (b.toNat % 16) (by omega)
    rw [← mod] at low
    have whole : 16 * (b.toNat / 16) + b.toNat % 16 = b.toNat := by omega
    rw [List.flatMap_cons, hexDigits, List.cons_append, List.cons_append, List.nil_append, hexPairs, high, low, ih]
    simp [whole]

theorem hexDecode_hexEncode (bytes : Bytes) : hexDecode (hexEncode bytes) = some bytes := by
  rw [hexDecode, hexEncode, String.toList_ofList, hexPairs_hexDigits]

/-! ### Signed requests -/

/-- The digests have some bytes, and a tag verifies exactly if it is the one computed. -/
structure Crypto.Regular (c : Crypto) : Prop where
  sha256 : ∀ body, c.sha256 body ≠ []
  hmac : ∀ secret data, c.hmac secret data ≠ []
  verifySlice : ∀ secret data tag, c.verifySlice secret data tag = true ↔ tag = c.hmac secret data

/-- The bytes that are signed for a POST. -/
def postMessage (c : Crypto) (ts : Int64) (path : String) (body : Bytes) : Bytes :=
  utf8 (meshMessage (toString ts.toInt) "POST" path (some (hexEncode (c.sha256 body))))

/-- The receiver checks nothing, or both sides have secrets with which the message gets the same tag, and their clocks
differ by at most 300 seconds. -/
def Trusts (c : Crypto) (sender receiver : Option Bytes) (now ts : Int64) (path : String) (body : Bytes) : Prop :=
  receiver = none ∨ ∃ secret key, sender = some secret ∧ receiver = some key ∧ secret ≠ [] ∧ key ≠ [] ∧
    c.hmac secret (postMessage c ts path body) = c.hmac key (postMessage c ts path body) ∧
    (now.toInt - ts.toInt).natAbs ≤ 300

variable {c : Crypto} {sender receiver : Option Bytes} {now ts : Int64} {path : String} {body : Bytes}

theorem utf8_ne_nil {s : String} (nonempty : s ≠ "") : utf8 s ≠ [] := fun empty => nonempty (utf8_injective empty)

theorem hmacInputs_ok_iff {secret data : Bytes} : hmacInputs secret data = .ok () ↔ secret ≠ [] ∧ data ≠ [] := by
  unfold hmacInputs
  cases secret <;> cases data <;> simp

theorem verifyHmac_ok_iff {secret data tag : Bytes} :
    verifyHmac c secret data tag = .ok true ↔ secret ≠ [] ∧ data ≠ [] ∧ c.verifySlice secret data tag = true := by
  unfold verifyHmac
  cases inputs : hmacInputs secret data with
  | error why =>
    refine iff_of_false (fun ok => nomatch ok) fun ⟨key, text, _⟩ => ?_
    rw [hmacInputs_ok_iff.mpr ⟨key, text⟩] at inputs
    cases inputs
  | ok =>
    obtain ⟨key, text⟩ := hmacInputs_ok_iff.mp inputs
    constructor
    · exact fun ok => ⟨key, text, Except.ok.inj ok⟩
    · exact fun ⟨_, _, verified⟩ => congrArg Except.ok verified

theorem checkHmac_some_iff {key : Bytes} {h : MeshHeaders} :
    checkHmac c (some key) now path h = none ↔
      isExpired now h = false ∧
        verifyHmac c key (utf8 (receivedMessage path h)) ((hexDecode (h.signature.getD "")).getD []) = .ok true := by
  unfold checkHmac
  dsimp only
  cases isExpired now h with
  | true => simp
  | false =>
    rw [if_neg Bool.false_ne_true]
    split
    · rename_i verified
      simp [verified]
    · rename_i failed
      exact iff_of_false (fun passes => nomatch passes) fun both => failed both.2

theorem meshMessage_ne_empty (timestamp method path : String) (bodyHash : Option String) :
    meshMessage timestamp method path bodyHash ≠ "" := by
  intro empty
  have colon : ':' ∈ (meshMessage timestamp method path bodyHash).toList := by
    unfold meshMessage
    split <;> simp
  rw [empty] at colon
  cases colon

theorem hexEncode_ne_empty {bytes : Bytes} (nonempty : bytes ≠ []) : (hexEncode bytes).isEmpty = false := by
  rw [Bool.eq_false_iff, ne_eq, String.isEmpty_iff]
  intro empty
  exact nonempty (hexEncode_injective empty)

/-- The headers that a node with a secret sets. -/
def signedHeaders (c : Crypto) (secret : Bytes) (authorization : Option String) (ts : Int64) (path : String)
    (body : Bytes) : MeshHeaders where
  authorization
  timestamp := some (toString ts.toInt)
  signature := some (hexEncode (c.hmac secret (postMessage c ts path body)))
  bodyHash := some (hexEncode (c.sha256 body))

theorem applyMeshAuth_signed {secret : Bytes} (nonempty : secret ≠ []) (token : Option String) (ts : Int64)
    (path : String) (body : Bytes) :
    applyMeshAuth c (some secret) token ts "POST" path (some body) =
      signedHeaders c secret (token.bind bearerFromToken) ts path body := by
  have inputs := hmacInputs_ok_iff.mpr ⟨nonempty, utf8_ne_nil (meshMessage_ne_empty (toString ts.toInt) "POST" path
    (some (hexEncode (c.sha256 body))))⟩
  simp only [applyMeshAuth, meshHmacHeader, computeHmac, Option.map_some, Option.bind_some, inputs, Except.map]
  rfl

theorem applyMeshAuth_unsigned (unsigned : ∀ secret, sender = some secret → secret = []) (token : Option String)
    (ts : Int64) (path : String) (body : Bytes) :
    applyMeshAuth c sender token ts "POST" path (some body) = { authorization := token.bind bearerFromToken } := by
  cases sender with
  | none => rfl
  | some secret =>
    obtain rfl := unsigned secret rfl
    rfl

theorem checkHmac_signed {key secret : Bytes} (regular : c.Regular) (exact : AgeExact now ts)
    {authorization : Option String} :
    checkHmac c (some key) now path (signedHeaders c secret authorization ts path body) = none ↔
      key ≠ [] ∧ c.hmac secret (postMessage c ts path body) = c.hmac key (postMessage c ts path body) ∧
        (now.toInt - ts.toInt).natAbs ≤ 300 := by
  have received : receivedMessage path (signedHeaders c secret authorization ts path body) =
      meshMessage (toString ts.toInt) "POST" path (some (hexEncode (c.sha256 body))) := by
    simp only [receivedMessage, signedHeaders, Option.getD_some, hexEncode_ne_empty (regular.sha256 body),
      Bool.false_eq_true, if_false]
  have signature : (hexDecode ((signedHeaders c secret authorization ts path body).signature.getD "")).getD [] =
      c.hmac secret (postMessage c ts path body) := by
    simp only [signedHeaders, Option.getD_some, hexDecode_hexEncode]
  have timestamp : parseI64 ((signedHeaders c secret authorization ts path body).timestamp.getD "") = some ts :=
    parseI64_toString ts
  have age : isExpired now (signedHeaders c secret authorization ts path body) = false ↔
      (now.toInt - ts.toInt).natAbs ≤ 300 := by
    rw [← Bool.not_eq_true, isExpired_iff timestamp exact, not_lt]
  rw [checkHmac_some_iff, received, signature, verifyHmac_ok_iff, regular.verifySlice, age]
  have message := utf8_ne_nil (meshMessage_ne_empty (toString ts.toInt) "POST" path
    (some (hexEncode (c.sha256 body))))
  unfold postMessage
  tauto

theorem checkHmac_unsigned {key : Bytes} (regular : c.Regular) {authorization : Option String} :
    checkHmac c (some key) now path { authorization } ≠ none := by
  rw [ne_eq, checkHmac_some_iff, verifyHmac_ok_iff, regular.verifySlice]
  rintro ⟨_, _, _, empty⟩
  exact regular.hmac _ _ empty.symm

/-- A receiver lets an honest POST through exactly if it trusts the sender: whatever secrets the two sides have, and
whatever the request. -/
theorem honest_accepted_iff (regular : c.Regular) (exact : AgeExact now ts) (sender receiver : Option Bytes)
    (token : Option String) (path : String) (body : Bytes) :
    checkHmac c receiver now path (applyMeshAuth c sender token ts "POST" path (some body)) = none ↔
      Trusts c sender receiver now ts path body := by
  cases receiver with
  | none => exact iff_of_true rfl (.inl rfl)
  | some key =>
    by_cases signed : ∃ secret, sender = some secret ∧ secret ≠ []
    · obtain ⟨secret, rfl, nonempty⟩ := signed
      rw [applyMeshAuth_signed nonempty, checkHmac_signed regular exact]
      simp [Trusts, nonempty]
    · have unsigned : ∀ secret, sender = some secret → secret = [] := fun secret has =>
        not_not.mp fun nonempty => signed ⟨secret, has, nonempty⟩
      rw [applyMeshAuth_unsigned unsigned]
      refine iff_of_false (checkHmac_unsigned regular) ?_
      rintro (none | ⟨secret, _, has, _, nonempty, _⟩)
      · cases none
      · exact nonempty (unsigned secret has)

/-! ### The heartbeat of a visit -/

structure HeartbeatSendIo where
  now : Int64
  node : LocalNode
  /-- `CONVERGIO_AUTH_TOKEN`. -/
  token : Option String := none
  encode : HeartbeatRequest → Except String Bytes
  client : Except String Unit := .ok ()

def HeartbeatSendIo.heartbeat (io : HeartbeatSendIo) : HeartbeatRequest where
  peer := io.node.name
  version := some cargoPkgVersion
  role := some (io.node.nodeRole.getD "")

/-- `send_heartbeat_to_peer`, with the secret of the registry: the headers and the body that it posts. -/
def sendHeartbeatToPeer (c : Crypto) (sharedSecret : Library.Text) (io : HeartbeatSendIo) : Option (MeshHeaders × Bytes) :=
  let bodyBytes := (io.encode io.heartbeat).toOption.getD []
  match io.client with
  | .error _ => none
  | .ok () =>
    let authorization := some ("Bearer " ++ io.token.getD "dev-local")
    if sharedSecret = [] then some ({ authorization }, bodyBytes)
    else
      let bodyHash := hexEncode (c.sha256 bodyBytes)
      let timestamp := toString io.now.toInt
      let message := timestamp ++ ":POST:/api/heartbeat:" ++ bodyHash
      match computeHmac c (textBytes sharedSecret) (utf8 message) with
      | .ok sig =>
        some ({ authorization, timestamp := some timestamp, signature := some (hexEncode sig), bodyHash := some bodyHash },
          bodyBytes)
      | .error _ => some ({ authorization }, bodyBytes)

theorem textBytes_ne_nil {s : Library.Text} (nonempty : s ≠ []) : textBytes s ≠ [] :=
  fun empty => nonempty (textBytes_injective empty)

theorem heartbeatMessage (c : Crypto) (ts : Int64) (body : Bytes) :
    utf8 (toString ts.toInt ++ ":POST:/api/heartbeat:" ++ hexEncode (c.sha256 body)) =
      postMessage c ts heartbeatPath body := by
  have parts : ":POST:/api/heartbeat:" = ":" ++ "POST" ++ ":" ++ heartbeatPath ++ ":" := by decide
  simp only [postMessage, meshMessage, parts, String.append_assoc]

/-- A heartbeat is signed as the other requests are, with the secret of the registry if it has one. -/
theorem sendHeartbeatToPeer_eq {sharedSecret : Library.Text} {io : HeartbeatSendIo} {h : MeshHeaders} {body : Bytes}
    (sent : sendHeartbeatToPeer c sharedSecret io = some (h, body)) :
    body = (io.encode io.heartbeat).toOption.getD [] ∧
      (sharedSecret = [] ∧ (∃ authorization, h = { authorization }) ∨
        sharedSecret ≠ [] ∧ ∃ authorization, h = signedHeaders c (textBytes sharedSecret) authorization io.now heartbeatPath body) := by
  unfold sendHeartbeatToPeer at sent
  dsimp only at sent
  split at sent
  · cases sent
  split at sent
  · rename_i empty
    obtain ⟨rfl, rfl⟩ := Prod.mk.inj (Option.some.inj sent)
    exact ⟨rfl, .inl ⟨empty, _, rfl⟩⟩
  · rename_i nonempty
    have inputs := hmacInputs_ok_iff.mpr ⟨textBytes_ne_nil nonempty, utf8_ne_nil (meshMessage_ne_empty
      (toString io.now.toInt) "POST" heartbeatPath (some (hexEncode (c.sha256 ((io.encode io.heartbeat).toOption.getD [])))))⟩
    rw [heartbeatMessage, computeHmac, show hmacInputs _ (postMessage c _ _ _) = _ from inputs] at sent
    obtain ⟨rfl, rfl⟩ := Prod.mk.inj (Option.some.inj sent)
    exact ⟨rfl, .inr ⟨nonempty, _, rfl⟩⟩

theorem heartbeat_trusted_iff (regular : c.Regular) {sharedSecret : Library.Text} {io : HeartbeatSendIo} {h : MeshHeaders}
    (exact : AgeExact now io.now) (sent : sendHeartbeatToPeer c sharedSecret io = some (h, body))
    (receiver : Option Bytes) :
    checkHmac c receiver now heartbeatPath h = none ↔
      Trusts c (some (textBytes sharedSecret)) receiver now io.now heartbeatPath body := by
  cases receiver with
  | none => exact iff_of_true rfl (.inl rfl)
  | some key =>
    obtain ⟨_, ⟨rfl, authorization, rfl⟩ | ⟨nonempty, authorization, rfl⟩⟩ := sendHeartbeatToPeer_eq sent
    · refine iff_of_false (checkHmac_unsigned regular) ?_
      rintro (none | ⟨secret, _, same, _, nonempty, _⟩)
      · cases none
      · rw [← Option.some.inj same] at nonempty
        exact nonempty rfl
    · rw [checkHmac_signed regular exact]
      simp [Trusts, textBytes_ne_nil nonempty]

/-- The heartbeat of `io` arrives as it was sent, and the receiver can decode and store it. -/
structure Arrives (c : Crypto) (sharedSecret : Library.Text) (io : HeartbeatSendIo) (post : HeartbeatPost) : Prop where
  sent : sendHeartbeatToPeer c sharedSecret io = some (post.headers, post.body)
  decodes : post.io.decode post.body = .ok io.heartbeat
  pool : post.io.pool = .ok ()
  upsert : post.io.upsert io.heartbeat = .ok ()

theorem accepted_of_arrives {sharedSecret : Library.Text} {io : HeartbeatSendIo} {post : HeartbeatPost}
    (arrives : Arrives c sharedSecret io post) (receiver : Option Bytes) :
    post.accepted c receiver =
      if checkHmac c receiver post.io.now heartbeatPath post.headers = none then
        some ⟨io.node.name, post.written, io.heartbeat.version, io.heartbeat.capabilities, io.heartbeat.role⟩
      else none := by
  unfold HeartbeatPost.accepted handleHeartbeat
  cases checkHmac c receiver post.io.now heartbeatPath post.headers with
  | some rejection => rfl
  | none =>
    dsimp only
    rw [arrives.decodes, arrives.pool]
    dsimp only
    rw [arrives.upsert]
    rfl

/-- After a visit the peer has the node online for 600 seconds if it trusts the node's secret. If it does not, the
visit leaves what it had. -/
theorem heartbeat_shown_iff (regular : c.Regular) {sharedSecret : Library.Text} {io : HeartbeatSendIo}
    {post : HeartbeatPost} (arrives : Arrives c sharedSecret io post) (exact : AgeExact post.io.now io.now)
    (receiver : Option Bytes) (posts : List HeartbeatPost) (later : Int64) :
    (Trusts c (some (textBytes sharedSecret)) receiver post.io.now io.now heartbeatPath post.body →
      (io.node.name ∈ onlinePeers c receiver (posts ++ [post]) later ↔ later.toInt < post.written.toInt + 600)) ∧
    (¬Trusts c (some (textBytes sharedSecret)) receiver post.io.now io.now heartbeatPath post.body →
      onlinePeers c receiver (posts ++ [post]) later = onlinePeers c receiver posts later) := by
  have trusted := heartbeat_trusted_iff regular exact arrives.sent receiver
  have accepted := accepted_of_arrives arrives receiver
  constructor
  · intro trusts
    rw [if_pos (trusted.mpr trusts)] at accepted
    have last : lastHeard c receiver (posts ++ [post]) io.node.name =
        some ⟨io.node.name, post.written, io.heartbeat.version, io.heartbeat.capabilities, io.heartbeat.role⟩ := by
      simp [lastHeard, Library.KeyedRows.lastOf, accepted]
    rw [mem_onlinePeers, last]
    simp only [Option.some.injEq, exists_eq_left', isOnline, decide_eq_true_eq]
    omega
  · intro distrusts
    rw [if_neg (mt trusted.mp distrusts)] at accepted
    simp [onlinePeers, lastHeard, accepted]

/-! ### The heartbeat of a100 -/

/-- Digests that agree with the real ones on the heartbeat of a100. -/
def visitCrypto : Crypto where
  sha256 body := if body = a100Heartbeat then a100HeartbeatHash else [0]
  hmac secret data :=
    if secret = meshKey ∧ data = utf8 ("1776772800:POST:/api/heartbeat:" ++ hexEncode a100HeartbeatHash) then
      a100HeartbeatTag
    else [0]
  verifySlice secret data tag :=
    tag = if secret = meshKey ∧ data = utf8 ("1776772800:POST:/api/heartbeat:" ++ hexEncode a100HeartbeatHash) then
      a100HeartbeatTag
    else [0]

theorem visitCrypto_regular : visitCrypto.Regular := by
  constructor
  · intro body
    change (if body = a100Heartbeat then a100HeartbeatHash else [0]) ≠ []
    split <;> decide
  · intro secret data
    change (if secret = meshKey ∧ _ then a100HeartbeatTag else [0]) ≠ []
    split <;> decide
  · exact fun secret data tag => decide_eq_true_iff

def a100Send : HeartbeatSendIo where
  now := 1776772800
  node := ⟨some "a100", none⟩
  encode _ := .ok a100Heartbeat

theorem a100_clocks : AgeExact a100Post.io.now a100Send.now := ageExact_of_clocks (by decide) (by decide)

theorem a100_trusts :
    Trusts visitCrypto (some meshKey) (some meshKey) 1776772830 1776772800 heartbeatPath a100Heartbeat :=
  .inr ⟨meshKey, meshKey, rfl, rfl, by decide, by decide, rfl, by decide⟩

theorem a100_let_through :
    checkHmac visitCrypto (some meshKey) 1776772830 heartbeatPath
      (applyMeshAuth visitCrypto (some meshKey) none 1776772800 "POST" heartbeatPath (some a100Heartbeat)) = none :=
  (honest_accepted_iff visitCrypto_regular a100_clocks (some meshKey) (some meshKey) none heartbeatPath
    a100Heartbeat).mpr a100_trusts

theorem a100_shown :
    "a100" ∈ onlinePeers visitCrypto (some meshKey) [a100Post] 1776773400 := by
  have arrives : Arrives visitCrypto "mesh-key".toList a100Send a100Post := ⟨rfl, rfl, rfl, rfl⟩
  have secret : textBytes "mesh-key".toList = meshKey := by decide
  have shown := (heartbeat_shown_iff visitCrypto_regular arrives a100_clocks (some meshKey) [] 1776773400).1
  rw [secret] at shown
  exact (shown a100_trusts).mpr (by decide)

end ConvergioMesh
